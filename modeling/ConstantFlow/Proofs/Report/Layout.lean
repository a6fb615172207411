import ConstantFlow.Proofs.Report.Reading
import ConstantFlow.Report.Basic
import Mathlib.Data.List.Forall2

/-!
# What a report shows

The two formats of a report, described by what is found in the text: a table is a heading and one
line for each row, in four columns; a JSON text holds one object, with an object for each row. A
report goes on as long as its rows have labels, and it is whole exactly if all of them do.

Main results:

* `isTable_table`: a table shows the rows up to the first one without a label
* `isJson_json`: a JSON text shows all rows, if they have labels
* `json_eq_of_unlabelled`: there is no JSON text if one of them has none
-/

namespace ConstantFlow.Report

variable {rows : List Row}

/-! ## Tables -/

/-- A text that is filled up with blanks on its left, so that it is as wide as a column. -/
def RightAligned (width : Nat) (s column : String) : Prop :=
  ∃ k, k + s.length = max width s.length ∧ column = String.ofList (List.replicate k ' ') ++ s

/-- The same with the blanks on the right. -/
def LeftAligned (width : Nat) (s column : String) : Prop :=
  ∃ k, k + s.length = max width s.length ∧ column = s ++ String.ofList (List.replicate k ' ')

/-- The line of a table that shows a row: its index, its label and the two facts. -/
structure IsLine (r : Row) (line : String) : Prop where
  columns : ∃ label first second, r.label = some label ∧
    RightAligned 4 (toString r.index) first ∧ LeftAligned 30 label second ∧
    line = first ++ "  " ++ second ++ " IN " ++ r.input.text ++ "  OUT " ++ r.output.text ++ "\n"

/-- A table of a procedure: a heading, and a line for each of the rows. -/
def IsTable (procedure : String) (rows : List Row) (text : String) : Prop :=
  ∃ lines, List.Forall₂ IsLine rows lines ∧
    text = "procedure " ++ procedure ++ "\n" ++ String.join lines

theorem rightAligned_alignRight (width : Nat) (s : String) :
    RightAligned width s (alignRight width s) :=
  ⟨width - s.length, by omega, rfl⟩

theorem leftAligned_alignLeft (width : Nat) (s : String) :
    LeftAligned width s (alignLeft width s) :=
  ⟨width - s.length, by omega, rfl⟩

theorem isLine_line {r : Row} {label : String} (h : r.label = some label) :
    IsLine r (line r label) :=
  ⟨label, _, _, h, rightAligned_alignRight 4 _, leftAligned_alignLeft 30 label, rfl⟩

/-- The row can be shown. -/
def labelled (r : Row) : Bool :=
  r.label.isSome

theorem forall₂_lines (rows : List Row) :
    ∃ ls, List.Forall₂ IsLine (rows.takeWhile labelled) ls ∧
      (lines rows).text = String.join ls := by
  induction rows with
  | nil => exact ⟨[], .nil, rfl⟩
  | cons r rows ih =>
    obtain ⟨ls, hls, htext⟩ := ih
    cases hlabel : r.label with
    | none =>
      refine ⟨[], ?_, ?_⟩
      · rw [List.takeWhile_cons, labelled, hlabel]
        exact .nil
      · rw [lines, hlabel]
        rfl
    | some label =>
      refine ⟨line r label :: ls, ?_, ?_⟩
      · rw [List.takeWhile_cons, labelled, hlabel]
        exact .cons (isLine_line hlabel) hls
      · rw [lines, hlabel, String.join_cons, ← htext]

theorem whole_lines_iff : (lines rows).whole = true ↔ ∀ r ∈ rows, labelled r = true := by
  induction rows with
  | nil => simp [lines]
  | cons r rows ih =>
    rw [List.forall_mem_cons, ← ih, lines, labelled]
    cases r.label <;> simp

theorem isTable_table (r : Report) :
    IsTable r.procedure (r.rows.takeWhile labelled) r.table.text := by
  obtain ⟨ls, hls, htext⟩ := forall₂_lines r.rows
  refine ⟨ls, hls, ?_⟩
  rw [table, htext]

theorem whole_table_iff (r : Report) :
    r.table.whole = true ↔ ∀ row ∈ r.rows, labelled row = true :=
  whole_lines_iff

/-! ## JSON -/

/-- The object that shows a fact: a text for each name. -/
def IsFactObject (f : Fact) (v : Json) : Prop :=
  v = .object ((dictionary f).map fun e => (e.1, .text e.2))

/-- The object that shows a row. -/
structure IsRowObject (r : Row) (v : Json) : Prop where
  members : ∃ label input output, r.label = some label ∧
    IsFactObject r.input input ∧ IsFactObject r.output output ∧
    v = .object [("index", .int r.index), ("stmt", .text label), ("in", input), ("out", output)]

/-- A JSON text of a procedure: one object, with an object for each of the rows. -/
def IsJson (procedure : String) (rows : List Row) (text : String) : Prop :=
  ∃ values, List.Forall₂ IsRowObject rows values ∧
    Json.read text = some (.object [("procedure", .text procedure), ("nodes", .array values)])

theorem isRowObject_rowJson {r : Row} {label : String} (h : r.label = some label) :
    IsRowObject r (rowJson r label) :=
  ⟨label, _, _, h, rfl, rfl, rfl⟩

/-- The objects of rows that all have labels. -/
theorem exists_mapM_rowJson (h : ∀ r ∈ rows, labelled r = true) :
    ∃ values, (rows.mapM fun r => r.label.map (rowJson r)) = some values ∧
      List.Forall₂ IsRowObject rows values := by
  induction rows with
  | nil => exact ⟨[], rfl, .nil⟩
  | cons r rows ih =>
    rw [List.forall_mem_cons] at h
    obtain ⟨label, hlabel⟩ := Option.isSome_iff_exists.mp h.1
    obtain ⟨values, hvalues, hrows⟩ := ih h.2
    refine ⟨rowJson r label :: values, ?_, .cons (isRowObject_rowJson hlabel) hrows⟩
    rw [List.mapM_cons, hlabel, hvalues]
    rfl

theorem mapM_rowJson_eq_none {r : Row} (hr : r ∈ rows) (h : labelled r = false) :
    (rows.mapM fun r => r.label.map (rowJson r)) = none := by
  induction rows with
  | nil => cases hr
  | cons r' rows ih =>
    rw [List.mapM_cons]
    rcases List.mem_cons.mp hr with rfl | hr
    · have hnone : r.label = none := by simpa [labelled] using h
      rw [hnone]
      rfl
    · rw [ih hr]
      cases r'.label <;> rfl

theorem isJson_json {r : Report} (h : ∀ row ∈ r.rows, labelled row = true) :
    IsJson r.procedure r.rows r.json.text ∧ r.json.whole = true := by
  obtain ⟨values, hvalues, hrows⟩ := exists_mapM_rowJson h
  unfold json
  rw [hvalues]
  exact ⟨⟨values, hrows, Json.read_render _⟩, rfl⟩

theorem json_eq_of_unlabelled {r : Report} {row : Row} (hrow : row ∈ r.rows)
    (h : labelled row = false) : r.json = { text := "", whole := false } := by
  unfold json
  rw [mapM_rowJson_eq_none hrow h]

end ConstantFlow.Report

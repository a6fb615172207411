import ConstantFlow.Report.Json

/-!
# Reading JSON

A reader of JSON text, by which it can be said what a text holds without saying how it was written.
The reader knows the values that reports are made of, skips blanks between tokens, and joins the two
surrogates of an escaped character.

Main results:

* `Decimal.number?_toString`: an integer is read back from its decimal digits
* `Json.text?_quoted`: a text is read back from between its quotes
* `Json.read_render`: a value is read back, from a text that holds nothing else
-/

namespace ConstantFlow

/-! ## Numbers -/

namespace Decimal

/-- No digit stands at the front of the text. -/
def Stops (cs : List Char) : Prop :=
  ∀ c ∈ cs.head?, c.isDigit = false

/-- The number at the front of a text, and what follows it. -/
def natural? (cs : List Char) : Option (Nat × List Char) :=
  match cs.takeWhile Char.isDigit with
  | [] => none
  | digits => some (Nat.ofDigitChars 10 digits 0, cs.dropWhile Char.isDigit)

/-- The same with a minus sign, if there is one. -/
def number? : List Char → Option (Int × List Char)
  | '-' :: cs => (natural? cs).map fun r => (-(r.1 : Int), r.2)
  | cs => (natural? cs).map fun r => ((r.1 : Int), r.2)

theorem takeWhile_eq_nil {cs : List Char} (h : Stops cs) : cs.takeWhile Char.isDigit = [] := by
  cases cs with
  | nil => rfl
  | cons c cs => rw [List.takeWhile_cons, h c rfl]; rfl

theorem dropWhile_eq_self {cs : List Char} (h : Stops cs) : cs.dropWhile Char.isDigit = cs := by
  cases cs with
  | nil => rfl
  | cons c cs => rw [List.dropWhile_cons, h c rfl]; rfl

theorem natural?_toDigits (n : Nat) {rest : List Char} (h : Stops rest) :
    natural? (Nat.toDigits 10 n ++ rest) = some (n, rest) := by
  have hdigits : ∀ c ∈ Nat.toDigits 10 n, c.isDigit = true := by
    intro c hc
    exact Nat.isDigit_of_mem_toDigits (by decide) (by decide) hc
  have htake : (Nat.toDigits 10 n ++ rest).takeWhile Char.isDigit = Nat.toDigits 10 n := by
    rw [List.takeWhile_append_of_pos hdigits, takeWhile_eq_nil h, List.append_nil]
  unfold natural?
  rw [htake]
  split
  next hnil => exact absurd hnil Nat.toDigits_ne_nil
  next =>
    rw [Nat.ofDigitChars_ten_toDigits, List.dropWhile_append_of_pos hdigits, dropWhile_eq_self h]

theorem toList_toString (n : Nat) : (toString n).toList = Nat.toDigits 10 n := by
  rw [Nat.toString_eq_ofList_toDigits, String.toList_ofList]

/-- A digit is no minus sign. -/
theorem number?_toDigits (n : Nat) {rest : List Char} (h : Stops rest) :
    number? (Nat.toDigits 10 n ++ rest) = some ((n : Int), rest) := by
  have hnatural := natural?_toDigits n h
  unfold number?
  split
  next cs hcs =>
    have hminus : '-' ∈ Nat.toDigits 10 n := by
      cases hd : Nat.toDigits 10 n with
      | nil => exact absurd hd Nat.toDigits_ne_nil
      | cons c ds =>
        rw [hd, List.cons_append, List.cons.injEq] at hcs
        rw [hcs.1]
        exact List.mem_cons_self
    have hdigit := Nat.isDigit_of_mem_toDigits (by decide) (by decide) hminus
    exact absurd hdigit (by decide)
  next => rw [hnatural]; rfl

theorem number?_toString (n : Int) {rest : List Char} (h : Stops rest) :
    number? ((toString n).toList ++ rest) = some (n, rest) := by
  cases n with
  | ofNat m =>
    change number? ((toString m).toList ++ rest) = _
    rw [toList_toString]
    exact number?_toDigits m h
  | negSucc m =>
    change number? (("-" ++ toString (m + 1)).toList ++ rest) = _
    rw [String.toList_append, toList_toString]
    change (natural? (Nat.toDigits 10 (m + 1) ++ rest)).map _ = _
    rw [natural?_toDigits (m + 1) h]
    rfl

end Decimal

namespace Json

open Decimal (Stops number? number?_toString)

/-! ## Texts -/

/-- The code units that stand for a character in an escape. -/
def units (c : Char) : List Nat :=
  if c.toNat < 0x10000 then [c.toNat]
  else [0xd800 + (c.toNat - 0x10000) / 0x400, 0xdc00 + (c.toNat - 0x10000) % 0x400]

/-- The characters of code units: a high surrogate and a low one make one character. -/
def ofUnits : List Nat → List Char
  | [] => []
  | [u] => [Char.ofNat u]
  | u :: v :: us =>
    if (0xd800 ≤ u ∧ u < 0xdc00) ∧ 0xdc00 ≤ v ∧ v < 0xe000 then
      Char.ofNat (0x10000 + (u - 0xd800) * 0x400 + (v - 0xdc00)) :: ofUnits us
    else Char.ofNat u :: ofUnits (v :: us)

theorem toNat_lt (c : Char) : c.toNat < 0xd800 ∨ 0xdfff < c.toNat ∧ c.toNat < 0x110000 :=
  c.valid

/-- A character that is one unit stands for itself whatever follows it. -/
theorem ofUnits_cons {c : Char} (h : c.toNat < 0x10000) (us : List Nat) :
    ofUnits (c.toNat :: us) = c :: ofUnits us := by
  cases us with
  | nil => simp [ofUnits]
  | cons v us =>
    have hplain : ¬ ((0xd800 ≤ c.toNat ∧ c.toNat < 0xdc00) ∧ 0xdc00 ≤ v ∧ v < 0xe000) := by
      have := toNat_lt c
      omega
    rw [ofUnits, if_neg hplain, Char.ofNat_toNat]

theorem ofUnits_units (c : Char) (us : List Nat) : ofUnits (units c ++ us) = c :: ofUnits us := by
  unfold units
  split
  case isTrue h => exact ofUnits_cons h us
  case isFalse h =>
    have hvalid := toNat_lt c
    have hcode : 0x10000 + (0xd800 + (c.toNat - 0x10000) / 0x400 - 0xd800) * 0x400 +
        (0xdc00 + (c.toNat - 0x10000) % 0x400 - 0xdc00) = c.toNat := by omega
    rw [List.cons_append, List.cons_append, List.nil_append, ofUnits, if_pos (by omega), hcode,
      Char.ofNat_toNat]

theorem ofUnits_flatMap (cs : List Char) : ofUnits (cs.flatMap units) = cs := by
  induction cs with
  | nil => rfl
  | cons c cs ih => rw [List.flatMap_cons, ofUnits_units, ih]

/-- The value of a hexadecimal digit. -/
def hexValue? (c : Char) : Option Nat :=
  if '0' ≤ c ∧ c ≤ '9' then some (c.toNat - '0'.toNat)
  else if 'a' ≤ c ∧ c ≤ 'f' then some (c.toNat - 'a'.toNat + 10)
  else none

/-- The value of four hexadecimal digits. -/
def fourDigits? (a b c d : Char) : Option Nat := do
  let a ← hexValue? a
  let b ← hexValue? b
  let c ← hexValue? c
  let d ← hexValue? d
  return ((a * 16 + b) * 16 + c) * 16 + d

/-- What a character behind a backslash stands for. -/
def unescape? : Char → Option Nat
  | '"' => some '"'.toNat
  | '\\' => some '\\'.toNat
  | 'n' => some '\n'.toNat
  | 'r' => some '\r'.toNat
  | 't' => some '\t'.toNat
  | 'b' => some 0x08
  | 'f' => some 0x0c
  | _ => none

/-- The code units up to the closing quote, and what follows it. -/
def scan : List Char → Option (List Nat × List Char)
  | [] => none
  | '"' :: rest => some ([], rest)
  | '\\' :: 'u' :: a :: b :: c :: d :: rest => do
    let u ← fourDigits? a b c d
    let r ← scan rest
    return (u :: r.1, r.2)
  | '\\' :: c :: rest => do
    let u ← unescape? c
    let r ← scan rest
    return (u :: r.1, r.2)
  | c :: rest => do
    let r ← scan rest
    return (c.toNat :: r.1, r.2)

theorem hexValue?_hexDigit {n : Nat} (h : n < 16) : hexValue? (Text.hexDigit n) = some n := by
  have hall : ∀ n < 16, hexValue? (Text.hexDigit n) = some n := by decide
  exact hall n h

theorem scan_hex {n : Nat} (h : n < 0x10000) (rest : List Char) :
    scan ('\\' :: 'u' :: Text.hex 4 n ++ rest) = (scan rest).map fun r => (n :: r.1, r.2) := by
  have hmod : ∀ m, hexValue? (Text.hexDigit (m % 16)) = some (m % 16) := by
    intro m
    exact hexValue?_hexDigit (Nat.mod_lt m (by decide))
  have hfour : fourDigits? (Text.hexDigit (n / 16 / 16 / 16 % 16))
      (Text.hexDigit (n / 16 / 16 % 16)) (Text.hexDigit (n / 16 % 16)) (Text.hexDigit (n % 16)) =
        some n := by
    simp only [fourDigits?, hmod, Option.bind_eq_bind, Option.bind_some, Option.pure_def,
      Option.some.injEq]
    omega
  change (fourDigits? _ _ _ _ >>= fun u => scan rest >>= fun r => pure (u :: r.1, r.2)) = _
  rw [hfour]
  cases scan rest <;> rfl

theorem scan_plain {c : Char} (hquote : c ≠ '"') (hslash : c ≠ '\\') (rest : List Char) :
    scan (c :: rest) = (scan rest).map fun r => (c.toNat :: r.1, r.2) := by
  rw [scan.eq_def]
  split
  next heq => cases heq
  next heq => exact absurd (List.cons.inj heq).1 hquote
  next heq => exact absurd (List.cons.inj heq).1 hslash
  next heq => exact absurd (List.cons.inj heq).1 hslash
  next heq =>
    cases heq
    cases scan rest <;> rfl

theorem scan_unescape {c : Char} {u : Nat} (h : unescape? c = some u) (rest : List Char) :
    scan ('\\' :: c :: rest) = (scan rest).map fun r => (u :: r.1, r.2) := by
  rw [scan.eq_def]
  split
  next heq => cases heq
  next heq => cases heq
  next heq =>
    cases heq
    cases h
  next heq =>
    cases heq
    rw [h]
    cases scan rest <;> rfl
  next hother heq =>
    cases heq
    exact absurd rfl (hother c rest rfl)

/-- The ways in which a character is written. -/
inductive Written (c : Char) : List Char → Prop where
  | named {e : Char} : unescape? e = some c.toNat → c.toNat < 0x10000 → Written c ['\\', e]
  | plain : c ≠ '"' → c ≠ '\\' → c.toNat < 0x10000 → Written c [c]
  | numbered : c.toNat < 0x10000 → Written c ('\\' :: 'u' :: Text.hex 4 c.toNat)
  | paired : 0x10000 ≤ c.toNat → Written c
    ('\\' :: 'u' :: Text.hex 4 (0xd800 + (c.toNat - 0x10000) / 0x400) ++
      '\\' :: 'u' :: Text.hex 4 (0xdc00 + (c.toNat - 0x10000) % 0x400))

theorem written_escape (c : Char) : Written c (escape c) := by
  unfold escape
  dsimp only
  split
  next hself =>
    rcases hself with rfl | rfl
    · exact .named rfl (by decide)
    · exact .named rfl (by decide)
  next hself =>
  split
  next h => exact .named (by rw [h]; rfl) (by rw [h]; decide)
  next =>
  split
  next h => exact .named (by rw [h]; rfl) (by rw [h]; decide)
  next =>
  split
  next h => exact .named (by rw [h]; rfl) (by rw [h]; decide)
  next =>
  split
  next h => exact .named (by rw [h]; rfl) (by omega)
  next =>
  split
  next h => exact .named (by rw [h]; rfl) (by omega)
  next =>
  split
  next h => exact .plain (fun hc => hself (Or.inl hc)) (fun hc => hself (Or.inr hc)) (by omega)
  next =>
  split
  next h => exact .numbered h
  next h => exact .paired (Nat.not_lt.mp h)

theorem scan_of_written {c : Char} {cs : List Char} (h : Written c cs) (rest : List Char) :
    scan (cs ++ rest) = (scan rest).map fun r => (units c ++ r.1, r.2) := by
  cases h with
  | named hu hlt =>
    rw [units, if_pos hlt]
    exact scan_unescape hu rest
  | plain hquote hslash hlt =>
    rw [units, if_pos hlt]
    exact scan_plain hquote hslash rest
  | numbered hlt =>
    rw [units, if_pos hlt]
    exact scan_hex hlt rest
  | paired hge =>
    have hvalid := toNat_lt c
    rw [units, if_neg (Nat.not_lt.mpr hge), List.append_assoc, scan_hex (by omega),
      scan_hex (by omega)]
    cases scan rest <;> rfl

theorem scan_flatMap_escape (cs rest : List Char) :
    scan (cs.flatMap escape ++ '"' :: rest) = some (cs.flatMap units, rest) := by
  induction cs with
  | nil => rfl
  | cons c cs ih =>
    rw [List.flatMap_cons, List.flatMap_cons, List.append_assoc,
      scan_of_written (written_escape c), ih]
    rfl

/-- The text up to the closing quote, and what follows it. -/
def text? (cs : List Char) : Option (String × List Char) :=
  (scan cs).map fun r => (String.ofList (ofUnits r.1), r.2)

theorem toList_quoted (s : String) : (quoted s).toList = '"' :: s.toList.flatMap escape ++ ['"'] :=
  String.toList_ofList

theorem text?_quoted (s : String) (rest : List Char) :
    text? (s.toList.flatMap escape ++ '"' :: rest) = some (s, rest) := by
  rw [text?, scan_flatMap_escape, Option.map_some, ofUnits_flatMap, String.ofList_toList]

/-! ## Values -/

def isBlank (c : Char) : Bool :=
  c == ' ' || c == '\n' || c == '\r' || c == '\t'

/-- A text without the blanks in front of it. -/
def skip (cs : List Char) : List Char :=
  cs.dropWhile isBlank

section Sequences

variable {α : Type}

/-- What stands in a sequence up to its end, at least one element. -/
def elements? (element? : List Char → Option (α × List Char)) (closing : Char) :
    Nat → List Char → Option (List α × List Char)
  | 0, _ => none
  | k + 1, cs => do
    let (a, rest) ← element? cs
    match skip rest with
    | [] => none
    | c :: rest =>
      if c = ',' then (elements? element? closing k rest).map fun r => (a :: r.1, r.2)
      else if c = closing then some ([a], rest)
      else none

/-- The same for a sequence that may be empty. -/
def sequence? (element? : List Char → Option (α × List Char)) (closing : Char) (k : Nat)
    (cs : List Char) : Option (List α × List Char) :=
  match skip cs with
  | [] => none
  | c :: rest => if c = closing then some ([], rest) else elements? element? closing k (c :: rest)

end Sequences

/-- A key with its value. -/
def field? (value? : List Char → Option (Json × List Char)) (cs : List Char) :
    Option ((String × Json) × List Char) :=
  match skip cs with
  | '"' :: rest => do
    let (key, rest) ← text? rest
    match skip rest with
    | ':' :: rest => (value? rest).map fun r => ((key, r.1), r.2)
    | _ => none
  | _ => none

/-- The value at the front of a text, and what follows it. The number bounds how deep the value may
be and how many elements its sequences may have. -/
def value? : Nat → List Char → Option (Json × List Char)
  | 0, _ => none
  | k + 1, cs =>
    match skip cs with
    | [] => none
    | c :: rest =>
      if c = '"' then (text? rest).map fun r => (.text r.1, r.2)
      else if c = '[' then (sequence? (value? k) ']' k rest).map fun r => (.array r.1, r.2)
      else if c = '\x7b' then
        (sequence? (field? (value? k)) '\x7d' k rest).map fun r => (.object r.1, r.2)
      else (number? (c :: rest)).map fun r => (.int r.1, r.2)

/-- The value that a text holds, if it holds one and nothing else. -/
def read (s : String) : Option Json :=
  match value? (s.length + 1) s.toList with
  | some (v, rest) => if skip rest = [] then some v else none
  | none => none

/-! ## Blanks -/

theorem skip_cons {c : Char} (h : isBlank c = false) (cs : List Char) :
    skip (c :: cs) = c :: cs := by
  rw [skip, List.dropWhile_cons, h]
  rfl

theorem skip_newline (level : Nat) (cs : List Char) :
    skip ((newline level).toList ++ cs) = skip cs := by
  refine List.dropWhile_append_of_pos fun c hc => ?_
  rw [newline, String.toList_ofList, List.mem_cons, List.mem_replicate] at hc
  rcases hc with rfl | ⟨_, rfl⟩
  · rfl
  · rfl

theorem value?_newline (k level : Nat) (cs : List Char) :
    value? k ((newline level).toList ++ cs) = value? k cs := by
  cases k with
  | zero => rfl
  | succ k => rw [value?, value?, skip_newline]

theorem field?_newline (f : List Char → Option (Json × List Char)) (level : Nat) (cs : List Char) :
    field? f ((newline level).toList ++ cs) = field? f cs := by
  rw [field?, field?, skip_newline]

/-! ## Sequences -/

/-- The texts with a comma and a line break between them. -/
def joined (level : Nat) (texts : List String) : String :=
  ("," ++ newline level).intercalate texts

theorem joined_cons_cons (level : Nat) (s t : String) (texts : List String) :
    joined level (s :: t :: texts) = s ++ ("," ++ newline level) ++ joined level (t :: texts) :=
  String.intercalate_cons_cons

theorem exists_joined_eq_append (level : Nat) (t : String) (texts : List String) :
    ∃ more, joined level (t :: texts) = t ++ more := by
  cases texts with
  | nil =>
    refine ⟨"", ?_⟩
    rw [joined, String.intercalate_singleton, String.append_empty]
  | cons u texts =>
    refine ⟨("," ++ newline level) ++ joined level (u :: texts), ?_⟩
    rw [joined_cons_cons, String.append_assoc]

theorem length_le_joined (level : Nat) {texts : List String} {t : String} (ht : t ∈ texts) :
    t.length ≤ (joined level texts).length := by
  induction texts with
  | nil => cases ht
  | cons s texts ih =>
    cases texts with
    | nil =>
      obtain rfl := List.mem_singleton.mp ht
      exact Nat.le_of_eq (congrArg String.length String.intercalate_singleton.symm)
    | cons u texts =>
      rw [joined_cons_cons, String.length_append, String.length_append]
      rcases List.mem_cons.mp ht with rfl | ht
      · omega
      · have := ih ht
        omega

theorem card_le_joined (level : Nat) (texts : List String) :
    texts.length ≤ (joined level texts).length + 1 := by
  induction texts with
  | nil => exact Nat.zero_le _
  | cons s texts ih =>
    cases texts with
    | nil => exact Nat.le_add_left 1 _
    | cons u texts =>
      rw [joined_cons_cons, String.length_append, String.length_append, String.length_append,
        List.length_cons]
      have hcomma : ",".length = 1 := rfl
      omega

section Sequences

variable {α : Type} {element? : List Char → Option (α × List Char)} {closing : Char} {level : Nat}
variable (hskip : ∀ cs, element? ((newline level).toList ++ cs) = element? cs)

include hskip

theorem elements?_newline (k : Nat) (cs : List Char) :
    elements? element? closing k ((newline level).toList ++ cs) =
      elements? element? closing k cs := by
  cases k with
  | zero => rfl
  | succ k => rw [elements?, elements?, hskip]

variable {tail rest : List Char} (hcomma : closing ≠ ',') (htail : skip tail = closing :: rest)
variable (hstops : Stops tail)

include hcomma htail hstops

/-- A sequence is read back if each of its elements is. -/
theorem elements?_joined {items : List α} {text : α → String} {k : Nat} (hne : items ≠ [])
    (hk : items.length ≤ k)
    (hread : ∀ a ∈ items, ∀ rest, Stops rest →
      element? ((text a).toList ++ rest) = some (a, rest)) :
    elements? element? closing k ((joined level (items.map text)).toList ++ tail) =
      some (items, rest) := by
  induction items generalizing k with
  | nil => exact absurd rfl hne
  | cons a items ih =>
    cases k with
    | zero => cases hk
    | succ k =>
      cases items with
      | nil =>
        -- the last element stands right in front of the end
        have ha := hread a List.mem_cons_self tail hstops
        rw [List.map_singleton, joined, String.intercalate_singleton, elements?, ha]
        simp [htail, hcomma]
      | cons b items =>
        let more := (joined level ((b :: items).map text)).toList ++ tail
        have htext : (joined level ((a :: b :: items).map text)).toList ++ tail =
            (text a).toList ++ ',' :: ((newline level).toList ++ more) := by
          rw [List.map_cons, List.map_cons, joined_cons_cons]
          simp [more]
        have hstop : Stops (',' :: ((newline level).toList ++ more)) := by
          intro c hc
          cases hc
          rfl
        have ha := hread a List.mem_cons_self _ hstop
        have hmore : elements? element? closing k ((newline level).toList ++ more) =
            some (b :: items, rest) := by
          rw [elements?_newline hskip]
          exact ih (List.cons_ne_nil b items) (Nat.le_of_succ_le_succ hk)
            fun a' ha' => hread a' (List.mem_cons_of_mem _ ha')
        rw [htext, elements?, ha]
        simp [skip_cons (show isBlank ',' = false from rfl), hmore]

end Sequences

/-- What stands in a block behind its opening bracket. -/
def inner (level : Nat) (closing : String) (texts : List String) : String :=
  if texts.isEmpty then closing
  else newline (level + 1) ++ joined (level + 1) texts ++ newline level ++ closing

theorem block_eq (level : Nat) (opening closing : String) (texts : List String) :
    block level opening closing texts = opening ++ inner level closing texts := by
  unfold block inner
  split
  · rfl
  · simp only [joined, String.append_assoc]

theorem joined_le_inner (level : Nat) (closing : String) (hclosing : closing.length = 1)
    (texts : List String) :
    (joined (level + 1) texts).length ≤ (inner level closing texts).length ∧
      texts.length ≤ (inner level closing texts).length := by
  have hcard := card_le_joined (level + 1) texts
  unfold inner
  split
  case isTrue hnil =>
    rw [List.isEmpty_iff.mp hnil]
    exact ⟨Nat.zero_le _, Nat.zero_le _⟩
  case isFalse =>
    simp only [String.length_append, hclosing]
    omega

theorem sequence?_inner {α : Type} {element? : List Char → Option (α × List Char)}
    {closing : Char} {level : Nat}
    (hskip : ∀ cs, element? ((newline (level + 1)).toList ++ cs) = element? cs)
    (hcomma : closing ≠ ',') (hblank : isBlank closing = false) {items : List α}
    {text : α → String}
    (hopens : ∀ a ∈ items, ∃ c cs, (text a).toList = c :: cs ∧ isBlank c = false ∧ c ≠ closing)
    {k : Nat} (hk : items.length ≤ k)
    (hread : ∀ a ∈ items, ∀ rest, Stops rest → element? ((text a).toList ++ rest) = some (a, rest))
    (rest : List Char) :
    sequence? element? closing k
      ((inner level (String.singleton closing) (items.map text)).toList ++ rest) =
        some (items, rest) := by
  cases items with
  | nil =>
    change sequence? element? closing k ((String.singleton closing).toList ++ rest) = _
    rw [String.toList_singleton, List.singleton_append, sequence?, skip_cons hblank]
    exact if_pos rfl
  | cons a items =>
    let tail := (newline level).toList ++ closing :: rest
    have htail : skip tail = closing :: rest := by rw [skip_newline, skip_cons hblank]
    have hstops : Stops tail := by
      intro c hc
      rw [show tail = '\n' :: (List.replicate (2 * level) ' ' ++ closing :: rest) by
        simp [tail, newline]] at hc
      cases hc
      rfl
    have hjoined := elements?_joined hskip hcomma htail hstops (List.cons_ne_nil a items) hk hread
    have htext : (inner level (String.singleton closing) ((a :: items).map text)).toList ++ rest =
        (newline (level + 1)).toList ++
          ((joined (level + 1) ((a :: items).map text)).toList ++ tail) := by
      simp [inner, tail]
    -- the first element stands in front, so the sequence does not end at once
    obtain ⟨c, cs, ha, hc, hne⟩ := hopens a List.mem_cons_self
    obtain ⟨more, hmore⟩ := exists_joined_eq_append (level + 1) (text a) (items.map text)
    have hcons : (joined (level + 1) ((a :: items).map text)).toList ++ tail =
        c :: (cs ++ more.toList ++ tail) := by
      rw [List.map_cons, hmore, String.toList_append, ha]
      simp
    rw [hcons] at hjoined
    rw [htext, sequence?, skip_newline, hcons, skip_cons hc]
    dsimp only
    rw [if_neg hne, hjoined]

/-! ## Reading back -/

/-- A character with which a number can begin. -/
structure OpensNumber (c : Char) : Prop where
  not_blank : isBlank c = false
  not_closing : c ≠ ']'
  not_quote : c ≠ '"'
  not_array : c ≠ '['
  not_object : c ≠ '\x7b'

theorem opensNumber_of_isDigit {c : Char} (h : c.isDigit = true) : OpensNumber c := by
  have hne : ∀ d : Char, d.isDigit = false → c ≠ d := by
    rintro d hd rfl
    rw [h] at hd
    cases hd
  refine ⟨?_, hne _ rfl, hne _ rfl, hne _ rfl, hne _ rfl⟩
  simp [isBlank, hne]

theorem exists_toString_eq_cons (n : Int) :
    ∃ c cs, (toString n).toList = c :: cs ∧ OpensNumber c := by
  cases n with
  | ofNat m =>
    change ∃ c cs, (toString m).toList = c :: cs ∧ _
    rw [Decimal.toList_toString]
    cases hd : Nat.toDigits 10 m with
    | nil => exact absurd hd Nat.toDigits_ne_nil
    | cons c cs =>
      have hmem : c ∈ Nat.toDigits 10 m := by
        rw [hd]
        exact List.mem_cons_self
      have hdigit := Nat.isDigit_of_mem_toDigits (by decide) (by decide) hmem
      exact ⟨c, cs, rfl, opensNumber_of_isDigit hdigit⟩
  | negSucc m =>
    change ∃ c cs, ("-" ++ toString (m + 1)).toList = c :: cs ∧ _
    rw [String.toList_append]
    exact ⟨'-', _, rfl, by decide, by decide, by decide, by decide, by decide⟩

theorem renderItems_eq_map (level : Nat) (vs : List Json) :
    renderItems level vs = vs.map (render level) := by
  induction vs with
  | nil => rfl
  | cons v vs ih => rw [renderItems, ih, List.map_cons]

/-- The text of a field. -/
def renderField (level : Nat) (f : String × Json) : String :=
  quoted f.1 ++ ": " ++ render level f.2

theorem renderFields_eq_map (level : Nat) (fs : List (String × Json)) :
    renderFields level fs = fs.map (renderField level) := by
  induction fs with
  | nil => rfl
  | cons f fs ih =>
    rcases f with ⟨key, v⟩
    rw [renderFields, ih, List.map_cons, renderField]

/-- How the text of a value begins. -/
theorem exists_render_eq_cons (level : Nat) (v : Json) :
    ∃ c cs, (render level v).toList = c :: cs ∧ isBlank c = false ∧ c ≠ ']' := by
  cases v with
  | int n =>
    obtain ⟨c, cs, hcons, hc⟩ := exists_toString_eq_cons n
    exact ⟨c, cs, by rw [render, hcons], hc.not_blank, hc.not_closing⟩
  | text s => exact ⟨'"', _, by rw [render, toList_quoted]; rfl, rfl, by decide⟩
  | array items =>
    exact ⟨'[', _, by rw [render, block_eq, String.toList_append]; rfl, rfl, by decide⟩
  | object fields =>
    exact ⟨'\x7b', _, by rw [render, block_eq, String.toList_append]; rfl, rfl, by decide⟩

theorem field?_renderField {f : List Char → Option (Json × List Char)} {level : Nat}
    {field : String × Json} {rest : List Char}
    (h : f (' ' :: ((render level field.2).toList ++ rest)) = some (field.2, rest)) :
    field? f ((renderField level field).toList ++ rest) = some (field, rest) := by
  have htext : (renderField level field).toList ++ rest = '"' :: (field.1.toList.flatMap escape ++
      '"' :: ':' :: ' ' :: ((render level field.2).toList ++ rest)) := by
    simp [renderField, toList_quoted]
  rw [htext, field?, skip_cons (by decide)]
  simp [text?_quoted, skip_cons (show isBlank ':' = false from rfl), h]

theorem value?_blank (k : Nat) (cs : List Char) : value? k (' ' :: cs) = value? k cs := by
  cases k with
  | zero => rfl
  | succ k => rw [value?, value?, skip, List.dropWhile_cons_of_pos rfl, skip]

theorem value?_int {k : Nat} (n : Int) {rest : List Char} (hstops : Stops rest) :
    value? (k + 1) ((toString n).toList ++ rest) = some (.int n, rest) := by
  obtain ⟨c, cs, hcons, hc⟩ := exists_toString_eq_cons n
  have hnumber := number?_toString n hstops
  rw [hcons, List.cons_append] at hnumber
  rw [hcons, List.cons_append, value?, skip_cons hc.not_blank]
  simp [hc.not_quote, hc.not_array, hc.not_object, hnumber]

theorem value?_text {k : Nat} (s : String) (rest : List Char) :
    value? (k + 1) ((quoted s).toList ++ rest) = some (.text s, rest) := by
  have htext : (quoted s).toList ++ rest = '"' :: (s.toList.flatMap escape ++ '"' :: rest) := by
    simp [toList_quoted]
  rw [htext, value?, skip_cons (by decide)]
  simp [text?_quoted]

theorem value?_array {k : Nat} {cs rest : List Char} {items : List Json}
    (h : sequence? (value? k) ']' k cs = some (items, rest)) :
    value? (k + 1) ('[' :: cs) = some (.array items, rest) := by
  rw [value?, skip_cons (by decide)]
  simp [h]

theorem value?_object {k : Nat} {cs rest : List Char} {fields : List (String × Json)}
    (h : sequence? (field? (value? k)) '\x7d' k cs = some (fields, rest)) :
    value? (k + 1) ('\x7b' :: cs) = some (.object fields, rest) := by
  rw [value?, skip_cons (by decide)]
  simp [h]

/-- A value is read back from the front of a text. -/
theorem value?_render {v : Json} {level k : Nat} {rest : List Char}
    (hk : (render level v).length < k) (hstops : Stops rest) :
    value? k ((render level v).toList ++ rest) = some (v, rest) := by
  -- by induction on the bound: the texts of elements are shorter than that of their sequence
  induction k generalizing v level rest with
  | zero => cases hk
  | succ k ih =>
    cases v with
    | int n => exact value?_int n hstops
    | text s => exact value?_text s rest
    | array items =>
      rw [render, renderItems_eq_map, block_eq, String.length_append] at hk
      rw [render, renderItems_eq_map, block_eq, String.toList_append, List.append_assoc]
      obtain ⟨hjoined, hcard⟩ := joined_le_inner level "]" rfl
        (items.map (render (level + 1)))
      have hbracket : "[".length = 1 := rfl
      rw [List.length_map] at hcard
      refine value?_array (sequence?_inner (value?_newline k (level + 1)) (by decide) (by decide)
        (fun v _ => exists_render_eq_cons (level + 1) v) (by omega) ?_ rest)
      intro v hv rest hrest
      have hle := length_le_joined (level + 1) (List.mem_map_of_mem (f := render (level + 1)) hv)
      exact ih (by omega) hrest
    | object fields =>
      rw [render, renderFields_eq_map, block_eq, String.length_append] at hk
      rw [render, renderFields_eq_map, block_eq, String.toList_append, List.append_assoc]
      obtain ⟨hjoined, hcard⟩ := joined_le_inner level "\x7d" rfl
        (fields.map (renderField (level + 1)))
      have hbracket : "\x7b".length = 1 := rfl
      rw [List.length_map] at hcard
      refine value?_object (sequence?_inner (field?_newline (value? k) (level + 1)) (by decide)
        (by decide) (fun f _ => ?_) (by omega) ?_ rest)
      · exact ⟨'"', _, by rw [renderField, String.toList_append, String.toList_append,
          toList_quoted]; rfl, rfl, by decide⟩
      · intro f hf rest hrest
        have hle := length_le_joined (level + 1)
          (List.mem_map_of_mem (f := renderField (level + 1)) hf)
        have hvalue : (render (level + 1) f.2).length ≤ (renderField (level + 1) f).length := by
          rw [renderField, String.length_append]
          exact Nat.le_add_left _ _
        refine field?_renderField ?_
        rw [value?_blank]
        exact ih (by omega) hrest

/-- A written value is what its text holds, also with a line break behind it. -/
theorem read_render (v : Json) : read (render 0 v ++ "\n") = some v := by
  have hstops : Stops ['\n'] := by
    intro c hc
    cases hc
    rfl
  have hlength : (render 0 v).length < (render 0 v ++ "\n").length + 1 := by
    rw [String.length_append]
    omega
  have hvalue := value?_render hlength hstops
  have htext : (render 0 v ++ "\n").toList = (render 0 v).toList ++ ['\n'] :=
    String.toList_append
  rw [read, htext, hvalue]
  rfl

end Json

end ConstantFlow

import ConstantFlow.CommandLine.Options

/-!
# Asking for more to be told

The words of a command line are acted on in the same way whatever verbosity has been asked for
before, and nothing but the verbosity of the request depends on it. So one more `-v` in front of a
command line asks for the same, told at more length.

Main results:

* `act_raise`: a word is acted on in the same way, whatever verbosity has been asked for before
* `request_replicate_verbose`: any number of `-v` in front changes nothing of the request but its
  verbosity
-/

namespace ConstantFlow.CommandLine

/-- The progress with `k` more requests for verbosity. -/
def Progress.raise (k : Nat) (p : Progress) : Progress :=
  { p with verbosity := p.verbosity + k }

/-- The same request, told at more length. -/
def Request.raise (k : Nat) : Request → Request
  | .analyse o => .analyse { o with verbosity := o.verbosity + k }
  | r => r

namespace Progress

variable (k : Nat) (p : Progress)

theorem finish_raise : (p.raise k).finish = Request.raise k <$> p.finish := by
  rcases p with ⟨file, format, bound, verbosity, leftover⟩
  cases file with
  | none => rfl
  | some file => cases leftover <;> rfl

theorem takePlain_raise (s : String) : (p.raise k).takePlain s = (p.takePlain s).raise k := by
  rcases p with ⟨file, format, bound, verbosity, leftover⟩
  cases file <;> rfl

theorem dropValue_raise (f : Flag) : (p.raise k).dropValue f = (p.dropValue f).raise k := by
  cases f <;> rfl

theorem setValue_raise (f : Flag) (value : String) :
    (p.raise k).setValue f value = raise k <$> p.setValue f value := by
  cases f with
  | format =>
    simp only [setValue]
    cases Format.ofName? value <;> rfl
  | bound =>
    simp only [setValue]
    cases Numeral.integer? value.toList <;> rfl
  | help => rfl
  | verbose => rfl
  | version => rfl

theorem attachValue_raise (f : Flag) (value : String) :
    (p.raise k).attachValue f value = raise k <$> p.attachValue f value := by
  unfold attachValue
  split
  · rw [dropValue_raise]
    rfl
  · exact setValue_raise k p f value

/-- Options without a value take the same effect; a request that they answer at once is for help or
the version, which say nothing of verbosity. -/
theorem apply_raise (fs : List Flag) :
    (p.raise k).apply fs = ((p.apply fs).1.raise k, (p.apply fs).2.map (Request.raise k)) := by
  induction fs generalizing p with
  | nil => rfl
  | cons f fs ih =>
    cases f with
    | help => rfl
    | version => rfl
    | format => exact ih p
    | bound => exact ih p
    | verbose =>
      have hcount : { p.raise k with verbosity := (p.raise k).verbosity + 1 } =
          raise k { p with verbosity := p.verbosity + 1 } := by
        simp only [raise, Progress.mk.injEq, true_and, and_true]
        omega
      rw [apply, hcount, ih]
      rfl

end Progress

/-- Acting on words raises the verbosity of the request by what it was raised before. -/
theorem act_raise (k : Nat) (p : Progress) (ws : List Argument) :
    act (p.raise k) ws = Request.raise k <$> act p ws := by
  -- along the words: each is dealt with by what the progress says of the file, never of verbosity
  fun_induction act p ws with
  | case1 p =>
    rw [act]
    exact p.finish_raise k
  | case2 p s ws hfile ih | case6 p s ws hfile ih =>
    have hraised : (p.raise k).file = none := hfile
    simp only [act, hraised]
    exact ih
  | case3 p s ws file hfile ih | case7 p s ws file hfile ih =>
    have hraised : (p.raise k).file = some file := hfile
    rw [hfile] at ih ⊢
    simp only [act, hraised]
    exact ih
  | case4 p s ws hseparator ih =>
    rw [act, Progress.takePlain_raise, ih]
    exact hseparator
  | case5 p s ws ih =>
    rw [act]
    exact ih
  | case8 p ws hplain ih =>
    rw [act]
    · exact ih
    · exact hplain
  | case9 p f short hvalue v ws ih =>
    simp only [act, hvalue, if_true, Progress.attachValue_raise, bind_map_left, map_bind, ih]
  | case10 p f short hvalue v ws ih =>
    simp only [act, hvalue, if_true, Progress.setValue_raise, bind_map_left, map_bind, ih]
  | case11 p f short ws hvalue hplain =>
    rw [act, if_pos hvalue]
    · rfl
    · exact hplain
  | case12 p f short value ws hvalue ih =>
    -- the options of the word do the same, and then either answer or leave the rest to be done
    rw [act.eq_def]
    simp only [hvalue, map_bind, Progress.apply_raise]
    refine bind_congr fun fs => ?_
    rcases p.apply fs with ⟨q, _ | request⟩
    · exact ih q
    · rfl

/-- A `-v` in front only raises the verbosity of what is asked for. -/
theorem request_verbose (words : List String) :
    request ("-v" :: words) = Request.raise 1 <$> request words := by
  have hword : sortWord "-v" = .ok (.flag .verbose true none) := rfl
  have hsort : sortWords ("-v" :: words) =
      (sortWords words >>= fun ws => .ok (.flag .verbose true none :: ws)) := by
    rw [sortWords, if_neg (by decide), hword]
    rfl
  have hact : ∀ ws, act .start (.flag .verbose true none :: ws) =
      Request.raise 1 <$> act .start ws := by
    intro ws
    rw [← act_raise, act.eq_def]
    rfl
  rw [request, hsort, bind_assoc, request, map_bind]
  exact bind_congr hact

theorem request_replicate_verbose {words : List String} {o : Options}
    (h : request words = .ok (.analyse o)) (k : Nat) :
    request (List.replicate k "-v" ++ words) =
      .ok (.analyse { o with verbosity := o.verbosity + k }) := by
  induction k with
  | zero => exact h
  | succ k ih =>
    rw [List.replicate_succ, List.cons_append, request_verbose, ih]
    rfl

end ConstantFlow.CommandLine

import Mathlib.Data.List.TakeWhile

/-!
# Lib.Stdio

Reading a C stream line by line.

* `takeLine_append`, `takeLine_ended`, `takeLine_ne_nil`: what a line takes from the text.
* `fgets_nil`, `fgets_cons`, `fgets_failure`: a read at the end of the text, before it, and from a
  stream that fails.
-/

namespace Lib
namespace Stdio

/-- What comes behind the last character of a stream. -/
inductive Ending where
  | eof
  | failure
deriving DecidableEq

/-- A stream open for reading. -/
structure Stream where
  rest : List Char
  ending : Ending
  feof : Bool
deriving DecidableEq

def nul : Char := Char.ofNat 0

/-- At most `n` characters, up to the first newline: the line, what is left, and whether the text
ended before the line did. -/
def takeLine : Nat → List Char → List Char × List Char × Bool
  | 0, text => ([], text, false)
  | _ + 1, [] => ([], [], true)
  | n + 1, c :: text =>
    if c = '\n' then ([c], text, false)
    else
      let (line, rest, ended) := takeLine n text
      (c :: line, rest, ended)

/-- `fgets` with a buffer of `size` characters; `none` is the null pointer. -/
def fgets (size : Nat) (stream : Stream) : Option (List Char) × Stream :=
  let (line, rest, ended) := takeLine (size - 1) stream.rest
  if ended = true ∧ stream.ending = .failure then (none, { stream with rest := rest })
  else
    (if line = [] then none else some line,
     { stream with rest := rest, feof := stream.feof || ended })

/-- What a character array means as a C string. -/
def cString (buffer : List Char) : List Char := buffer.takeWhile fun c => decide (c ≠ nul)

theorem cString_sublist (buffer : List Char) : (cString buffer).Sublist buffer :=
  List.takeWhile_sublist _

theorem nul_not_mem_cString (buffer : List Char) : nul ∉ cString buffer := by
  intro hmem
  rw [cString] at hmem
  exact absurd (List.mem_takeWhile_imp hmem) (by simp)

theorem cString_eq_self {buffer : List Char} (h : nul ∉ buffer) : cString buffer = buffer := by
  refine List.takeWhile_eq_self_iff.mpr fun c hc => decide_eq_true ?_
  rintro rfl
  exact h hc

section TakeLine

variable (n : Nat) (text : List Char)

theorem takeLine_append : (takeLine n text).1 ++ (takeLine n text).2.1 = text := by
  induction n, text using takeLine.induct with
  | case1 text => rfl
  | case2 n => rfl
  | case3 n text => rfl
  | case4 n c text hc line rest ended hline ih => simp [takeLine, hc, ih]

theorem takeLine_ended (h : (takeLine n text).2.2 = true) : (takeLine n text).2.1 = [] := by
  induction n, text using takeLine.induct with
  | case1 text => cases h
  | case2 n => rfl
  | case3 n text => cases h
  | case4 n c text hc line rest ended hline ih =>
    simp only [takeLine, if_neg hc] at h ⊢
    exact ih h

variable {n text}

theorem takeLine_ne_nil (hn : 0 < n) (htext : text ≠ []) : (takeLine n text).1 ≠ [] := by
  obtain ⟨n, rfl⟩ := Nat.exists_eq_add_of_lt hn
  obtain ⟨c, text, rfl⟩ := List.exists_cons_of_ne_nil htext
  rw [Nat.zero_add, takeLine]
  split_ifs
  · exact List.cons_ne_nil _ _
  · exact List.cons_ne_nil _ _

end TakeLine

/-! ## `fgets` -/

section Fgets

variable {size : Nat} {stream : Stream}

/-- At the end of the text. -/
theorem fgets_nil (hsize : 1 < size) (hrest : stream.rest = []) (hending : stream.ending = .eof) :
    fgets size stream = (none, { stream with feof := true }) := by
  obtain ⟨rest, ending, feof⟩ := stream
  subst hrest hending
  have hline : takeLine (size - 1) [] = ([], [], true) := by
    obtain ⟨n, hn⟩ := Nat.exists_eq_add_of_lt hsize
    rw [show size - 1 = (1 + n - 1) + 1 by omega]
    rfl
  simp [fgets, hline]

/-- Before the end of the text a line is read. -/
theorem fgets_cons (hsize : 1 < size) (hrest : stream.rest ≠ []) (hending : stream.ending = .eof)
    (hfeof : stream.feof = false) :
    ∃ line rest feof, fgets size stream = (some line, ⟨rest, .eof, feof⟩) ∧ line ≠ [] ∧
      line ++ rest = stream.rest ∧ (feof = true → rest = []) := by
  obtain ⟨text, ending, feof⟩ := stream
  subst hending hfeof
  have hne := takeLine_ne_nil (n := size - 1) (by omega) hrest
  refine ⟨_, _, (takeLine (size - 1) text).2.2, ?_, hne, takeLine_append (size - 1) text,
    takeLine_ended (size - 1) text⟩
  simp [fgets, hne]

/-- A stream that fails behind its text is never at its end. -/
theorem fgets_failure (hending : stream.ending = .failure) (hfeof : stream.feof = false) :
    (fgets size stream).2.ending = .failure ∧ (fgets size stream).2.feof = false := by
  unfold fgets
  by_cases hended : (takeLine (size - 1) stream.rest).2.2 = true
  · simp [hended, hending, hfeof]
  · simp [hended, hending, hfeof]

end Fgets

end Stdio
end Lib

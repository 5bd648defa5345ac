import Mathlib.Data.List.Infix

/-!
# Lib.Text

Text as a list of characters, with the operations of C++ on it.

* `find`: the place of the first occurrence (`find_isSome_iff`).
* `lines`: what `getline` reads one after the other (`lines_flatMap`).
* `number`: the decimal number at the front of a text (`number_append`).
-/

namespace Lib
namespace Text

/-- The index of the first occurrence of `pat`. -/
def find (pat : List Char) : List Char → Option Nat
  | [] => if pat = [] then some 0 else none
  | c :: s => if pat.isPrefixOf (c :: s) then some 0 else (find pat s).map (· + 1)

theorem find_isSome_iff (pat s : List Char) : (find pat s).isSome = true ↔ pat <:+: s := by
  induction s with
  | nil =>
    rw [List.infix_nil, find]
    split_ifs with h
    · exact iff_of_true rfl h
    · exact iff_of_false Bool.false_ne_true h
  | cons c s ih =>
    rw [List.infix_cons_iff, ← ih, find]
    split_ifs with h
    · exact iff_of_true rfl (.inl (List.isPrefixOf_iff_prefix.mp h))
    · rw [Option.isSome_map]
      exact (or_iff_right fun hpre => h (List.isPrefixOf_iff_prefix.mpr hpre)).symm

theorem find_singleton {c : Char} {before : List Char} (h : c ∉ before) (after : List Char) :
    find [c] (before ++ c :: after) = some before.length := by
  induction before with
  | nil =>
    rw [List.nil_append, find, if_pos (by simp [List.isPrefixOf])]
    rfl
  | cons b before ih =>
    obtain ⟨hb, h⟩ := not_or.mp (mt List.mem_cons.mpr h)
    rw [List.cons_append, find, if_neg (by simp [List.isPrefixOf, hb]), ih h]
    rfl

theorem find_singleton_map {c : Char} {f : Char → Char} (h : ∀ b, f b = c ↔ b = c)
    (s : List Char) : find [c] (s.map f) = find [c] s := by
  induction s with
  | nil => rfl
  | cons b s ih =>
    rw [List.map_cons, find, find, ih]
    by_cases hb : b = c
    · rw [hb, (h c).mpr rfl, if_pos (by simp [List.isPrefixOf]),
        if_pos (by simp [List.isPrefixOf])]
    · have hfb : ¬ f b = c := mt (h b).mp hb
      rw [if_neg (by simpa [List.isPrefixOf] using Ne.symm hfb),
        if_neg (by simpa [List.isPrefixOf] using Ne.symm hb)]

/-! ## Lines -/

/-- The lines of a text, each up to its newline. -/
def lines : List Char → List (List Char)
  | [] => []
  | c :: s =>
    if c = '\n' then [] :: lines s
    else
      match lines s with
      | [] => [[c]]
      | line :: rest => (c :: line) :: rest

theorem lines_append {line : List Char} (h : '\n' ∉ line) (s : List Char) :
    lines (line ++ '\n' :: s) = line :: lines s := by
  induction line with
  | nil => rw [List.nil_append, lines, if_pos rfl]
  | cons c line ih =>
    obtain ⟨hc, h⟩ := not_or.mp (mt List.mem_cons.mpr h)
    rw [List.cons_append, lines, if_neg (Ne.symm hc), ih h]

theorem lines_flatMap {ls : List (List Char)} (h : ∀ line ∈ ls, '\n' ∉ line) :
    lines (ls.flatMap (· ++ ['\n'])) = ls := by
  induction ls with
  | nil => rfl
  | cons line ls ih =>
    obtain ⟨hline, h⟩ := List.forall_mem_cons.mp h
    rw [List.flatMap_cons, List.append_assoc, List.singleton_append, lines_append hline, ih h]

/-! ## Numbers -/

/-- The value of decimal digits. -/
def value (digits : List Char) : Nat :=
  digits.foldl (fun n c => 10 * n + (c.toNat - '0'.toNat)) 0

/-- The value of the digits at the front of a text. -/
def number (s : List Char) : Nat := value (s.takeWhile Char.isDigit)

theorem number_append {digits rest : List Char} (hdigits : ∀ c ∈ digits, c.isDigit = true)
    (hrest : ∀ c ∈ rest.head?, c.isDigit = false) : number (digits ++ rest) = value digits := by
  have hnone : rest.takeWhile Char.isDigit = [] := by
    cases rest with
    | nil => rfl
    | cons c rest =>
      have hc : c.isDigit = false := hrest c rfl
      rw [List.takeWhile_cons, hc]
      rfl
  rw [number, List.takeWhile_append_of_pos hdigits, hnone, List.append_nil]

end Text
end Lib

import Hemiola.KeyChords

/-!
# Hemiola.ParseDefined

`parseChord` once more, with every operation checked that C++ leaves undefined, or that throws,
outside its domain: `front` and `pop` on an empty queue, `at` past the end, and a substring whose
bounds are not in order.

The first `pop` comes after a test for an empty queue but is not part of it. `parseChordChecked_eq`
says that nothing else can go wrong: with a separator in the text every operation is defined and
the result is that of `parseChord`, without one the first `pop` is not.
-/

namespace Hemiola
namespace KeyChords

open Lib KeyTable

/-- A `std::string`: its size is a `size_t`. -/
structure StdString where
  text : Str
  size_le : text.length ≤ npos

/-- The operation that is not defined. -/
inductive Undefined where
  | emptyFront | emptyPop | outOfRange | badSubstring
deriving DecidableEq

def front : List Nat → Except Undefined Nat
  | [] => .error .emptyFront
  | sep :: _ => .ok sep

def pop : List Nat → Except Undefined (List Nat)
  | [] => .error .emptyPop
  | _ :: seps => .ok seps

/-- `chord.at ( i )` -/
def charAt (chord : Str) (i : Nat) : Except Undefined Char :=
  match chord[i]? with
  | some c => .ok c
  | none => .error .outOfRange

/-- `std::string { chord.begin() + start, chord.begin() + stop }` -/
def substring (chord : Str) (start stop : Nat) : Except Undefined Str :=
  if start ≤ stop ∧ stop ≤ chord.length then .ok ((chord.take stop).drop start)
  else .error .badSubstring

/-- The body of the loop over the letters. -/
def letter (chord : Str) (chordSet : Finset Nat) (i : Nat) : Except Undefined (Finset Nat) := do
  let token ← charAt chord i
  pure (insert (getKeyCode [token]) chordSet)

/-- The loop over the separators that are left. Its test has found the queue nonempty. -/
def specialsChecked (this : KeyChords) (chord : Str) :
    List Nat → Nat → Finset Nat → Except Undefined (Finset Nat)
  | [], _, chordSet => .ok chordSet
  | sep :: seps, stop, chordSet => do
    let start := stop
    let first ← front (sep :: seps)
    let stop := if first ≠ npos then first + 1 else chord.length
    let _ ← pop (sep :: seps)
    let special ← substring chord start stop
    let chordSet :=
      if special = charKeys this.mDup then insert this.mDup chordSet
      else if special = charKeys this.mPlural then insert this.mPlural chordSet
      else if special = charKeys this.mPast then insert this.mPast chordSet
      else chordSet
    specialsChecked this chord seps stop chordSet

def parseChordChecked (this : KeyChords) (chord : Str) : Except Undefined (Finset Nat) := do
  let chord := chord.filter fun c => !isspace c
  let seps := chord.findIdxs (· == separator)
  let stop ← if seps.isEmpty then pure chord.length else (· + 1) <$> front seps
  let seps ← pop seps
  let chordSet ← (List.range stop).foldlM (letter chord) ∅
  specialsChecked this chord seps stop chordSet

/-! ## The operations that are always defined -/

theorem letter_eq {chord : Str} {i : Nat} (h : i < chord.length) (chordSet : Finset Nat) :
    letter chord chordSet i = .ok (insert (getKeyCode [chord[i]]) chordSet) := by
  rw [letter, charAt, List.getElem?_eq_getElem h]
  rfl

theorem letters_eq {chord : Str} {stop : Nat} (h : stop ≤ chord.length) :
    (List.range stop).foldlM (letter chord) ∅ =
      .ok ((chord.take stop).foldl (fun set c => insert (getKeyCode [c]) set) ∅) := by
  induction stop with
  | zero => rfl
  | succ stop ih =>
    have hlt : stop < chord.length := h
    rw [List.range_succ, List.foldlM_append, ih (Nat.le_of_lt hlt),
      ← List.take_concat_get' chord stop hlt, List.foldl_concat]
    show (letter chord _ stop >>= pure) = _
    rw [letter_eq hlt]
    rfl

/-- With separators in order behind `stop`, every special is a piece of the text. -/
theorem specialsChecked_eq (this : KeyChords) {chord : Str} (hsize : chord.length ≤ npos)
    {seps : List Nat} {stop : Nat} (hsorted : seps.Pairwise (· < ·))
    (hstop : ∀ sep ∈ seps, stop ≤ sep) (hlt : ∀ sep ∈ seps, sep < chord.length)
    (chordSet : Finset Nat) :
    specialsChecked this chord seps stop chordSet =
      .ok (parseSpecials this chord seps stop chordSet) := by
  induction seps generalizing stop chordSet with
  | nil => rfl
  | cons sep seps ih =>
    obtain ⟨hlater, hsorted⟩ := List.pairwise_cons.mp hsorted
    obtain ⟨hstop, _⟩ := List.forall_mem_cons.mp hstop
    obtain ⟨hsep, hlt⟩ := List.forall_mem_cons.mp hlt
    have hnext : (if sep ≠ npos then sep + 1 else chord.length) = sep + 1 :=
      if_pos (by omega)
    have hsub : substring chord stop (sep + 1) = .ok ((chord.take (sep + 1)).drop stop) :=
      if_pos ⟨by omega, hsep⟩
    rw [specialsChecked, parseSpecials]
    show (do
      let special ← substring chord stop (if sep ≠ npos then sep + 1 else chord.length)
      specialsChecked this chord seps _ _) = _
    rw [hnext, hsub]
    exact ih hsorted hlater hlt _

/-! ## The whole function -/

theorem mem_findIdxs_separator {chord : Str} {sep : Nat}
    (h : sep ∈ chord.findIdxs (· == separator)) : sep < chord.length := by
  have hlt := List.lt_add_of_mem_findIdxs sep h
  omega

theorem separator_mem_filter (chord : Str) :
    separator ∈ chord.filter (fun c => !isspace c) ↔ separator ∈ chord := by
  rw [List.mem_filter]
  exact and_iff_left (by decide)

/-- A text with a separator is parsed by defined operations only; without one the first `pop` is
that of an empty queue. -/
theorem parseChordChecked_eq (this : KeyChords) {chord : Str} (hsize : chord.length ≤ npos) :
    this.parseChordChecked chord =
      if separator ∈ chord then .ok (this.parseChord chord) else .error .emptyPop := by
  simp only [parseChordChecked, parseChord, ← separator_mem_filter chord]
  have hsize : (chord.filter fun c => !isspace c).length ≤ npos :=
    (List.length_filter_le _ _).trans hsize
  generalize (chord.filter fun c => !isspace c) = chord at hsize ⊢
  have hsorted : (chord.findIdxs (· == separator)).Pairwise (· < ·) := List.pairwise_findIdxs
  have hlt : ∀ sep ∈ chord.findIdxs (· == separator), sep < chord.length :=
    fun sep => mem_findIdxs_separator
  have hnil : chord.findIdxs (· == separator) = [] ↔ separator ∉ chord := by
    simp only [List.findIdxs_eq_nil_iff, beq_eq_false_iff_ne]
    exact ⟨fun h hmem => h _ hmem rfl, fun h c hc heq => h (heq ▸ hc)⟩
  cases hseps : chord.findIdxs (· == separator) with
  | nil =>
    rw [if_neg (hnil.mp hseps)]
    rfl
  | cons sep seps =>
    rw [hseps] at hsorted hlt hnil
    obtain ⟨hlater, hsorted⟩ := List.pairwise_cons.mp hsorted
    obtain ⟨hsep, hlt⟩ := List.forall_mem_cons.mp hlt
    have hmem : separator ∈ chord := by
      by_contra hnot
      cases hnil.mpr hnot
    rw [if_pos hmem]
    show (do
      let chordSet ← (List.range (sep + 1)).foldlM (letter chord) ∅
      specialsChecked this chord seps (sep + 1) chordSet) = _
    rw [letters_eq hsep]
    exact specialsChecked_eq this hsize hsorted hlater hlt _

/-- **Definedness of `parseChord`**: every operation is defined exactly for a string with a
separator. -/
theorem parseChord_defined_iff (this : KeyChords) (chord : StdString) :
    (∃ chordSet, this.parseChordChecked chord.text = .ok chordSet) ↔ separator ∈ chord.text := by
  rw [parseChordChecked_eq this chord.size_le]
  by_cases h : separator ∈ chord.text
  · rw [if_pos h]
    exact iff_of_true ⟨_, rfl⟩ h
  · rw [if_neg h]
    refine iff_of_false (fun hok => ?_) h
    obtain ⟨_, hok⟩ := hok
    cases hok

/-- The chord of a sweep that found nothing: `pop` on the empty queue. -/
theorem parseChord_empty_undefined :
    ¬ ∀ this : KeyChords, ∀ chord : StdString,
      ∃ chordSet, this.parseChordChecked chord.text = .ok chordSet := by
  intro h
  obtain ⟨chordSet, hok⟩ := h fresh ⟨[], Nat.zero_le _⟩
  cases hok

end KeyChords
end Hemiola

import Mathlib.Data.Finset.Basic
import Hemiola.KeyChords

/-!
# Hemiola.ChordLookup

Looking up chords written without a separator. Such a text is read as the set of the key codes of
its characters (`keyCodes`), whatever their order, repetition and the white space between them.

* `parseChord_eq`: `parseChord` computes that set.
* `find?_addChords`: after the loop over the entries of the configuration the dictionary has, for
  each set, the word of the first entry with that set.
* `getWord_fst`: what a lookup returns.
* `find?_getWord`: it leaves the entry of every nonempty set alone.
* `getWord_first`: the word found, after any number of earlier lookups.
-/

namespace Hemiola
namespace KeyChords

open Lib KeyTable

/-- The key codes of the characters of a text that are not white space. -/
def keyCodes (text : Str) : Finset Nat :=
  ((text.filter fun c => !isspace c).map fun c => getKeyCode [c]).toFinset

/-- The word of the first scalar entry whose text has the key codes `keys`. -/
def firstWord (entries : List (Node × Node)) (keys : Finset Nat) : Option Str :=
  entries.findSome? fun
    | (.scalar word, .scalar text) => if keyCodes text = keys then some word else none
    | _ => none

/-- No scalar chord text has a separator. -/
def NoSeparator (entries : List (Node × Node)) : Prop :=
  ∀ key text, (key, Node.scalar text) ∈ entries → separator ∉ text

def hasSeparator : Node → Bool
  | .scalar text => text.contains separator
  | .nested => false

theorem noSeparator_iff {entries : List (Node × Node)} :
    NoSeparator entries ↔ (entries.all fun entry => !hasSeparator entry.2) = true := by
  rw [List.all_eq_true]
  constructor
  · intro h entry hmem
    obtain ⟨key, value⟩ := entry
    cases value with
    | nested => rfl
    | scalar text => simpa [hasSeparator] using h key text hmem
  · intro h key text hmem
    simpa [hasSeparator] using h _ hmem

instance (entries : List (Node × Node)) : Decidable (NoSeparator entries) :=
  decidable_of_iff' _ noSeparator_iff

theorem foldl_insert (code : Char → Nat) (text : Str) (set : Finset Nat) :
    text.foldl (fun set c => insert (code c) set) set = set ∪ (text.map code).toFinset := by
  induction text generalizing set with
  | nil => simp
  | cons c text ih =>
    rw [List.foldl_cons, ih]
    ext k
    simp only [Finset.mem_union, Finset.mem_insert, List.map_cons, List.toFinset_cons]
    tauto

/-- Without a separator all of the text is letters. -/
theorem parseChord_eq (this : KeyChords) {text : Str} (h : separator ∉ text) :
    this.parseChord text = keyCodes text := by
  have hseps : (text.filter fun c => !isspace c).findIdxs (· == separator) = [] := by
    rw [List.findIdxs_eq_nil_iff]
    intro c hc
    have hne : c ≠ separator := fun he => h (he ▸ (List.mem_filter.mp hc).1)
    simpa using hne
  simp only [parseChord, hseps, List.tail_nil, parseSpecials, List.take_length, foldl_insert,
    keyCodes]
  ext k
  simp

theorem keyCodes_ne_empty {text : Str} (h : ∃ c ∈ text, isspace c = false) :
    keyCodes text ≠ ∅ := by
  obtain ⟨c, hc, hs⟩ := h
  have hmem : getKeyCode [c] ∈ keyCodes text :=
    List.mem_toFinset.mpr (List.mem_map.mpr ⟨c, List.mem_filter.mpr ⟨hc, by simp [hs]⟩, rfl⟩)
  intro he
  rw [he] at hmem
  exact absurd hmem (Finset.notMem_empty _)

theorem keyCodes_plain {text : Str} (h : ∀ c ∈ text, isspace c = false ∧ c ≠ separator) :
    keyCodes text = (text.map fun c => getKeyCode [c]).toFinset := by
  have hplain : (text.filter fun c => !isspace c) = text :=
    List.filter_eq_self.mpr fun c hc => by rw [(h c hc).1]; rfl
  rw [keyCodes, hplain]

/-- Representations are written without white space and without the separator. -/
theorem charKeys_plain (key : Nat) : ∀ c ∈ charKeys key, isspace c = false ∧ c ≠ separator := by
  have htable : (mCharKeys.entries.all fun e =>
      e.2.all fun c => !isspace c && c != separator) = true := by decide
  unfold charKeys
  cases h : mCharKeys.find? key with
  | none => exact List.forall_mem_nil _
  | some rep =>
    intro c hc
    have hrep := List.all_eq_true.mp htable _ (UnorderedMap.find?_eq_some_iff.mp h)
    simpa using List.all_eq_true.mp hrep c hc

/-- One entry: it is taken if its set is not empty and not yet there. -/
theorem find?_addChord (this : KeyChords) (entry : Node × Node)
    (hsep : NoSeparator [entry]) {keys : Finset Nat} (hk : keys ≠ ∅) :
    (this.addChord entry).mChordMap.find? keys =
      (this.mChordMap.find? keys).or (firstWord [entry] keys) := by
  obtain ⟨key, value⟩ := entry
  cases key with
  | nested => simp [addChord, firstWord]
  | scalar word =>
    cases value with
    | nested => simp [addChord, firstWord]
    | scalar text =>
      have hparse := parseChord_eq this (hsep (.scalar word) text (List.mem_singleton.mpr rfl))
      simp only [addChord, hparse, firstWord, List.findSome?_cons, List.findSome?_nil]
      by_cases he : keyCodes text = keys
      · rw [he]
        cases hf : this.mChordMap.find? keys with
        | none =>
          rw [if_pos ⟨hk, UnorderedMap.contains_eq_false_iff.mpr hf⟩, UnorderedMap.find?_set]
          simp
        | some w =>
          have hin := UnorderedMap.contains_iff_find?.mpr ⟨w, hf⟩
          rw [if_neg fun h => Bool.noConfusion (hin.symm.trans h.2), hf]
          rfl
      · split_ifs
        · rw [UnorderedMap.find?_set, if_neg (Ne.symm he)]
          simp
        · simp

theorem find?_addChords (entries : List (Node × Node)) (this : KeyChords)
    (hsep : NoSeparator entries) {keys : Finset Nat} (hk : keys ≠ ∅) :
    (entries.foldl addChord this).mChordMap.find? keys =
      (this.mChordMap.find? keys).or (firstWord entries keys) := by
  induction entries generalizing this with
  | nil => simp [firstWord]
  | cons entry entries ih =>
    have hhead : NoSeparator [entry] := fun key text h =>
      hsep key text (List.mem_cons.mpr (.inl (List.mem_singleton.mp h)))
    have htail : NoSeparator entries := fun key text h => hsep key text (List.mem_cons_of_mem _ h)
    rw [List.foldl_cons, ih _ htail, find?_addChord this entry hhead hk, Option.or_assoc]
    congr 1
    simp only [firstWord, List.findSome?_cons, List.findSome?_nil]
    split <;> rfl

theorem find?_buildMap (config : Config)
    (hsep : NoSeparator (config.chords.getD [])) {keys : Finset Nat} (hk : keys ≠ ∅) :
    (fresh.buildMap config).mChordMap.find? keys =
      firstWord (config.chords.getD []) keys := by
  simp only [buildMap]
  cases hc : config.chords with
  | none => rfl
  | some entries =>
    rw [hc] at hsep
    simp only
    rw [find?_addChords entries _ hsep hk]
    rfl

/-- The word of the set, or else the text; the empty set then gets the empty word. -/
theorem getWord_fst (this : KeyChords) (chord : Str) :
    (this.getWord chord).1 = (this.mChordMap.find? (this.parseChord chord)).getD
      (if this.parseChord chord = ∅ then [] else chord) := by
  unfold getWord
  dsimp only
  cases hfind : this.mChordMap.find? (this.parseChord chord) with
  | some word =>
    have hin := UnorderedMap.contains_iff_find?.mpr ⟨word, hfind⟩
    rw [if_pos (.inr hin), UnorderedMap.subscript_fst, hfind]
    rfl
  | none =>
    have hout : ¬ this.mChordMap.contains (this.parseChord chord) = true :=
      Bool.eq_false_iff.mp (UnorderedMap.contains_eq_false_iff.mpr hfind)
    by_cases hempty : this.parseChord chord = ∅
    · rw [if_pos (.inl hempty), if_pos hempty, UnorderedMap.subscript_fst, hfind]
    · rw [if_neg (not_or.mpr ⟨hempty, hout⟩), if_neg hempty, Option.getD_none]

/-- A lookup enters the empty set at most. -/
theorem find?_getWord (this : KeyChords) (chord : Str) {keys : Finset Nat} (hk : keys ≠ ∅) :
    (this.getWord chord).2.mChordMap.find? keys = this.mChordMap.find? keys := by
  simp only [getWord]
  split_ifs with h
  · by_cases he : keys = this.parseChord chord
    · subst he
      have hc := h.resolve_left hk
      obtain ⟨word, hword⟩ := UnorderedMap.contains_iff_find?.mp hc
      simp only [UnorderedMap.subscript, hword]
    · exact UnorderedMap.find?_subscript _ _ he
  · rfl

/-- A lookup of the empty set enters the empty word, if there is none. -/
theorem getWord_empty (this : KeyChords) (chord : Str) {word : Str}
    (h : (this.getWord chord).2.mChordMap.find? ∅ = some word) :
    word = (this.mChordMap.find? ∅).getD [] := by
  unfold getWord at h
  dsimp only at h
  split_ifs at h
  · by_cases hempty : this.parseChord chord = ∅
    · rw [hempty, UnorderedMap.find?_subscript_self, UnorderedMap.subscript_fst] at h
      exact (Option.some.inj h).symm
    · rw [UnorderedMap.find?_subscript _ _ (Ne.symm hempty)] at h
      rw [h, Option.getD_some]
  · rw [h, Option.getD_some]

theorem find?_getWords (this : KeyChords) (chords : List Str) {keys : Finset Nat}
    (hk : keys ≠ ∅) :
    (this.getWords chords).mChordMap.find? keys = this.mChordMap.find? keys := by
  simp only [getWords]
  induction chords generalizing this with
  | nil => rfl
  | cons chord chords ih => rw [List.foldl_cons, ih, find?_getWord this chord hk]

/-- **First entry wins.** With no separator in the configuration, after any number of earlier
lookups of any strings, a string with no separator and with a character that is not white space
gets the word of the first entry with the same key codes, and itself when there is none. -/
theorem getWord_first (config : Config) (hsep : NoSeparator (config.chords.getD []))
    (earlier : List Str) {chord : Str} (hchord : separator ∉ chord)
    (hne : ∃ c ∈ chord, isspace c = false) :
    (((fresh.buildMap config).getWords earlier).getWord chord).1 =
      (firstWord (config.chords.getD []) (keyCodes chord)).getD chord := by
  have hk := keyCodes_ne_empty hne
  have hfind := (find?_getWords (fresh.buildMap config) earlier hk).trans
    (find?_buildMap config hsep hk)
  rw [getWord_fst, parseChord_eq _ hchord, hfind, if_neg hk]

/-- `began` is configured before another entry with the same letters; it is found by them in any
order. -/
theorem getWord_first_began :
    (((fresh.buildMap ⟨none, none, none, some [(.scalar "began".toList, .scalar "bgan".toList),
      (.nested, .nested), (.scalar "bang".toList, .scalar "b a n g".toList)]⟩).getWords
      ["x".toList]).getWord "nab gg".toList).1 = "began".toList := by
  refine (getWord_first ⟨none, none, none, some _⟩ (by decide) ["x".toList] (by decide)
    ⟨'n', by decide, by decide⟩).trans ?_
  decide +kernel

end KeyChords
end Hemiola

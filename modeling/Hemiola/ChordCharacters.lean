import Hemiola.ChordLookup
import Hemiola.WordOutput

/-!
# Hemiola.ChordCharacters

The characters of the configured chords. `parseChord` takes each character for a key and
`getKeyCode` gives every character without a key the code 0 (`keyReserved`). So a chord with such
a character waits for a key that is never captured, and two chords that differ in such characters
only have the same set, of which `buildMap` drops the second.

* `mem_keyCodes`: the set of a text, by its letters.
* `letters_of_keyCodes`: among known characters the set gives the letters back.
* `chords_faithful_iff`: the dictionary is as meant exactly when every character is known.
-/

namespace Hemiola
namespace KeyChords

open Lib KeyTable

/-- The characters of a text that are not white space. -/
def letters (text : Str) : Finset Char := (text.filter fun c => !isspace c).toFinset

/-- The entry of `text` is taken, and that of `text'` further down is dropped because of it. -/
def Clash (config : Config) (text text' : Str) : Prop :=
  ∃ before key between key' after,
    config.chords = some (before ++ (.scalar key, .scalar text) :: between ++
      (.scalar key', .scalar text') :: after) ∧
    let this := fresh.buildMap { config with chords := some before }
    this.parseChord text ≠ ∅ ∧ this.mChordMap.contains (this.parseChord text) = false ∧
      this.parseChord text' = this.parseChord text

/-- Every set of the dictionary can be captured, and only texts with the same letters clash. -/
def ChordsFaithful (config : Config) : Prop :=
  (∀ keys ∈ (fresh.buildMap config).mChordMap.keys,
    ∀ key ∈ keys, Hemiola.isCapturable key = true) ∧
  ∀ text text', Clash config text text' → letters text = letters text'

/-- Every character of a scalar entry is white space or represents a key. -/
def KnownCharacters (entries : List (Node × Node)) : Prop :=
  ∀ key text, (.scalar key, .scalar text) ∈ entries → ∀ c ∈ letters text, IsSingle c

/-- The test of one entry. -/
def isKnown : Node × Node → Bool
  | (.scalar _, .scalar text) => text.all fun c => isspace c || IsSingle c
  | _ => true

theorem knownCharacters_of_isKnown {entries : List (Node × Node)}
    (h : entries.all isKnown = true) : KnownCharacters entries := by
  intro key text hmem c hc
  obtain ⟨hc, hspace⟩ := List.mem_filter.mp (List.mem_toFinset.mp hc)
  have hknown := List.all_eq_true.mp (List.all_eq_true.mp h _ hmem) c hc
  rw [Bool.or_eq_true, decide_eq_true_eq] at hknown
  exact hknown.resolve_left fun hs => by simp [hs] at hspace

/-! ## Sets and letters -/

theorem mem_keyCodes {text : Str} {key : Nat} :
    key ∈ keyCodes text ↔ ∃ c ∈ letters text, getKeyCode [c] = key := by
  simp only [keyCodes, letters, List.mem_toFinset, List.mem_map]

theorem letters_subset_of_keyCodes {text text' : Str} (h : ∀ c ∈ letters text, IsSingle c)
    (h' : ∀ c ∈ letters text', IsSingle c) (heq : keyCodes text = keyCodes text') :
    letters text ⊆ letters text' := by
  intro c hc
  obtain ⟨d, hd, hcode⟩ := mem_keyCodes.mp (heq ▸ mem_keyCodes.mpr ⟨c, hc, rfl⟩)
  have hchar : [d] = [c] := by
    rw [← (h' d hd).charKeys_getKeyCode, hcode, (h c hc).charKeys_getKeyCode]
  rw [← List.singleton_inj.mp hchar]
  exact hd

theorem letters_of_keyCodes {text text' : Str} (h : ∀ c ∈ letters text, IsSingle c)
    (h' : ∀ c ∈ letters text', IsSingle c) (heq : keyCodes text = keyCodes text') :
    letters text = letters text' :=
  (letters_subset_of_keyCodes h h' heq).antisymm (letters_subset_of_keyCodes h' h heq.symm)

/-! ## The dictionary -/

/-- A set of the dictionary is that of a scalar entry. -/
theorem firstWord_eq_some {entries : List (Node × Node)} {keys : Finset Nat} {word : Str}
    (h : firstWord entries keys = some word) :
    ∃ key text, (Node.scalar key, .scalar text) ∈ entries ∧ keyCodes text = keys := by
  obtain ⟨⟨key, value⟩, hmem, hfound⟩ := List.exists_of_findSome?_eq_some h
  cases key with
  | nested => cases hfound
  | scalar key =>
    cases value with
    | nested => cases hfound
    | scalar text =>
      dsimp only at hfound
      split_ifs at hfound with hkeys
      exact ⟨key, text, hmem, hkeys⟩

/-- The set of every scalar entry is in the dictionary. -/
theorem firstWord_isSome {entries : List (Node × Node)} {key text : Str}
    (h : (Node.scalar key, .scalar text) ∈ entries) :
    ∃ word, firstWord entries (keyCodes text) = some word := by
  rw [← Option.isSome_iff_exists, firstWord, List.findSome?_isSome_iff]
  exact ⟨_, h, by simp⟩

theorem chords_faithful_of_known {config : Config}
    (hsep : NoSeparator (config.chords.getD []))
    (hknown : KnownCharacters (config.chords.getD [])) : ChordsFaithful config := by
  refine ⟨fun keys hkeys key hkey => ?_, fun text text' hclash => ?_⟩
  · obtain ⟨word, hword⟩ := UnorderedMap.mem_keys_iff.mp hkeys
    rw [find?_buildMap config hsep (Finset.ne_empty_of_mem hkey)] at hword
    obtain ⟨name, text, hmem, rfl⟩ := firstWord_eq_some hword
    obtain ⟨c, hc, rfl⟩ := mem_keyCodes.mp hkey
    exact (hknown name text hmem c hc).isCapturable
  · obtain ⟨before, name, between, name', after, hchords, _, _, hparse⟩ := hclash
    rw [hchords, Option.getD_some] at hsep hknown
    rw [parseChord_eq _ (hsep (.scalar name) text (by simp)),
      parseChord_eq _ (hsep (.scalar name') text' (by simp))] at hparse
    exact letters_of_keyCodes (hknown name text (by simp)) (hknown name' text' (by simp))
      hparse.symm

/-- **The characters of the chords.** Without separators, the sets of the dictionary are sets of
keys that can be captured, and no entry is dropped for one with other letters, exactly when every
character of the configured chords represents a key. -/
theorem chords_faithful_iff (config : Config) (hsep : NoSeparator (config.chords.getD [])) :
    ChordsFaithful config ↔ KnownCharacters (config.chords.getD []) := by
  refine ⟨fun hfaithful name text hmem c hc => ?_, chords_faithful_of_known hsep⟩
  obtain ⟨hcapturable, _⟩ := hfaithful
  by_contra hsingle
  -- the set of the entry has the reserved code in it, and is in the dictionary
  have hzero : keyReserved ∈ keyCodes text :=
    mem_keyCodes.mpr ⟨c, hc, getKeyCode_of_not_single hsingle⟩
  obtain ⟨word, hword⟩ := firstWord_isSome hmem
  rw [← find?_buildMap config hsep (Finset.ne_empty_of_mem hzero)] at hword
  have hcap := hcapturable _ (UnorderedMap.mem_keys_iff.mpr ⟨word, hword⟩) _ hzero
  cases hcap

/-- Two entries with the same letters; the second is dropped. -/
theorem chords_faithful_about :
    ChordsFaithful ⟨none, none, none, some [(.scalar "about".toList, .scalar "abou".toList),
      (.scalar "boa".toList, .scalar "b o u a".toList)]⟩ := by
  have hsep : NoSeparator [(.scalar "about".toList, .scalar "abou".toList),
      (.scalar "boa".toList, .scalar "b o u a".toList)] := by decide
  exact (chords_faithful_iff ⟨none, none, none, some _⟩ hsep).mpr
    (knownCharacters_of_isKnown (by decide +kernel))

/-- `M` and `N` have no key, so the chord `N` is dropped as a clash with the chord `M`. -/
theorem capital_chords_clash :
    ¬ ∀ config, NoSeparator (config.chords.getD []) → ChordsFaithful config := by
  intro h
  have hsep : NoSeparator [(.scalar "me".toList, .scalar ['M']),
      (.scalar "not".toList, .scalar ['N'])] := by decide
  obtain ⟨_, hclash⟩ := h ⟨none, none, none, some _⟩ hsep
  have hsame := hclash ['M'] ['N'] ⟨[], "me".toList, [], "not".toList, [], rfl,
    by decide +kernel, by decide +kernel, by decide +kernel⟩
  exact absurd hsame (by decide)

end KeyChords
end Hemiola

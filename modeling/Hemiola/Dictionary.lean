import Hemiola.ChordLookup
import Hemiola.SpecialKeys
import Hemiola.SweepText
import Hemiola.Lib.Simulation

/-!
# Hemiola.Dictionary

`KeyChords` over its whole life: any number of configurations, one after another, with lookups in
between. The abstract dictionary keeps no map. It has the special keys in force and a log of all
chords read so far, in order, and a lookup takes the first chord of the log with the keys of the
text.

* `parseChord_specials`: the keys of a text depend on the special keys only.
* `refines_buildMap`, `refines_getWord`: the map refines the log.
* `answers_first`: every lookup answers as the abstract dictionary does.
-/

namespace Hemiola
namespace KeyChords

open Lib KeyTable

/-- The keys for dup, plural and past. -/
structure Specials where
  dup : Nat
  plural : Nat
  past : Nat
deriving DecidableEq

def specials (this : KeyChords) : Specials := ⟨this.mDup, this.mPlural, this.mPast⟩

/-- A special key after `buildMap`, `old` being the one before. -/
def nextSpecial (setting : Option Str) (default : Char) (old : Nat) : Nat :=
  let field := (setting.map getKeyCode).getD old
  if field = keyReserved then default.toNat else field

def Specials.next (specials : Specials) (config : Config) : Specials where
  dup := nextSpecial config.dup defaultDup specials.dup
  plural := nextSpecial config.plural defaultPlural specials.plural
  past := nextSpecial config.past defaultPast specials.past

/-- The keys of a text. -/
def Specials.chord (specials : Specials) (text : Str) : Finset Nat :=
  parseChord ⟨.empty, specials.dup, specials.plural, specials.past⟩ text

/-- A use of the dictionary. -/
inductive Use where
  | buildMap (config : Config)
  | getWord (chord : Str)

def use (this : KeyChords) : Use → KeyChords
  | .buildMap config => this.buildMap config
  | .getWord chord => (this.getWord chord).2

def answer (this : KeyChords) : Use → Option Str
  | .buildMap _ => none
  | .getWord chord => some (this.getWord chord).1

/-! ## The abstract dictionary -/

structure Dictionary where
  specials : Specials
  log : List (Finset Nat × Str)

namespace Dictionary

def start : Dictionary := ⟨⟨keyReserved, keyReserved, keyReserved⟩, []⟩

/-- The chords of a configuration, with their words. -/
def read (specials : Specials) (config : Config) : List (Finset Nat × Str) :=
  (config.chords.getD []).filterMap fun
    | (.scalar word, .scalar text) => some (specials.chord text, word)
    | _ => none

def use (this : Dictionary) : Use → Dictionary
  | .buildMap config =>
    let specials := this.specials.next config
    ⟨specials, this.log ++ read specials config⟩
  | .getWord _ => this

/-- The word of the first chord with the keys of the text, or else the text. -/
def answer (this : Dictionary) : Use → Option Str
  | .buildMap _ => none
  | .getWord chord =>
    let keys := this.specials.chord chord
    some (if keys = ∅ then [] else (this.log.lookup keys).getD chord)

end Dictionary

/-! ## The keys of a text -/

theorem parseSpecials_congr {this that : KeyChords} (h : this.specials = that.specials)
    (chord : Str) (seps : List Nat) (stop : Nat) (chordSet : Finset Nat) :
    this.parseSpecials chord seps stop chordSet = that.parseSpecials chord seps stop chordSet := by
  simp only [specials, Specials.mk.injEq] at h
  obtain ⟨hdup, hplural, hpast⟩ := h
  induction seps generalizing stop chordSet with
  | nil => rfl
  | cons sep seps ih =>
    rw [parseSpecials, parseSpecials, hdup, hplural, hpast]
    exact ih _ _

theorem parseChord_specials (this : KeyChords) (chord : Str) :
    this.parseChord chord = this.specials.chord chord := by
  unfold Specials.chord parseChord
  refine parseSpecials_congr ?_ _ _ _ _
  rfl

/-! ## The special keys in force -/

theorem specials_addChords (this : KeyChords) (entries : List (Node × Node)) :
    (entries.foldl addChord this).specials = this.specials := by
  obtain ⟨hdup, hplural, hpast⟩ := addChords_specials this entries
  rw [specials, hdup, hplural, hpast]
  rfl

theorem nextSpecial_eq (setting : Option Str) (default : Char) (old : Nat) :
    nextSpecial setting default old =
      (let field := match setting with
        | some text => getKeyCode text
        | none => old
       if field = keyReserved then default.toNat else field) := by
  unfold nextSpecial
  cases setting with
  | none => rw [Option.map_none, Option.getD_none]
  | some text => rw [Option.map_some, Option.getD_some]

/-- `buildMap` sets the special keys and adds the chords of the configuration one by one. -/
theorem buildMap_eq (this : KeyChords) (config : Config) :
    let specials := this.specials.next config
    this.buildMap config = (config.chords.getD []).foldl addChord
      ⟨this.mChordMap, specials.dup, specials.plural, specials.past⟩ := by
  intro specials
  simp only [specials, Specials.next, nextSpecial_eq]
  unfold buildMap
  cases config.chords with
  | none => rfl
  | some entries => rfl

theorem specials_buildMap (this : KeyChords) (config : Config) :
    (this.buildMap config).specials = this.specials.next config := by
  rw [buildMap_eq, specials_addChords]
  rfl

theorem specials_getWord (this : KeyChords) (chord : Str) :
    (this.getWord chord).2.specials = this.specials := by
  unfold getWord
  dsimp only
  split_ifs
  · rfl
  · rfl

/-! ## The map and the log -/

/-- The map has the word of the first chord of the log with these keys. -/
structure Refines (this : KeyChords) (dictionary : Dictionary) : Prop where
  specials : this.specials = dictionary.specials
  word : ∀ keys, keys ≠ ∅ → this.mChordMap.find? keys = dictionary.log.lookup keys
  empty : ∀ word, this.mChordMap.find? ∅ = some word → word = []

theorem find?_addChord_log (this : KeyChords) (entry : Node × Node) {keys : Finset Nat}
    (hkeys : keys ≠ ∅) :
    (this.addChord entry).mChordMap.find? keys = (this.mChordMap.find? keys).or
      ((Dictionary.read this.specials ⟨none, none, none, some [entry]⟩).lookup keys) := by
  obtain ⟨key, value⟩ := entry
  cases key with
  | nested => simp [addChord, Dictionary.read]
  | scalar word =>
    cases value with
    | nested => simp [addChord, Dictionary.read]
    | scalar text =>
      have hread : Dictionary.read this.specials
          ⟨none, none, none, some [(.scalar word, .scalar text)]⟩ =
            [(this.parseChord text, word)] := by
        rw [parseChord_specials]
        rfl
      rw [hread, addChord]
      by_cases heq : keys = this.parseChord text
      · subst heq
        have hlookup :
            [(this.parseChord text, word)].lookup (this.parseChord text) = some word := by simp
        rw [hlookup]
        cases hfind : this.mChordMap.find? (this.parseChord text) with
        | none =>
          rw [if_pos ⟨hkeys, UnorderedMap.contains_eq_false_iff.mpr hfind⟩, UnorderedMap.find?_set,
            if_pos rfl]
          rfl
        | some old =>
          have hin := UnorderedMap.contains_iff_find?.mpr ⟨old, hfind⟩
          rw [if_neg fun h => Bool.noConfusion (hin.symm.trans h.2), hfind]
          rfl
      · have hlookup : [(this.parseChord text, word)].lookup keys = none := by
          rw [List.lookup_cons, beq_false_of_ne heq]
          rfl
        rw [hlookup, Option.or_none]
        split_ifs
        · exact (UnorderedMap.find?_set _ _ _ _).trans (if_neg heq)
        · rfl

theorem find?_addChords_log (this : KeyChords) (entries : List (Node × Node)) {keys : Finset Nat}
    (hkeys : keys ≠ ∅) :
    (entries.foldl addChord this).mChordMap.find? keys = (this.mChordMap.find? keys).or
      ((Dictionary.read this.specials ⟨none, none, none, some entries⟩).lookup keys) := by
  induction entries generalizing this with
  | nil => simp [Dictionary.read]
  | cons entry entries ih =>
    have hsame : (this.addChord entry).specials = this.specials := specials_addChords this [entry]
    have hread : Dictionary.read this.specials ⟨none, none, none, some (entry :: entries)⟩ =
        Dictionary.read this.specials ⟨none, none, none, some [entry]⟩ ++
          Dictionary.read this.specials ⟨none, none, none, some entries⟩ := by
      unfold Dictionary.read
      exact List.filterMap_append (l := [entry])
    rw [List.foldl_cons, ih, hsame, find?_addChord_log this entry hkeys, hread, List.lookup_append,
      Option.or_assoc]

theorem refines_buildMap {this : KeyChords} {dictionary : Dictionary}
    (h : Refines this dictionary) (config : Config) :
    Refines (this.buildMap config) (dictionary.use (.buildMap config)) where
  specials := by
    rw [specials_buildMap, h.specials]
    rfl
  word := by
    intro keys hkeys
    rw [buildMap_eq, find?_addChords_log _ _ hkeys, h.word keys hkeys, h.specials]
    exact List.lookup_append.symm
  empty := by
    intro word hword
    exact h.empty word (buildMap_empty this config ▸ hword)

theorem refines_getWord {this : KeyChords} {dictionary : Dictionary}
    (h : Refines this dictionary) (chord : Str) :
    Refines (this.getWord chord).2 (dictionary.use (.getWord chord)) where
  specials := (specials_getWord this chord).trans h.specials
  word := by
    intro keys hkeys
    rw [find?_getWord this chord hkeys]
    exact h.word keys hkeys
  empty := by
    intro word hword
    rw [getWord_empty this chord hword]
    cases hfind : this.mChordMap.find? ∅ with
    | none => rfl
    | some old => exact h.empty old hfind

theorem answer_eq {this : KeyChords} {dictionary : Dictionary} (h : Refines this dictionary)
    (u : Use) : this.answer u = dictionary.answer u := by
  cases u with
  | buildMap config => rfl
  | getWord chord =>
    show some (this.getWord chord).1 = some (if dictionary.specials.chord chord = ∅ then [] else
      (dictionary.log.lookup (dictionary.specials.chord chord)).getD chord)
    rw [getWord_fst, parseChord_specials, h.specials]
    by_cases hkeys : dictionary.specials.chord chord = ∅
    · rw [hkeys, if_pos rfl, if_pos rfl]
      cases hfind : this.mChordMap.find? ∅ with
      | none => rfl
      | some word => rw [h.empty word hfind, Option.getD_some]
    · rw [h.word _ hkeys, if_neg hkeys, if_neg hkeys]

/-- **The life of a dictionary.** Whatever configurations are loaded and whatever texts are looked
up, in any order and with any separators, every lookup gets the word of the first chord read so far
that has the keys of the text, each chord having been read with the special keys of its load; the
text itself if there is none; and nothing if the text has no keys. -/
theorem answers_first (uses : List Use) :
    answers use answer fresh uses = answers Dictionary.use Dictionary.answer .start uses := by
  have hsim : Simulation use answer Dictionary.use Dictionary.answer Refines :=
    { answer_eq := fun _ _ u h => answer_eq h u
      step := fun _ _ u h => by
        cases u with
        | buildMap config => exact refines_buildMap h config
        | getWord chord => exact refines_getWord h chord }
  have hstart : Refines fresh .start :=
    { specials := rfl
      word := fun _ _ => rfl
      empty := fun _ hword => by cases hword }
  exact hsim.answers_eq hstart uses

end KeyChords
end Hemiola

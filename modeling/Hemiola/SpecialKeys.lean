import Hemiola.KeyChords

/-!
# Hemiola.SpecialKeys

The keys that `buildMap` takes for dup, plural and past. A setting is text and is looked up in the
key table; a default is a character and is assigned as it is, so the field gets the number of the
character where it should get the number of its key.

* `buildMap_mDup`, `buildMap_mPlural`, `buildMap_mPast`: the fields after `buildMap`.
* `denotes_iff`: a field is the key meant exactly when its setting is in the table.
* `specials_intended_iff`: the same for the three fields of a configuration.
-/

namespace Hemiola
namespace KeyChords

open Lib KeyTable

/-- What `buildMap` leaves in a field for its setting and its default. -/
def special (setting : Option Str) (default : Char) : Nat :=
  let field := match setting with
    | some text => getKeyCode text
    | none => keyReserved
  if field = keyReserved then default.toNat else field

/-- The setting is present, with a text of the key table. -/
def IsKnown (setting : Option Str) : Prop :=
  ∃ text, setting = some text ∧ mKeyCodeMap.contains text = true

/-- The text that a field stands for: that of the setting when it is in the key table, or else the
default character. -/
def representation (setting : Option Str) (default : Char) : Str :=
  match setting with
  | some text => if mKeyCodeMap.contains text then text else [default]
  | none => [default]

/-- The field is the key of that text, and is represented by it when a character key is. -/
def Denotes (field : Nat) (setting : Option Str) (default : Char) : Prop :=
  let rep := representation setting default
  field = getKeyCode rep ∧
    ∀ key, isCharKey key = true → charKeys key = rep → charKeys field = rep

/-- The key of one of the letters. -/
def IsLetterKey (key : Nat) : Prop := ∃ c, 'a' ≤ c ∧ c ≤ 'z' ∧ charKeys key = [c]

/-! ## The fields -/

section Fields

variable (this : KeyChords) (config : Config)

theorem addChord_specials (entry : Node × Node) :
    (this.addChord entry).mDup = this.mDup ∧ (this.addChord entry).mPlural = this.mPlural ∧
      (this.addChord entry).mPast = this.mPast := by
  unfold addChord
  split
  · dsimp only
    split_ifs
    · exact ⟨rfl, rfl, rfl⟩
    · exact ⟨rfl, rfl, rfl⟩
  · exact ⟨rfl, rfl, rfl⟩

theorem addChords_specials (entries : List (Node × Node)) :
    (entries.foldl addChord this).mDup = this.mDup ∧
      (entries.foldl addChord this).mPlural = this.mPlural ∧
      (entries.foldl addChord this).mPast = this.mPast := by
  induction entries generalizing this with
  | nil => exact ⟨rfl, rfl, rfl⟩
  | cons entry entries ih =>
    obtain ⟨hdup, hplural, hpast⟩ := addChord_specials this entry
    rw [List.foldl_cons, ← hdup, ← hplural, ← hpast]
    exact ih (this.addChord entry)

theorem buildMap_mDup : (fresh.buildMap config).mDup = special config.dup defaultDup := by
  unfold buildMap
  cases config.chords with
  | none => rfl
  | some entries => exact (addChords_specials _ entries).1

theorem buildMap_mPlural :
    (fresh.buildMap config).mPlural = special config.plural defaultPlural := by
  unfold buildMap
  cases config.chords with
  | none => rfl
  | some entries => exact (addChords_specials _ entries).2.1

theorem buildMap_mPast : (fresh.buildMap config).mPast = special config.past defaultPast := by
  unfold buildMap
  cases config.chords with
  | none => rfl
  | some entries => exact (addChords_specials _ entries).2.2

end Fields

/-! ## The key meant -/

theorem special_some (text : Str) (default : Char) :
    special (some text) default =
      if getKeyCode text = keyReserved then default.toNat else getKeyCode text := rfl

theorem representation_some (text : Str) (default : Char) :
    representation (some text) default =
      if mKeyCodeMap.contains text = true then text else [default] := rfl

theorem special_of_known {text : Str} (h : mKeyCodeMap.contains text = true) (default : Char) :
    special (some text) default = getKeyCode text := by
  have hcode : getKeyCode text ≠ keyReserved := by
    rw [ne_eq, getKeyCode_eq_reserved_iff, h]
    decide
  rw [special_some, if_neg hcode]

theorem special_of_not_known {setting : Option Str} (h : ¬ IsKnown setting) (default : Char) :
    special setting default = default.toNat ∧ representation setting default = [default] := by
  cases setting with
  | none => exact ⟨rfl, rfl⟩
  | some text =>
    have htext : ¬ mKeyCodeMap.contains text = true := fun hin => h ⟨text, rfl, hin⟩
    have hcode : getKeyCode text = keyReserved :=
      getKeyCode_eq_reserved_iff.mpr (eq_false_of_ne_true htext)
    rw [special_some, if_pos hcode, representation_some, if_neg htext]
    exact ⟨rfl, rfl⟩

/-- A default character that is not the number of its key is never right. -/
theorem denotes_iff {default : Char} (hdefault : default.toNat ≠ getKeyCode [default])
    (setting : Option Str) :
    Denotes (special setting default) setting default ↔ IsKnown setting := by
  by_cases h : IsKnown setting
  · refine iff_of_true ?_ h
    obtain ⟨text, rfl, htext⟩ := h
    have hrep : representation (some text) default = text := by
      rw [representation_some, if_pos htext]
    rw [special_of_known htext, Denotes, hrep]
    refine ⟨rfl, fun key hkey hchar => ?_⟩
    rw [← hchar, getKeyCode_charKeys hkey]
  · obtain ⟨hspecial, hrep⟩ := special_of_not_known h default
    refine iff_of_false (fun hdenotes => ?_) h
    obtain ⟨hkey, _⟩ := hdenotes
    rw [hspecial, hrep] at hkey
    exact hdefault hkey

/-- The fields after `buildMap` are the keys meant, and no letter keys when nothing is set. -/
def SpecialsIntended (config : Config) : Prop :=
  let this := fresh.buildMap config
  Denotes this.mDup config.dup defaultDup ∧
    Denotes this.mPlural config.plural defaultPlural ∧
    Denotes this.mPast config.past defaultPast ∧
    (config.dup = none → config.plural = none → config.past = none →
      ¬ IsLetterKey this.mDup ∧ ¬ IsLetterKey this.mPlural ∧ ¬ IsLetterKey this.mPast)

/-- **The special keys** of a configuration are those meant exactly when dup, plural and past are
all set, to texts of the key table. -/
theorem specials_intended_iff (config : Config) :
    SpecialsIntended config ↔
      IsKnown config.dup ∧ IsKnown config.plural ∧ IsKnown config.past := by
  have hdup : defaultDup.toNat ≠ getKeyCode [defaultDup] := by decide +kernel
  have hplural : defaultPlural.toNat ≠ getKeyCode [defaultPlural] := by decide +kernel
  have hpast : defaultPast.toNat ≠ getKeyCode [defaultPast] := by decide +kernel
  unfold SpecialsIntended
  dsimp only
  rw [buildMap_mDup, buildMap_mPlural, buildMap_mPast, denotes_iff hdup, denotes_iff hplural,
    denotes_iff hpast]
  constructor
  · intro h
    obtain ⟨hdup, hplural, hpast, _⟩ := h
    exact ⟨hdup, hplural, hpast⟩
  · intro h
    obtain ⟨hdup, hplural, hpast⟩ := h
    refine ⟨hdup, hplural, hpast, fun hnone => ?_⟩
    obtain ⟨text, htext, _⟩ := hdup
    rw [hnone] at htext
    cases htext

/-- With nothing set, the key for past is that of the letter `z`. -/
theorem default_past_is_letter : ¬ SpecialsIntended ⟨none, none, none, none⟩ := by
  intro h
  obtain ⟨_, _, _, hletters⟩ := h
  obtain ⟨_, _, hpast⟩ := hletters rfl rfl rfl
  exact hpast ⟨'z', by decide, by decide, by decide +kernel⟩

end KeyChords
end Hemiola

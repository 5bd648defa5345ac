import Mathlib.Data.List.Palindrome
import Hemiola.ChordLookup
import Hemiola.WordOutput

/-!
# Hemiola.SweepText

The text that the timer loop types after a sweep. The keys go into the chord string in the order
of the loop over `m_Captured`, each as the text of its representation, and the string is typed
character by character when there is no word for it.

* `sweep_codes`: the codes of the chord string are the expired keys again, if their
  representations have one character.
* `typed_eq`: the word of the dictionary for these keys, or else the chord string.
* `typed_keys_iff`: when the keys typed are the keys that expired.
* `typed_order_iff`: when the text does not depend on the order of the loop.
-/

set_option linter.dupNamespace false

namespace Hemiola

open Lib KeyTable KeyChords

namespace KeyChords

/-- The dictionaries that calls of `buildMap` and `getWord` lead to. -/
inductive Reached : KeyChords → Prop where
  | fresh : Reached .fresh
  | buildMap {this : KeyChords} (config : Config) (h : Reached this) :
      Reached (this.buildMap config)
  | getWord {this : KeyChords} (chord : Str) (h : Reached this) : Reached (this.getWord chord).2

/-- The keys form a chord of the dictionary. -/
def IsChord (this : KeyChords) (keys : Finset Nat) : Prop :=
  keys ≠ ∅ ∧ this.mChordMap.contains keys = true

theorem addChords_empty (this : KeyChords) (entries : List (Node × Node)) :
    (entries.foldl addChord this).mChordMap.find? ∅ = this.mChordMap.find? ∅ := by
  induction entries generalizing this with
  | nil => rfl
  | cons entry entries ih =>
    rw [List.foldl_cons, ih]
    unfold addChord
    split
    · dsimp only
      split_ifs with hnew
      · exact (UnorderedMap.find?_set _ _ _ _).trans (if_neg hnew.1.symm)
      · rfl
    · rfl

theorem buildMap_empty (this : KeyChords) (config : Config) :
    (this.buildMap config).mChordMap.find? ∅ = this.mChordMap.find? ∅ := by
  unfold buildMap
  cases config.chords with
  | none => rfl
  | some entries => exact addChords_empty _ entries

theorem Reached.empty_word {this : KeyChords} (h : Reached this) {word : Str}
    (hword : this.mChordMap.find? ∅ = some word) : word = [] := by
  induction h generalizing word with
  | fresh => cases hword
  | buildMap config h ih => exact ih (buildMap_empty _ config ▸ hword)
  | @getWord this chord h ih =>
    rw [getWord_empty this chord hword]
    cases hfind : this.mChordMap.find? ∅ with
    | none => rfl
    | some word => exact ih hfind

end KeyChords

namespace Hemiola

/-- The entries that the sweep takes out. -/
def swept (this : Hemiola) (now : Nat → Int) : List (Nat × Int) :=
  this.mCaptured.entries.filter (isExpired now)

def sweptKeys (this : Hemiola) (now : Nat → Int) : List Nat := (this.swept now).map Prod.fst

/-- The text that the timer loop types after the sweep. -/
def typed (this : Hemiola) (chords : KeyChords) (ord : KeyOrder) (now : Nat → Int) : Str :=
  (chords.getWord (this.sweep ord now).1).1

/-- The key codes that the characters of the text stand for. -/
def typedCodes (this : Hemiola) (chords : KeyChords) (ord : KeyOrder) (now : Nat → Int) :
    List Nat :=
  (this.typed chords ord now).map fun c => getKeyCode [c]

theorem round_typed (this : Hemiola) (chords : KeyChords) (ord : KeyOrder) (now : Nat → Int)
    (memory : Nat → UInt8) :
    (this.round chords ord now memory).2.2 = outputLoop memory 0 (this.typed chords ord now) :=
  rfl

/-! ## The chord string -/

theorem sweep_plain (this : Hemiola) (ord : KeyOrder) (now : Nat → Int) :
    ∀ c ∈ (this.sweep ord now).1, isspace c = false ∧ c ≠ separator := by
  intro c hc
  rw [sweep_chord, List.mem_flatMap] at hc
  obtain ⟨entry, _, hc⟩ := hc
  exact charKeys_plain entry.1 c hc

/-- The codes of the representation, if it is a single character. -/
theorem charKeys_codes {key : Nat} (h : isCharKey key = true → (charKeys key).length = 1) :
    ((charKeys key).map fun c => getKeyCode [c]) = [key].filter isCharKey := by
  cases hkey : isCharKey key with
  | false => rw [charKeys_of_not_charKey hkey, List.filter_singleton, hkey]; rfl
  | true =>
    obtain ⟨c, hc⟩ := List.length_eq_one_iff.mp (h hkey)
    rw [hc, List.map_singleton, ← hc, getKeyCode_charKeys hkey, List.filter_singleton, hkey]
    rfl

theorem flatMap_codes {entries : List (Nat × Int)}
    (h : ∀ key ∈ entries.map Prod.fst, isCharKey key = true → (charKeys key).length = 1) :
    ((entries.flatMap fun e => charKeys e.1).map fun c => getKeyCode [c]) =
      (entries.map Prod.fst).filter isCharKey := by
  induction entries with
  | nil => rfl
  | cons entry entries ih =>
    obtain ⟨hentry, h⟩ := List.forall_mem_cons.mp h
    rw [List.flatMap_cons, List.map_append, charKeys_codes hentry, ih h, List.map_cons,
      ← List.filter_append, List.singleton_append]

theorem swept_perm (this : Hemiola) (ord : KeyOrder) (now : Nat → Int) :
    ((ord.list this.mCaptured).filter (isExpired now)).Perm (this.swept now) :=
  (ord.perm this.mCaptured).filter _

section Characters

-- the expired keys that have a representation have one of a single character
variable {this : Hemiola} {now : Nat → Int}
  (hchars : ∀ key ∈ this.sweptKeys now, isCharKey key = true → (charKeys key).length = 1)
  (ord : KeyOrder)

include hchars

/-- The keys with a representation, in some order. -/
theorem sweep_codes :
    ((this.sweep ord now).1.map fun c => getKeyCode [c]).Perm
      ((this.sweptKeys now).filter isCharKey) := by
  have hperm := (this.swept_perm ord now).map Prod.fst
  rw [sweep_chord, flatMap_codes fun key hkey => hchars key (hperm.mem_iff.mp hkey)]
  exact hperm.filter _

theorem keyCodes_sweep :
    keyCodes (this.sweep ord now).1 = ((this.sweptKeys now).filter isCharKey).toFinset := by
  rw [keyCodes_plain (this.sweep_plain ord now)]
  exact List.toFinset_eq_of_perm _ _ (sweep_codes hchars ord)

theorem sweep_eq_nil (hempty : ((this.sweptKeys now).filter isCharKey).toFinset = ∅) :
    (this.sweep ord now).1 = [] := by
  have hcodes := sweep_codes hchars ord
  rw [(List.toFinset_eq_empty_iff _).mp hempty, List.perm_nil] at hcodes
  exact List.map_eq_nil_iff.mp hcodes

theorem typed_eq (chords : KeyChords) :
    this.typed chords ord now =
      (chords.mChordMap.find? ((this.sweptKeys now).filter isCharKey).toFinset).getD
        (this.sweep ord now).1 := by
  have hsep : separator ∉ (this.sweep ord now).1 := fun hmem =>
    (this.sweep_plain ord now separator hmem).2 rfl
  rw [typed, getWord_fst, parseChord_eq chords hsep, keyCodes_sweep hchars ord]
  by_cases hempty : ((this.sweptKeys now).filter isCharKey).toFinset = ∅
  · rw [if_pos hempty, sweep_eq_nil hchars ord hempty]
  · rw [if_neg hempty]

end Characters

/-! ## The keys typed -/

/-- The code of a character is a key that the character represents, or none. -/
theorem length_charKeys_of_code {key : Nat} (hkey : isCharKey key = true) {c : Char}
    (hcode : getKeyCode [c] = key) : (charKeys key).length = 1 := by
  have hsingle : IsSingle c := by
    by_contra hnot
    rw [getKeyCode_of_not_single hnot] at hcode
    rw [← hcode] at hkey
    cases hkey
  rw [← hcode, hsingle.charKeys_getKeyCode]
  rfl

/-- **The keys typed** after a sweep are the expired keys that have a representation, each once,
exactly when these representations are single characters and the dictionary has no word for these
keys, or one made of them. -/
theorem typed_keys_iff (this : Hemiola) (chords : KeyChords) (ord : KeyOrder)
    (now : Nat → Int) :
    (this.typedCodes chords ord now).Perm ((this.sweptKeys now).filter isCharKey) ↔
      (∀ key ∈ this.sweptKeys now, isCharKey key = true → (charKeys key).length = 1) ∧
      ∀ word,
        chords.mChordMap.find? ((this.sweptKeys now).filter isCharKey).toFinset = some word →
          (word.map fun c => getKeyCode [c]).Perm ((this.sweptKeys now).filter isCharKey) := by
  constructor
  · intro hperm
    have hsingle : ∀ key ∈ this.sweptKeys now, isCharKey key = true →
        (charKeys key).length = 1 := by
      intro key hkey hchar
      have hmem := hperm.mem_iff.mpr (List.mem_filter.mpr ⟨hkey, hchar⟩)
      obtain ⟨c, _, hcode⟩ := List.mem_map.mp hmem
      exact length_charKeys_of_code hchar hcode
    refine ⟨hsingle, fun word hword => ?_⟩
    rw [typedCodes, typed_eq hsingle ord chords, hword] at hperm
    exact hperm
  · intro h
    obtain ⟨hsingle, hwords⟩ := h
    rw [typedCodes, typed_eq hsingle ord chords]
    cases hfind : chords.mChordMap.find? ((this.sweptKeys now).filter isCharKey).toFinset with
    | none => exact sweep_codes hsingle ord
    | some word => exact hwords word hfind

/-- `TAB` is typed as the six characters of `<TAB/>`, of which only the slash has a key. -/
theorem tab_typed_as_slash :
    ¬ ∀ (this : Hemiola) (chords : KeyChords) (ord : KeyOrder) (now : Nat → Int),
      chords.Reached → ¬ chords.IsChord (this.sweptKeys now).toFinset →
        (this.typedCodes chords ord now).Perm ((this.sweptKeys now).filter isCharKey) := by
  intro h
  let this : Hemiola := init.addKey (.stored _ _) 0 keyTab
  have hperm := h this .fresh (.stored _ _) (fun _ => mTimeThreshold) .fresh
    (fun hchord => absurd hchord.2 (by decide))
  exact absurd hperm.length_eq (by decide +kernel)

/-! ## The order of the loop -/

/-- The text is the same for every order of the loop, and without a chord for the keys it lists
them in the order of their capture. -/
def TypedInOrder (this : Hemiola) (chords : KeyChords) (now : Nat → Int) : Prop :=
  (∀ ord ord' : KeyOrder, this.typed chords ord now = this.typed chords ord' now) ∧
  (¬ chords.IsChord (this.sweptKeys now).toFinset → ∀ ord : KeyOrder,
    ∃ entries : List (Nat × Int), entries.Perm (this.swept now) ∧
      entries.Pairwise (fun e e' => e.2 ≤ e'.2) ∧
      this.typed chords ord now = entries.flatMap fun e => charKeys e.1)

theorem reverse_ne_self {keys : List Nat} (hnd : keys.Nodup) (hlen : 1 < keys.length) :
    keys.reverse ≠ keys := by
  intro heq
  cases List.Palindrome.of_reverse_eq heq with
  | nil => simp at hlen
  | singleton key => simp at hlen
  | cons_concat key inner => simp at hnd

theorem sweptKeys_nodup (this : Hemiola) (now : Nat → Int) : (this.sweptKeys now).Nodup :=
  this.mCaptured.nodup.sublist (List.filter_sublist.map _)

/-- The order does not matter for one entry at most. -/
theorem sweep_of_length_le_one {this : Hemiola} {now : Nat → Int}
    (hlen : (this.swept now).length ≤ 1) (ord : KeyOrder) :
    (this.sweep ord now).1 = (this.swept now).flatMap fun e => charKeys e.1 := by
  have hperm := this.swept_perm ord now
  have heq : (ord.list this.mCaptured).filter (isExpired now) = this.swept now := by
    rcases Nat.le_one_iff_eq_zero_or_eq_one.mp hlen with hzero | hone
    · rw [List.length_eq_zero_iff.mp hzero] at hperm ⊢
      exact hperm.eq_nil
    · obtain ⟨entry, hentry⟩ := List.length_eq_one_iff.mp hone
      rw [hentry] at hperm ⊢
      exact hperm.eq_singleton
  rw [sweep_chord, heq]

section Single

variable {this : Hemiola} {now : Nat → Int}
  (hsingle : ∀ key ∈ this.sweptKeys now, (charKeys key).length = 1)

include hsingle

/-- A key with a representation is a character key. -/
theorem filter_isCharKey : (this.sweptKeys now).filter isCharKey = this.sweptKeys now := by
  refine List.filter_eq_self.mpr fun key hkey => ?_
  by_contra hnot
  have hlen := hsingle key hkey
  rw [charKeys_of_not_charKey (Bool.eq_false_of_not_eq_true hnot)] at hlen
  cases hlen

theorem typed_single (chords : KeyChords) (ord : KeyOrder) :
    this.typed chords ord now =
      (chords.mChordMap.find? (this.sweptKeys now).toFinset).getD (this.sweep ord now).1 := by
  rw [typed_eq (fun key hkey _ => hsingle key hkey), filter_isCharKey hsingle]

/-- Without a chord for the keys the chord string itself is typed. -/
theorem typed_of_not_chord {chords : KeyChords} (hchords : chords.Reached)
    (hno : ¬ chords.IsChord (this.sweptKeys now).toFinset) (ord : KeyOrder) :
    this.typed chords ord now = (this.sweep ord now).1 := by
  rw [typed_single hsingle]
  cases hfind : chords.mChordMap.find? (this.sweptKeys now).toFinset with
  | none => rfl
  | some word =>
    have hempty : (this.sweptKeys now).toFinset = ∅ := by
      by_contra hne
      exact hno ⟨hne, UnorderedMap.contains_iff_find?.mpr ⟨word, hfind⟩⟩
    have hnil : (this.sweep ord now).1 = [] := by
      refine sweep_eq_nil (fun key hkey _ => hsingle key hkey) ord ?_
      rw [filter_isCharKey hsingle, hempty]
    rw [hempty] at hfind
    rw [hchords.empty_word hfind, hnil, Option.getD_some]

theorem sweep_codes_single (ord : KeyOrder) :
    ((this.sweep ord now).1.map fun c => getKeyCode [c]) =
      ((ord.list this.mCaptured).filter (isExpired now)).map Prod.fst := by
  have hperm := (this.swept_perm ord now).map Prod.fst
  have hchar : ∀ key ∈ ((ord.list this.mCaptured).filter (isExpired now)).map Prod.fst,
      isCharKey key = true := fun key hkey =>
    List.filter_eq_self.mp (filter_isCharKey hsingle) key (hperm.mem_iff.mp hkey)
  rw [sweep_chord, flatMap_codes fun key hkey _ => hsingle key (hperm.mem_iff.mp hkey),
    List.filter_eq_self.mpr hchar]

/-- With two entries or more, one order and its opposite give different strings. -/
theorem sweep_reversed_ne (hlen : 1 < (this.swept now).length) :
    (this.sweep (.reversed _ _) now).1 ≠ (this.sweep (.stored _ _) now).1 := by
  intro heq
  have hcodes := congrArg (List.map fun c => getKeyCode [c]) heq
  have hrev : ((UnorderedMap.Order.reversed Nat Int).list this.mCaptured).filter (isExpired now) =
      (this.swept now).reverse := List.filter_reverse
  rw [sweep_codes_single hsingle, sweep_codes_single hsingle, hrev, List.map_reverse] at hcodes
  exact reverse_ne_self (this.sweptKeys_nodup now) (by rwa [sweptKeys, List.length_map]) hcodes

end Single

/-- **The order of the letters.** If the expired keys have representations of one character, the
text typed for them does not depend on the order of the loop, and is that of their capture, exactly
when at most one of them has expired or they form a chord of the dictionary. -/
theorem typed_order_iff {this : Hemiola} {now : Nat → Int} {chords : KeyChords}
    (hchords : chords.Reached)
    (hsingle : ∀ key ∈ this.sweptKeys now, (charKeys key).length = 1) :
    this.TypedInOrder chords now ↔
      (this.swept now).length ≤ 1 ∨ chords.IsChord (this.sweptKeys now).toFinset := by
  constructor
  · intro h
    obtain ⟨hsame, _⟩ := h
    by_contra hnot
    obtain ⟨hlen, hno⟩ := not_or.mp hnot
    have htyped := hsame (.reversed _ _) (.stored _ _)
    rw [typed_of_not_chord hsingle hchords hno, typed_of_not_chord hsingle hchords hno] at htyped
    exact sweep_reversed_ne hsingle (Nat.lt_of_not_le hlen) htyped
  · intro h
    rcases h with hlen | hchord
    · refine ⟨fun ord ord' => ?_, fun hno ord => ⟨this.swept now, .refl _, ?_, ?_⟩⟩
      · rw [typed_single hsingle, typed_single hsingle, sweep_of_length_le_one hlen,
          sweep_of_length_le_one hlen]
      · exact List.pairwise_iff_getElem.mpr fun i j _ hj hij => by omega
      · rw [typed_of_not_chord hsingle hchords hno, sweep_of_length_le_one hlen]
    · refine ⟨fun ord ord' => ?_, fun hno => absurd hchord hno⟩
      obtain ⟨word, hword⟩ := UnorderedMap.contains_iff_find?.mp hchord.2
      rw [typed_single hsingle, typed_single hsingle, hword]
      rfl

/-- `A` and `B` expire together, and `ab` is a chord. -/
theorem typed_order_chord :
    let this := (init.addKey (.stored _ _) 1 keyA).addKey (.stored _ _) 2 keyB
    let config : Config := ⟨none, none, none, some [(.scalar "about".toList, .scalar ['a', 'b'])]⟩
    this.TypedInOrder (fresh.buildMap config) fun _ => 2 * mTimeThreshold := by
  intro this config
  have hchord : (fresh.buildMap config).IsChord
      (this.sweptKeys fun _ => 2 * mTimeThreshold).toFinset := ⟨by decide, by decide +kernel⟩
  exact (typed_order_iff (.buildMap config .fresh) (by decide)).mpr (.inr hchord)

/-- `A` and then `B` are typed as `ba` when the loop comes to `B` first. -/
theorem letters_out_of_order :
    ¬ ∀ (this : Hemiola) (chords : KeyChords) (now : Nat → Int), chords.Reached →
      (∀ key ∈ this.sweptKeys now, (charKeys key).length = 1) →
        this.TypedInOrder chords now := by
  intro h
  let this : Hemiola := (init.addKey (.stored _ _) 1 keyA).addKey (.stored _ _) 2 keyB
  obtain ⟨hsame, _⟩ := h this .fresh (fun _ => 2 * mTimeThreshold) .fresh (by decide)
  exact absurd (hsame (.stored _ _) (.reversed _ _)) (by decide +kernel)

end Hemiola
end Hemiola

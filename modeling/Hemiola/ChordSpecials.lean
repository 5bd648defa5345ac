import Hemiola.ChordLookup
import Hemiola.ParseDefined
import Hemiola.WordOutput

/-!
# Hemiola.ChordSpecials

Chords written with separators, `letters + s₁ + … + sₙ`. Each piece that `parseChord` cuts out ends
behind a separator instead of before it: the letters come with the separator after them, which has
no key and adds the code 0, and each special but the last with the separator after it, which makes
two characters that represent none of the three keys. What follows the last separator is not read.

* `parseSpecials_of_apart`: the loop over the specials adds nothing.
* `parseChord_spells`: the set of such a text, whatever its specials.
* `specials_read_iff`: when that is the set meant.
-/

namespace Hemiola
namespace KeyChords

open Lib KeyTable

/-- Dup, plural and past are distinct keys with representations of one character. -/
structure SpecialsSet (this : KeyChords) : Prop where
  single : ∀ key ∈ [this.mDup, this.mPlural, this.mPast],
    isCharKey key = true ∧ (charKeys key).length = 1
  distinct : [this.mDup, this.mPlural, this.mPast].Nodup

/-- The text is that of `letters`, then a separator and a representation for each special, with
white space anywhere. -/
structure Spells (this : KeyChords) (letters : Str) (specials : List Nat) (text : Str) : Prop where
  letters_ne : letters ≠ []
  plain : ∀ c ∈ letters, isspace c = false ∧ c ≠ separator
  specials_ne : specials ≠ []
  special : ∀ key ∈ specials, key ∈ [this.mDup, this.mPlural, this.mPast]
  text_eq : (text.filter fun c => !isspace c) =
    letters ++ specials.flatMap fun key => separator :: charKeys key

/-! ## The specials -/

/-- A special of one character puts the next separator two places further on. -/
theorem findIdxs_special {key : Nat} (hkey : (charKeys key).length = 1) (rest : Str)
    (start : Nat) :
    (separator :: charKeys key ++ rest).findIdxs (· == separator) start =
      start :: rest.findIdxs (· == separator) (start + 2) := by
  obtain ⟨c, hc⟩ := List.length_eq_one_iff.mp hkey
  have hplain : (c == separator) = false :=
    beq_eq_false_iff_ne.mpr (charKeys_plain key c (hc ▸ List.mem_singleton.mpr rfl)).2
  rw [hc, List.cons_append, List.findIdxs_cons, if_pos (beq_self_eq_true _), List.cons_append,
    List.findIdxs_cons, hplain, List.nil_append]
  rfl

theorem isChain_specials {specials : List Nat}
    (hsingle : ∀ key ∈ specials, (charKeys key).length = 1) (prev : Nat) :
    (prev :: (specials.flatMap fun key => separator :: charKeys key).findIdxs
      (· == separator) (prev + 2)).IsChain (· + 2 ≤ ·) := by
  induction specials generalizing prev with
  | nil => exact List.isChain_singleton prev
  | cons key specials ih =>
    obtain ⟨hkey, hsingle⟩ := List.forall_mem_cons.mp hsingle
    rw [List.flatMap_cons, findIdxs_special hkey]
    exact List.isChain_cons_cons.mpr ⟨Nat.le_refl _, ih hsingle _⟩

/-- Pieces of two characters or more are none of the representations. -/
theorem parseSpecials_of_apart (this : KeyChords) (hset : SpecialsSet this) {chord : Str}
    (hsize : chord.length ≤ npos) {seps : List Nat} {prev : Nat}
    (hchain : (prev :: seps).IsChain (· + 2 ≤ ·)) (hlt : ∀ sep ∈ seps, sep < chord.length)
    (chordSet : Finset Nat) :
    parseSpecials this chord seps (prev + 1) chordSet = chordSet := by
  induction seps generalizing prev with
  | nil => rfl
  | cons sep seps ih =>
    obtain ⟨hnext, hchain⟩ := List.isChain_cons_cons.mp hchain
    obtain ⟨hsep, hlt⟩ := List.forall_mem_cons.mp hlt
    have hstop : (if sep ≠ npos then sep + 1 else chord.length) = sep + 1 := if_pos (by omega)
    have hlength : ((chord.take (sep + 1)).drop (prev + 1)).length = sep - prev := by
      rw [List.length_drop, List.length_take]
      omega
    have hne : ∀ key ∈ [this.mDup, this.mPlural, this.mPast],
        (chord.take (sep + 1)).drop (prev + 1) ≠ charKeys key := by
      intro key hkey heq
      rw [heq, (hset.single key hkey).2] at hlength
      omega
    rw [parseSpecials, hstop, if_neg (hne _ (by simp)), if_neg (hne _ (by simp)),
      if_neg (hne _ (by simp))]
    exact ih hchain hlt

/-! ## The whole text -/

theorem findIdxs_spells {letters : Str} (hplain : ∀ c ∈ letters, isspace c = false ∧ c ≠ separator)
    {key : Nat} (hkey : (charKeys key).length = 1) (rest : Str) :
    (letters ++ (separator :: charKeys key ++ rest)).findIdxs (· == separator) =
      letters.length :: rest.findIdxs (· == separator) (letters.length + 2) := by
  have hletters : letters.findIdxs (· == separator) = [] :=
    List.findIdxs_eq_nil_iff.mpr fun c hc => beq_eq_false_iff_ne.mpr (hplain c hc).2
  rw [List.findIdxs_append, hletters, findIdxs_special hkey, Nat.zero_add, List.nil_append]

theorem getKeyCode_separator : getKeyCode [separator] = keyReserved :=
  getKeyCode_of_not_single (by decide)

/-- The letters and the code of the separator, whatever the specials are. -/
theorem parseChord_spells {this : KeyChords} (hset : SpecialsSet this) {letters : Str}
    {specials : List Nat} {text : StdString} (h : Spells this letters specials text.text) :
    this.parseChord text.text = insert keyReserved (keyCodes letters) := by
  obtain ⟨key, specials, rfl⟩ := List.exists_cons_of_ne_nil h.specials_ne
  have hsingle : ∀ key' ∈ key :: specials, (charKeys key').length = 1 :=
    fun key' hkey' => (hset.single key' (h.special key' hkey')).2
  obtain ⟨hkey, hsingle⟩ := List.forall_mem_cons.mp hsingle
  have hsize : (text.text.filter fun c => !isspace c).length ≤ npos :=
    (List.length_filter_le _ _).trans text.size_le
  have htext := h.text_eq
  unfold parseChord
  generalize (text.text.filter fun c => !isspace c) = chord at hsize htext ⊢
  rw [List.flatMap_cons] at htext
  have hseps : chord.findIdxs (· == separator) =
      letters.length :: (specials.flatMap fun key => separator :: charKeys key).findIdxs
        (· == separator) (letters.length + 2) := htext ▸ findIdxs_spells h.plain hkey _
  have htake : chord.take (letters.length + 1) = letters ++ [separator] := by
    rw [htext, List.take_length_add_append]
    rfl
  have hlt : ∀ sep ∈ chord.findIdxs (· == separator), sep < chord.length :=
    fun sep => mem_findIdxs_separator
  rw [hseps] at hlt
  simp only [hseps, List.tail_cons]
  rw [parseSpecials_of_apart this hset hsize (isChain_specials hsingle _)
    fun sep hsep => hlt sep (List.mem_cons_of_mem _ hsep), htake, foldl_insert,
    keyCodes_plain h.plain, Finset.empty_union, List.map_append, List.toFinset_append,
    List.map_singleton, getKeyCode_separator, Finset.union_comm]
  rfl

/-- **The specials of a chord.** The set of `letters + s₁ + … + sₙ` is the one meant only where
both come to the same: some letter has no key, as the separator has none, and every special is
among the letters. Chords with the same letters have the same set, whatever their specials. -/
theorem specials_read_iff {this : KeyChords} (hset : SpecialsSet this) {letters : Str}
    {specials : List Nat} {text : StdString} (h : Spells this letters specials text.text) :
    (this.parseChord text.text = keyCodes letters ∪ specials.toFinset ↔
      keyReserved ∈ keyCodes letters ∧ ∀ key ∈ specials, key ∈ keyCodes letters) ∧
    ∀ specials' (text' : StdString), Spells this letters specials' text'.text →
      this.parseChord text'.text = this.parseChord text.text := by
  have hne : ∀ key ∈ specials, key ≠ keyReserved := fun key hkey =>
    ne_reserved_of_valid (isNonModifier_iff.mp
      (isNonModifier_of_isCharKey (hset.single key (h.special key hkey)).1)).1
  refine ⟨?_, fun specials' text' h' => ?_⟩
  · rw [parseChord_spells hset h]
    constructor
    · intro heq
      have hzero : keyReserved ∈ keyCodes letters ∪ specials.toFinset :=
        heq ▸ Finset.mem_insert_self _ _
      refine ⟨(Finset.mem_union.mp hzero).resolve_right fun hs =>
        hne _ (List.mem_toFinset.mp hs) rfl, fun key hkey => ?_⟩
      have hread : key ∈ insert keyReserved (keyCodes letters) :=
        heq ▸ Finset.mem_union_right _ (List.mem_toFinset.mpr hkey)
      exact (Finset.mem_insert.mp hread).resolve_left (hne key hkey)
    · intro hmem
      obtain ⟨hzero, hspecials⟩ := hmem
      rw [Finset.insert_eq_of_mem hzero, Finset.union_eq_left.mpr]
      exact fun key hkey => hspecials key (List.mem_toFinset.mp hkey)
  · rw [parseChord_spells hset h, parseChord_spells hset h']

/-- `bg + ,` and `bg + =` are read as the same set, with no special in it. -/
theorem specials_read_began :
    let this : KeyChords := ⟨.empty, keyEqual, keySemicolon, keyComma⟩
    this.parseChord "bg + ,".toList ≠ keyCodes ['b', 'g'] ∪ [keyComma].toFinset ∧
      this.parseChord "bg + =".toList = this.parseChord "bg + ,".toList := by
  intro this
  have hset : SpecialsSet this := ⟨by decide, by decide⟩
  have hplain : ∀ c ∈ ['b', 'g'], isspace c = false ∧ c ≠ separator := by
    simp [isspace, separator]
  let past : StdString := ⟨"bg + ,".toList, by decide⟩
  let dup : StdString := ⟨"bg + =".toList, by decide⟩
  have hpast : Spells this ['b', 'g'] [keyComma] past.text :=
    ⟨by decide, hplain, by decide, by decide, by decide⟩
  have hdup : Spells this ['b', 'g'] [keyEqual] dup.text :=
    ⟨by decide, hplain, by decide, by decide, by decide⟩
  obtain ⟨hiff, hsame⟩ := specials_read_iff hset hpast
  refine ⟨fun hread => ?_, hsame [keyEqual] dup hdup⟩
  obtain ⟨hzero, _⟩ := hiff.mp hread
  exact absurd hzero (by decide +kernel)

/-- In `bg + ,` the separator is read as a key and the comma is not. -/
theorem past_not_read :
    ¬ ∀ (this : KeyChords) (letters : Str) (specials : List Nat) (text : StdString),
      SpecialsSet this → Spells this letters specials text.text →
        this.parseChord text.text = keyCodes letters ∪ specials.toFinset := by
  intro h
  have hread := h ⟨.empty, keyEqual, keySemicolon, keyComma⟩ ['b', 'g'] [keyComma]
    ⟨"bg + ,".toList, by decide⟩ ⟨by decide, by decide⟩
    ⟨by decide, by simp [isspace, separator], by decide, by decide, by decide⟩
  exact absurd hread (by decide +kernel)

end KeyChords
end Hemiola

import Hemiola.Hemiola
import Hemiola.Lib.EdgeDecoder
import Hemiola.USBHID

/-!
# Hemiola.WordOutput

What the host makes of the reports the timer loop writes for a word. The host types a key when its
usage comes up in a report and was in no slot of the report before (`hostTypes`, an instance of
`EdgeDecoder`).

The loop writes one report for each character, with the usage of the character in the first slot,
and no report in which the slot is empty again. Two equal characters that follow each other make
two reports with the same slots, of which the host types the first only (`hostTypes_word`).
-/

namespace Hemiola

open Lib KeyTable

/-- The usage sent for a character. -/
def charUsage (c : Char) : UInt8 := scanToHex (getKeyCode [c])

/-- A character that is the representation of a key. -/
def IsSingle (c : Char) : Prop := ∃ key, isCharKey key = true ∧ charKeys key = [c]

theorem isSingle_iff {c : Char} : IsSingle c ↔ [c] ∈ mCharKeys.entries.map Prod.snd := by
  constructor
  · intro h
    obtain ⟨key, hkey, hc⟩ := h
    exact hc ▸ List.mem_map_of_mem (charKeys_mem hkey)
  · intro h
    obtain ⟨⟨key, rep⟩, hmem, hrep⟩ := List.mem_map.mp h
    have hfind := UnorderedMap.find?_eq_some_iff.mpr hmem
    refine ⟨key, ?_, ?_⟩
    · exact UnorderedMap.contains_iff_find?.mpr ⟨rep, hfind⟩
    · rw [charKeys, hfind]; exact hrep

instance (c : Char) : Decidable (IsSingle c) := decidable_of_iff' _ isSingle_iff

theorem forall_isSingle {word : Str} (h : (word.all fun c => IsSingle c) = true) :
    ∀ c ∈ word, IsSingle c := fun c hc => of_decide_eq_true (List.all_eq_true.mp h c hc)

theorem IsSingle.charKeys_getKeyCode {c : Char} (h : IsSingle c) :
    charKeys (getKeyCode [c]) = [c] := by
  obtain ⟨key, hkey, hc⟩ := h
  rw [← hc, getKeyCode_charKeys hkey]

theorem IsSingle.isCharKey {c : Char} (h : IsSingle c) : isCharKey (getKeyCode [c]) = true := by
  obtain ⟨key, hkey, hc⟩ := h
  rw [← hc, getKeyCode_charKeys hkey]
  exact hkey

/-- `addKey` captures every key that a single character represents. -/
theorem IsSingle.isCapturable {c : Char} (h : IsSingle c) :
    Hemiola.isCapturable (getKeyCode [c]) = true := by
  have htable : (mCharKeys.entries.all fun e =>
      e.2.length != 1 || Hemiola.isCapturable e.1) = true := by decide +kernel
  have hentry := List.all_eq_true.mp htable _ (charKeys_mem h.isCharKey)
  rw [h.charKeys_getKeyCode] at hentry
  simpa using hentry

/-- The names of the modifiers are longer than one character. -/
theorem getKeyCode_of_not_single {c : Char} (h : ¬ IsSingle c) :
    getKeyCode [c] = keyReserved := by
  have hnames : ∀ e ∈ mModKeys.entries, e.2.length ≠ 1 := by decide
  unfold getKeyCode
  cases hfind : mKeyCodeMap.find? [c] with
  | none => rfl
  | some key =>
    rcases find?_mKeyCodeMap.mp hfind with hchar | hmod
    · exact absurd (isSingle_iff.mpr (List.mem_map_of_mem hchar)) h
    · exact absurd rfl (hnames _ hmod)

/-- The usages the host types on a series of writes, all slots being empty before them. -/
def hostTypes (writes : List USBHID.Data) : List UInt8 :=
  EdgeDecoder.decode KeyArray.zero.slots (writes.map USBHID.Data.slots)

/-- The buffers the timer loop writes for a word. -/
def wordWrites (memory : Nat → UInt8) (word : Str) : List USBHID.Data :=
  (Hemiola.outputLoop memory 0 word).map USBHID.data

theorem charReport_slots (memory : UInt8) (c : Char) :
    (Hemiola.charReport memory c).keys.slots = [charUsage c, 0, 0, 0, 0, 0] := by
  rw [Hemiola.charReport, KeyReport.setKey_slots, KeyArray.zero, charUsage]
  generalize scanToHex (getKeyCode [c]) = u
  by_cases hu : u = 0
  · rw [hu]; rfl
  · simp [FirstFit.place, Ne.symm hu]

theorem outputLoop_slots (memory : Nat → UInt8) (i : Nat) (word : Str) :
    (Hemiola.outputLoop memory i word).map (fun report => report.keys.slots) =
      word.map fun c => [charUsage c, 0, 0, 0, 0, 0] := by
  induction word generalizing i with
  | nil => rfl
  | cons c word ih => rw [Hemiola.outputLoop, List.map_cons, List.map_cons, ih, charReport_slots]

theorem IsSingle.usage_ne_zero {c : Char} (h : IsSingle c) : charUsage c ≠ 0 :=
  scanToHex_ne_zero (isNonModifier_of_isCharKey h.isCharKey)

theorem IsSingle.usage_inj {c d : Char} (hc : IsSingle c) (hd : IsSingle d) :
    charUsage c = charUsage d ↔ c = d := by
  refine ⟨fun h => ?_, congrArg charUsage⟩
  have hcode : getKeyCode [c] = getKeyCode [d] :=
    scanToHex_inj (isNonModifier_of_isCharKey hc.isCharKey)
      (isNonModifier_of_isCharKey hd.isCharKey) h
  have hchar : [c] = [d] := by
    rw [← hc.charKeys_getKeyCode, hcode, hd.charKeys_getKeyCode]
  exact List.singleton_inj.mp hchar

/-- The host types a word with every run of one character collapsed into a single one. -/
theorem hostTypes_word (memory : Nat → UInt8) {word : Str} (hword : ∀ c ∈ word, IsSingle c) :
    hostTypes (wordWrites memory word) = (word.destutter (· ≠ ·)).map charUsage := by
  have hne : ∀ u ∈ word.map charUsage, u ≠ 0 := by
    intro u hu
    obtain ⟨c, hc, rfl⟩ := List.mem_map.mp hu
    exact (hword c hc).usage_ne_zero
  have hinj : ∀ c ∈ word, ∀ d ∈ word, c ≠ d ↔ charUsage c ≠ charUsage d := fun c hc d hd =>
    not_congr ((hword c hc).usage_inj (hword d hd)).symm
  have hslots : (wordWrites memory word).map USBHID.Data.slots =
      word.map fun c => [charUsage c, 0, 0, 0, 0, 0] := by
    rw [wordWrites, List.map_map, ← outputLoop_slots memory 0 word]
    rfl
  have hused : (word.map fun c => [charUsage c, 0, 0, 0, 0, 0]).map FirstFit.used =
      (word.map charUsage).map fun u => [u] := by
    rw [List.map_map, List.map_map]
    apply List.map_congr_left
    intro c hc
    simp [FirstFit.used_cons (hword c hc).usage_ne_zero]
  calc hostTypes (wordWrites memory word)
      = EdgeDecoder.decode (FirstFit.used KeyArray.zero.slots)
          ((word.map fun c => [charUsage c, 0, 0, 0, 0, 0]).map FirstFit.used) := by
        rw [hostTypes, hslots, EdgeDecoder.decode_used]
    _ = EdgeDecoder.decode [] ((word.map charUsage).map fun u => [u]) := by rw [hused]; rfl
    _ = (word.map charUsage).destutter (· ≠ ·) := EdgeDecoder.decode_singletons hne
    _ = (word.destutter (· ≠ ·)).map charUsage := (List.map_destutter hinj).symm

/-- **Typing a word.** The host types the characters of a word one by one exactly when no two
equal ones follow each other. -/
theorem hostTypes_word_iff (memory : Nat → UInt8) {word : Str}
    (hword : ∀ c ∈ word, IsSingle c) :
    hostTypes (wordWrites memory word) = word.map charUsage ↔ word.IsChain (· ≠ ·) := by
  rw [hostTypes_word memory hword, ← List.destutter_eq_self_iff]
  constructor
  · intro h
    exact (List.destutter_sublist _ word).eq_of_length (by simpa using congrArg List.length h)
  · intro h
    rw [h]

/-- The word `began` has no two equal letters next to each other. -/
theorem hostTypes_word_began :
    hostTypes (wordWrites (fun _ => 0) "began".toList) = [0x05, 0x08, 0x0a, 0x04, 0x11] := by
  have hall : ("began".toList.all fun c => IsSingle c) = true := by decide +kernel
  have hword := forall_isSingle hall
  exact ((hostTypes_word_iff (fun _ => 0) hword).mpr (by decide)).trans (by decide +kernel)

/-- The second `o` of `book` is lost. -/
theorem double_letter_lost :
    ¬ ∀ (memory : Nat → UInt8) (word : Str), (∀ c ∈ word, IsSingle c) →
      hostTypes (wordWrites memory word) = word.map charUsage := by
  intro h
  have hall : ("book".toList.all fun c => IsSingle c) = true := by decide +kernel
  have hword := forall_isSingle hall
  exact absurd (h (fun _ => 0) "book".toList hword) (by decide +kernel)

end Hemiola

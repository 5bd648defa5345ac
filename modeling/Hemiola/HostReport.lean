import Hemiola.KeyTable
import Hemiola.USBHID
import Hemiola.Lib.ReportDescriptor

/-!
# Hemiola.HostReport

The host's side of the output device: the report descriptor with which `hid/hemiola_usb` sets up
the gadget, and the keys that the host finds in the eight bytes of a write.

* `inputReport_reportDesc`: the fields that the descriptor makes, eight bytes together.
* `usages_data`: of the bytes of a report they assert the usages of its modifier bits, and those
  of its slots that are not above `0x65`.
-/

namespace Hemiola
namespace USBHID

open Lib Lib.ReportDescriptor KeyTable

/-- `functions/hid.usb0/report_length` -/
def reportLength : Nat := 8

/-- `functions/hid.usb0/report_desc` -/
def reportDesc : List UInt8 :=
  [0x05, 0x01, 0x09, 0x06, 0xa1, 0x01, 0x05, 0x07, 0x19, 0xe0, 0x29, 0xe7, 0x15, 0x00, 0x25, 0x01,
   0x75, 0x01, 0x95, 0x08, 0x81, 0x02, 0x95, 0x01, 0x75, 0x08, 0x81, 0x03, 0x95, 0x05, 0x75, 0x01,
   0x05, 0x08, 0x19, 0x01, 0x29, 0x05, 0x91, 0x02, 0x95, 0x01, 0x75, 0x03, 0x91, 0x03, 0x95, 0x06,
   0x75, 0x08, 0x15, 0x00, 0x25, 0x65, 0x05, 0x07, 0x19, 0x00, 0x29, 0x65, 0x81, 0x00, 0xc0]

/-- The usage page of keyboards. -/
abbrev keyboardPage : Nat := 0x07

def modifierField : Field where
  offset := 0
  size := 1
  count := 8
  constant := false
  isVariable := true
  usagePage := keyboardPage
  logicalMinimum := 0
  logicalMaximum := 1
  usages := List.range' 0xe0 8

/-- The byte that `write` leaves at zero. -/
def padding : Field where
  offset := 8
  size := 8
  count := 1
  constant := true
  isVariable := true
  usagePage := keyboardPage
  logicalMinimum := 0
  logicalMaximum := 1
  usages := []

def slotField : Field where
  offset := 16
  size := 8
  count := 6
  constant := false
  isVariable := false
  usagePage := keyboardPage
  logicalMinimum := 0
  logicalMaximum := 0x65
  usages := List.range' 0 0x66

theorem inputReport_reportDesc :
    inputReport reportDesc = some ([modifierField, padding, slotField], 8 * reportLength) := by
  decide +kernel

/-- The usages of the keyboard page that a write asserts. -/
def usagesIn (d : Data) : List Nat :=
  match inputReport reportDesc with
  | some (fields, _) => usages fields keyboardPage d.bytes
  | none => []

/-- The keys that are down for the host: usage 0 is no key and 1 to 3 stand for errors. -/
def hostKeys (d : Data) : List Nat := (usagesIn d).filter fun u => 4 ≤ u

/-! ## The fields of a report -/

theorem modifierField_asserted (report : KeyReport) {i : Nat} (hi : i < 8) :
    modifierField.asserted (data report).bytes i =
      if report.modifiers.toBitVec.getLsbD i then some (0xe0 + i) else none := by
  have hlength : 0 < (data report).bytes.length := by rw [(data report).size]; decide
  have hvalue : modifierField.value (data report).bytes i = report.modifiers.toNat / 2 ^ i % 2 :=
    modifierField.value_byte (j := 0) (k := i) (by simp [modifierField]) hlength
      (by simp only [modifierField]; omega)
  have hbit : report.modifiers.toBitVec.getLsbD i = report.modifiers.toNat.testBit i := rfl
  have husage : modifierField.usageOf i = some (0xe0 + i) := by
    simp [Field.usageOf, modifierField, hi]
  rw [hbit, Nat.testBit_eq_decide_div_mod_eq]
  unfold Field.asserted
  rw [hvalue, husage]
  rcases Nat.mod_two_eq_zero_or_one (report.modifiers.toNat / 2 ^ i) with h | h
  · rw [h]; rfl
  · rw [h]; rfl

theorem slotField_asserted (report : KeyReport) {i : Nat} (hi : i < report.keys.slots.length) :
    slotField.asserted (data report).bytes i =
      if report.keys.slots[i] ≤ 0x65 then some report.keys.slots[i].toNat else none := by
  have hlength : 2 + i < (data report).bytes.length := by
    rw [(data report).size]
    have hsize := report.keys.size
    omega
  have hvalue : slotField.value (data report).bytes i = report.keys.slots[i].toNat := by
    rw [slotField.value_byte (j := 2 + i) (k := 0) (by simp only [slotField]; omega) hlength
      (by simp [slotField])]
    have hbyte : (data report).bytes[2 + i] = report.keys.slots[i] := by
      simp [data, Nat.add_comm 2 i]
    rw [hbyte, pow_zero, Nat.div_one]
    exact Nat.mod_eq_of_lt report.keys.slots[i].toNat_lt
  have hle : report.keys.slots[i] ≤ 0x65 ↔ report.keys.slots[i].toNat ≤ 0x65 :=
    UInt8.le_iff_toNat_le
  unfold Field.asserted
  rw [hvalue]
  simp only [slotField, hle]
  by_cases hv : report.keys.slots[i].toNat ≤ 0x65
  · simp [hv, Nat.lt_succ_of_le hv]
  · simp [hv]

theorem filterMap_range {α β : Type*} (l : List α) (f : Nat → Option β) (g : α → Option β)
    (h : ∀ i (hi : i < l.length), f i = g l[i]) :
    (List.range l.length).filterMap f = l.filterMap g := by
  induction l generalizing f with
  | nil => rfl
  | cons a l ih =>
    have htail := ih (fun i => f (i + 1)) fun i hi => h (i + 1) (Nat.succ_lt_succ hi)
    rw [List.length_cons, List.range_succ_eq_map, List.filterMap_cons, List.filterMap_map,
      List.filterMap_cons, h 0 (Nat.succ_pos _)]
    simp only [Function.comp_def, Nat.succ_eq_add_one, List.getElem_cons_zero, htail]

/-- **What the host reads.** The usages asserted in the bytes of a report are those of its
modifier bits, from `0xe0` on, and then those of its slots, in their order, except for the slots
above the logical maximum; and the report is as long as the descriptor says. -/
theorem usages_data (report : KeyReport) :
    usagesIn (data report) =
      ((List.range 8).filter fun i => report.modifiers.toBitVec.getLsbD i).map (0xe0 + ·) ++
        (report.keys.slots.filter (· ≤ 0x65)).map UInt8.toNat ∧
    (inputReport reportDesc).map Prod.snd = some (8 * (data report).bytes.length) := by
  constructor
  · have hmodifiers : modifierField.usagesIn (data report).bytes =
        ((List.range 8).filter fun i => report.modifiers.toBitVec.getLsbD i).map (0xe0 + ·) := by
      rw [← List.filterMap_eq_map, List.filterMap_filter]
      refine List.filterMap_congr fun i hi => ?_
      rw [modifierField_asserted report (List.mem_range.mp hi)]
      rfl
    have hslots : slotField.usagesIn (data report).bytes =
        (report.keys.slots.filter (· ≤ 0x65)).map UInt8.toNat := by
      rw [← List.filterMap_eq_map, List.filterMap_filter]
      have hcount : slotField.count = report.keys.slots.length := report.keys.size.symm
      rw [Field.usagesIn, hcount]
      refine filterMap_range _ _ _ fun i hi => ?_
      rw [slotField_asserted report hi]
      simp
    have hpadding := @Field.usagesIn_constant padding rfl (data report).bytes
    rw [usagesIn, inputReport_reportDesc]
    show modifierField.usagesIn _ ++ (padding.usagesIn _ ++ (slotField.usagesIn _ ++ [])) = _
    rw [hmodifiers, hpadding, hslots, List.nil_append, List.append_nil]
  · rw [inputReport_reportDesc, (data report).size]
    rfl

theorem mem_hostKeys {report : KeyReport} {u : Nat} :
    u ∈ hostKeys (data report) ↔
      (∃ i < 8, report.modifiers.toBitVec.getLsbD i = true ∧ 0xe0 + i = u) ∨
        ∃ s ∈ report.used, s.toNat = u ∧ 0x04 ≤ s ∧ s ≤ 0x65 := by
  rw [hostKeys, (usages_data report).1, List.mem_filter, List.mem_append, decide_eq_true_eq]
  simp only [List.mem_map, List.mem_filter, List.mem_range, decide_eq_true_eq, and_assoc]
  constructor
  · rintro ⟨⟨i, hi, hbit, rfl⟩ | ⟨s, hs, hle, rfl⟩, h4⟩
    · exact .inl ⟨i, hi, hbit, rfl⟩
    · have h4 : 0x04 ≤ s := UInt8.le_iff_toNat_le.mpr h4
      have h0 : s ≠ 0 := by rintro rfl; exact absurd h4 (by decide)
      exact .inr ⟨s, KeyReport.mem_used.mpr ⟨hs, h0⟩, rfl, h4, hle⟩
  · rintro (⟨i, hi, hbit, rfl⟩ | ⟨s, hs, rfl, h4, hle⟩)
    · exact ⟨.inl ⟨i, hi, hbit, rfl⟩, by omega⟩
    · exact ⟨.inr ⟨s, (KeyReport.mem_used.mp hs).1, hle, rfl⟩, UInt8.le_iff_toNat_le.mp h4⟩

/-- The usage under which the host knows a key of the table. -/
def usageOf (key : Nat) : Nat :=
  if isScanModifier key then 0xe0 + (modToHex key).toNat.log2 else (scanToHex key).toNat

/-- The usage of a key is one that the host takes for a key in a slot. -/
def InRange (key : Nat) : Prop := 0x04 ≤ scanToHex key ∧ scanToHex key ≤ 0x65

instance (key : Nat) : Decidable (InRange key) := inferInstanceAs (Decidable (_ ∧ _))

theorem usageOf_nonModifier {key : Nat} (h : isNonModifier key = true) :
    usageOf key = (scanToHex key).toNat := by
  rw [usageOf, if_neg (by simp [(isNonModifier_iff.mp h).2])]

/-- The bit of a modifier is the one at which the host finds its usage. -/
theorem modToHex_getLsbD {key : Nat} (h : isScanModifier key = true) {i : Nat} (hi : i < 8) :
    (modToHex key).toBitVec.getLsbD i = true ↔ 0xe0 + i = usageOf key :=
  (by decide : ∀ k ∈ modifiers, ∀ i < 8,
    (modToHex k).toBitVec.getLsbD i = true ↔ 0xe0 + i = usageOf k)
    key (isScanModifier_iff.mp h) i hi

theorem usageOf_modifier {key : Nat} (h : isScanModifier key = true) :
    ∃ i < 8, 0xe0 + i = usageOf key :=
  (by decide : ∀ k ∈ modifiers, ∃ i < 8, 0xe0 + i = usageOf k) key (isScanModifier_iff.mp h)

end USBHID
end Hemiola

import Mathlib.Data.UInt
import Hemiola.Lib.FirstFit

/-!
# Hemiola.KeyReport

The key report sent to the host: a byte of modifier bits and six key slots. `KeyArray` carries
the proof that it has six slots. `setKey` and `unsetKey` are the loops of `KeyReport.h`, which
are those of `FirstFit` on the six slots.
-/

namespace Hemiola

open Lib

/-- `std::array<uint8_t, 6>` -/
structure KeyArray where
  slots : List UInt8
  size : slots.length = 6
deriving DecidableEq

def KeyArray.zero : KeyArray := ⟨[0x00, 0x00, 0x00, 0x00, 0x00, 0x00], rfl⟩

structure KeyReport where
  modifiers : UInt8
  keys : KeyArray
deriving DecidableEq

namespace KeyReport

/-- `KeyReport {}` -/
def zero : KeyReport := ⟨0x00, .zero⟩

/-- The report with `scanHex` added, and `true` on overflow. -/
def setKey (report : KeyReport) (scanHex : UInt8) : KeyReport × Bool :=
  ({ report with keys := ⟨(FirstFit.place scanHex report.keys.slots).1,
                          FirstFit.place_length.trans report.keys.size⟩ },
   (FirstFit.place scanHex report.keys.slots).2)

def unsetKey (report : KeyReport) (scanHex : UInt8) : KeyReport :=
  { report with keys := ⟨FirstFit.clear scanHex report.keys.slots,
                         FirstFit.clear_length.trans report.keys.size⟩ }

def setModifier (report : KeyReport) (scanHex : UInt8) : KeyReport :=
  { report with modifiers := report.modifiers ||| scanHex }

def unsetModifier (report : KeyReport) (scanHex : UInt8) : KeyReport :=
  { report with modifiers := report.modifiers &&& ~~~scanHex }

/-- The nonzero entries of the key slots. -/
def used (report : KeyReport) : List UInt8 := FirstFit.used report.keys.slots

section Frame

variable (report : KeyReport) (scanHex : UInt8)

@[simp] theorem setKey_modifiers : (report.setKey scanHex).1.modifiers = report.modifiers := rfl
@[simp] theorem unsetKey_modifiers : (report.unsetKey scanHex).modifiers = report.modifiers := rfl
@[simp] theorem setModifier_keys : (report.setModifier scanHex).keys = report.keys := rfl
@[simp] theorem unsetModifier_keys : (report.unsetModifier scanHex).keys = report.keys := rfl

@[simp] theorem setKey_slots :
    (report.setKey scanHex).1.keys.slots = (FirstFit.place scanHex report.keys.slots).1 := rfl

@[simp] theorem unsetKey_slots :
    (report.unsetKey scanHex).keys.slots = FirstFit.clear scanHex report.keys.slots := rfl

@[simp] theorem setModifier_used : (report.setModifier scanHex).used = report.used := rfl
@[simp] theorem unsetModifier_used : (report.unsetModifier scanHex).used = report.used := rfl

theorem setModifier_zero : report.setModifier 0 = report := by
  simp [setModifier]

end Frame

theorem mem_used {report : KeyReport} {u : UInt8} :
    u ∈ report.used ↔ u ∈ report.keys.slots ∧ u ≠ 0 := FirstFit.mem_used

theorem unsetKey_used (report : KeyReport) {u : UInt8} (hu : u ≠ 0) :
    (report.unsetKey u).used = report.used.erase u := FirstFit.clear_used hu

theorem used_length_le (report : KeyReport) : report.used.length ≤ 6 :=
  report.keys.size ▸ List.length_filter_le _ _

theorem used_length_of_overflow {report : KeyReport} {u : UInt8}
    (h : (report.setKey u).2 = true) : report.used.length = 6 := by
  have hfull := (FirstFit.place_overflow_iff.mp h).2
  rw [used, FirstFit.used_length_of_full hfull, report.keys.size]

theorem setKey_of_overflow {report : KeyReport} {u : UInt8}
    (h : (report.setKey u).2 = true) : (report.setKey u).1 = report := by
  obtain ⟨modifiers, slots, size⟩ := report
  simp only [setKey, mk.injEq, KeyArray.mk.injEq, true_and]
  exact FirstFit.place_of_overflow h

/-- A usage not yet in the report joins the ones in use unless the report is full. -/
theorem setKey_used {report : KeyReport} {u : UInt8} (hu : u ≠ 0) (hmem : u ∉ report.used)
    (h : (report.setKey u).2 = false) :
    ((report.setKey u).1.used).Perm (u :: report.used) := by
  have hslots : u ∉ report.keys.slots := fun hs => hmem (mem_used.mpr ⟨hs, hu⟩)
  have h0 : (0 : UInt8) ∈ report.keys.slots := by
    by_contra h0
    have hov : (report.setKey u).2 = true := FirstFit.place_overflow_iff.mpr ⟨hslots, h0⟩
    rw [h] at hov; cases hov
  exact FirstFit.place_perm hu hslots h0

/-- A report with no modifier bit and no key in use is `KeyReport {}`. -/
theorem eq_zero {report : KeyReport} (hm : report.modifiers = 0) (hk : report.used = []) :
    report = zero := by
  obtain ⟨modifiers, slots, size⟩ := report
  have hslots : slots = List.replicate 6 0 :=
    List.eq_replicate_iff.mpr ⟨size, FirstFit.used_eq_nil_iff.mp hk⟩
  subst hslots
  simp only at hm
  subst hm
  rfl

end KeyReport
end Hemiola

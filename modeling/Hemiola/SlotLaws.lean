import Hemiola.KeyReport

/-!
# Hemiola.SlotLaws

`setKey` and `unsetKey` on any six slots, duplicates and holes included. Both stop at the first
slot that will do and leave the others alone, and `setKey` answers `true` exactly when it has
found none.

* `setKey_eq_or`, `unsetKey_eq`: each fills or empties one slot at most.
* `unsetKey_setKey`: `unsetKey` takes back what `setKey` did.
* `slot_laws`: all of this, for every report.
-/

namespace Hemiola

open Lib

namespace KeyReport

/-- The report with `u` in slot `i`. -/
def withSlot (report : KeyReport) (i : Nat) (u : UInt8) : KeyReport :=
  { report with keys := ⟨report.keys.slots.set i u, List.length_set.trans report.keys.size⟩ }

theorem ext_slots {report report' : KeyReport} (hmods : report.modifiers = report'.modifiers)
    (hslots : report.keys.slots = report'.keys.slots) : report = report' := by
  obtain ⟨modifiers, slots, size⟩ := report
  obtain ⟨modifiers', slots', size'⟩ := report'
  obtain rfl : modifiers = modifiers' := hmods
  obtain rfl : slots = slots' := hslots
  rfl

variable {report : KeyReport} {k : UInt8}

theorem setKey_eq_or (report : KeyReport) (k : UInt8) :
    (report.setKey k).1 = report ∨
      ∃ i, report.keys.slots[i]? = some 0 ∧ (report.setKey k).1 = report.withSlot i k := by
  rcases FirstFit.place_eq_set k report.keys.slots with h | ⟨i, hi, h⟩
  · exact .inl (ext_slots rfl h)
  · exact .inr ⟨i, hi, ext_slots rfl h⟩

theorem overflow_iff_full :
    (report.setKey k).2 = true ↔ ∀ u ∈ report.keys.slots, u ≠ 0 ∧ u ≠ k := by
  rw [setKey, FirstFit.place_overflow_iff]
  constructor
  · intro h u hu
    obtain ⟨hk, h0⟩ := h
    exact ⟨fun hu0 => h0 (hu0 ▸ hu), fun huk => hk (huk ▸ hu)⟩
  · intro h
    exact ⟨fun hk => (h k hk).2 rfl, fun h0 => (h 0 h0).1 rfl⟩

theorem unsetKey_eq (h : k ∈ report.keys.slots) :
    ∃ i, report.keys.slots[i]? = some k ∧ report.unsetKey k = report.withSlot i 0 := by
  obtain ⟨i, hi, hset⟩ := FirstFit.clear_eq_set h
  exact ⟨i, hi, ext_slots rfl hset⟩

theorem unsetKey_of_not_mem (h : k ∉ report.keys.slots) : report.unsetKey k = report :=
  ext_slots rfl (FirstFit.clear_of_not_mem h)

theorem unsetKey_setKey (h : k ∉ report.keys.slots) (hroom : (report.setKey k).2 = false) :
    (report.setKey k).1.unsetKey k = report :=
  ext_slots rfl (FirstFit.clear_place h hroom)

/-- **The slots of a report.** For every content of the slots and every usage, `setKey` puts the
usage in one empty slot at most and answers `true` exactly when it is in no slot afterwards, which
is when no slot was empty or had it; `unsetKey` empties one slot that has the usage, if there is
one, and takes back a `setKey` of a new usage. -/
theorem slot_laws (report : KeyReport) {k : UInt8} (hk : k ≠ 0) :
    let slots := report.keys.slots
    let added := (report.setKey k).1
    let overflow := (report.setKey k).2
    let removed := report.unsetKey k
    (added = report ∨ ∃ i, slots[i]? = some 0 ∧ added = report.withSlot i k) ∧
    (overflow = true ↔ k ∉ added.keys.slots) ∧
    (overflow = true ↔ ∀ u ∈ slots, u ≠ 0 ∧ u ≠ k) ∧
    (overflow = true → added = report) ∧
    (k ∈ slots → removed.keys.slots.count k + 1 = slots.count k ∧
      ∃ i, slots[i]? = some k ∧ removed = report.withSlot i 0) ∧
    (k ∉ slots → removed = report) ∧
    (k ∉ slots → overflow = false → added.unsetKey k = report) := by
  refine ⟨setKey_eq_or report k, FirstFit.place_overflow_iff_not_mem, overflow_iff_full,
    setKey_of_overflow, fun hmem => ⟨?_, unsetKey_eq hmem⟩, unsetKey_of_not_mem,
    unsetKey_setKey⟩
  have hpos : 0 < report.keys.slots.count k := List.count_pos_iff.mpr hmem
  rw [unsetKey_slots, FirstFit.clear_count hk]
  omega

/-- A report with a hole and a duplicate. -/
theorem slot_laws_holes :
    let report : KeyReport := ⟨0, ⟨[4, 0, 5, 5, 0, 6], rfl⟩⟩
    ((report.setKey 7).1.unsetKey 7) = report ∧
      (report.unsetKey 5).keys.slots.count 5 + 1 = report.keys.slots.count 5 := by
  intro report
  obtain ⟨_, _, _, _, _, _, hback⟩ := slot_laws report (by decide : (7 : UInt8) ≠ 0)
  obtain ⟨_, _, _, _, hcount, _, _⟩ := slot_laws report (by decide : (5 : UInt8) ≠ 0)
  exact ⟨hback (by decide) (by decide), (hcount (by decide)).1⟩

end KeyReport
end Hemiola

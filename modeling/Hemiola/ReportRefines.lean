import Mathlib.Data.Finset.Card
import Hemiola.Held
import Hemiola.KeyboardEvents
import Hemiola.Lib.Flags

/-!
# Hemiola.ReportRefines

The key report refines the abstract keyboard (`Hemiola.Held`): on a well-formed stream of events
the report always describes keys that are held.

* `ReportOf`: the refinement relation. The modifier byte is that of the modifiers held, and the
  slots in use hold, once each, usages of keys held.
* `reportOf_step`: a legal event keeps it.
* `Complete`: every key held has a slot. `complete_step` keeps it while at most six keys are held.
* `slot_kept`: a key stays in its slot until its `BREAK`.
* `report_tracks_held`: the whole of it, after every prefix of a stream.
-/

namespace Hemiola

open Lib KeyTable

/-- The report describes keys that are held. -/
structure ReportOf (report : KeyReport) (held : Finset Nat) : Prop where
  modifiers : report.modifiers = Flags.join modToHex (modifiers.filter (· ∈ held))
  nodup : report.used.Nodup
  held : ∀ u ∈ report.used, ∃ k ∈ keysHeld held, scanToHex k = u

/-- Every key held has a slot. -/
def Complete (report : KeyReport) (held : Finset Nat) : Prop :=
  ∀ k ∈ keysHeld held, scanToHex k ∈ report.used

theorem reportOf_zero : ReportOf .zero ∅ where
  modifiers := (Flags.join_filter_none (by simp)).symm
  nodup := by decide
  held := by
    intro u hu
    have h0 : u ∈ ([] : List UInt8) := hu
    cases h0

/-! ## One event -/

/-- The modifiers held besides the modifier `k`, with `k` down. -/
theorem join_insert {held : Finset Nat} {k : Nat} (hk : isScanModifier k = true) :
    Flags.join modToHex (modifiers.filter (· ∈ insert k held)) =
      Flags.join modToHex (modifiers.filter (· ∈ held)) ||| modToHex k := by
  rw [Flags.join_raise (isScanModifier_iff.mp hk)]
  congr 1
  apply List.filter_congr
  intro j _
  simp [Bool.or_comm]

/-- The modifiers held, with the modifier `k` up. -/
theorem join_erase {held : Finset Nat} {k : Nat} (hk : isScanModifier k = true) :
    Flags.join modToHex (modifiers.filter (· ∈ held.erase k)) =
      Flags.join modToHex (modifiers.filter (· ∈ held)) &&& ~~~modToHex k := by
  have hd : ∀ j ∈ modifiers, j ≠ k → modToHex k &&& modToHex j = 0 := fun j hj hne =>
    modToHex_disjoint hk (isScanModifier_iff.mpr hj) (Ne.symm hne)
  rw [Flags.join_lower hd]
  congr 1
  apply List.filter_congr
  intro j _
  simp [Bool.and_comm]

/-- A code that is no modifier makes no difference to the modifiers held. -/
theorem join_congr {held' : Finset Nat} (held : Finset Nat) {k : Nat}
    (hk : isScanModifier k = false)
    (h : ∀ j, j ≠ k → (j ∈ held' ↔ j ∈ held)) :
    Flags.join modToHex (modifiers.filter (· ∈ held')) =
      Flags.join modToHex (modifiers.filter (· ∈ held)) := by
  congr 1
  apply List.filter_congr
  intro j hj
  have hjk : j ≠ k := by
    rintro rfl
    rw [isScanModifier_iff.mpr hj] at hk; cases hk
  simp [h j hjk]

theorem keysHeld_insert {held : Finset Nat} {k : Nat} (hk : isNonModifier k = true) :
    keysHeld (insert k held) = insert k (keysHeld held) := by
  simp [keysHeld, Finset.filter_insert, hk]

theorem keysHeld_insert_of_not {held : Finset Nat} {k : Nat} (hk : isNonModifier k = false) :
    keysHeld (insert k held) = keysHeld held := by
  simp [keysHeld, Finset.filter_insert, hk]

theorem keysHeld_erase (held : Finset Nat) (k : Nat) :
    keysHeld (held.erase k) = (keysHeld held).erase k := by
  simp [keysHeld, Finset.filter_erase]

theorem keysHeld_erase_of_not {held : Finset Nat} {k : Nat} (hk : isNonModifier k = false) :
    keysHeld (held.erase k) = keysHeld held := by
  rw [keysHeld_erase, Finset.erase_eq_of_notMem]
  simp [keysHeld, hk]

theorem isNonModifier_of_modifier {k : Nat} (hk : isScanModifier k = true) :
    isNonModifier k = false := by simp [isNonModifier, hk]

theorem ReportOf.not_mem_used {report : KeyReport} {held : Finset Nat} (h : ReportOf report held)
    {k : Nat} (hk : isNonModifier k = true) (hup : k ∉ held) : scanToHex k ∉ report.used := by
  intro hu
  obtain ⟨j, hj, hjk⟩ := h.held _ hu
  obtain ⟨hheld, hn⟩ := mem_keysHeld.mp hj
  rw [scanToHex_inj hn hk hjk] at hheld
  exact hup hheld

theorem reportOf_make {report : KeyReport} {held : Finset Nat} (h : ReportOf report held)
    {k : Nat} (hup : k ∉ held) :
    ReportOf (KeyboardEvents.reportStep report (.make k)) (insert k held) := by
  simp only [KeyboardEvents.reportStep]
  split_ifs with hm hn
  · refine ⟨?_, h.nodup, ?_⟩
    · rw [join_insert hm, ← h.modifiers]; rfl
    · rw [keysHeld_insert_of_not (isNonModifier_of_modifier hm)]; exact h.held
  · have hm' : isScanModifier k = false := (isNonModifier_iff.mp hn).2
    have hmods : Flags.join modToHex (modifiers.filter (· ∈ insert k held)) =
        Flags.join modToHex (modifiers.filter (· ∈ held)) :=
      join_congr held hm' fun j hj => by simp [hj]
    cases ho : (report.setKey (scanToHex k)).2 with
    | true =>
      rw [KeyReport.setKey_of_overflow ho]
      refine ⟨by rw [hmods]; exact h.modifiers, h.nodup, fun u hu => ?_⟩
      obtain ⟨j, hj, hju⟩ := h.held u hu
      exact ⟨j, by rw [keysHeld_insert hn]; exact Finset.mem_insert_of_mem hj, hju⟩
    | false =>
      have hfresh := h.not_mem_used hn hup
      have hperm := KeyReport.setKey_used (scanToHex_ne_zero hn) hfresh ho
      refine ⟨by rw [hmods]; exact h.modifiers, ?_, fun u hu => ?_⟩
      · exact hperm.nodup_iff.mpr (List.nodup_cons.mpr ⟨hfresh, h.nodup⟩)
      · rw [keysHeld_insert hn]
        rcases List.mem_cons.mp (hperm.mem_iff.mp hu) with hk | hu
        · exact ⟨k, Finset.mem_insert_self k _, hk.symm⟩
        · obtain ⟨j, hj, hju⟩ := h.held u hu
          exact ⟨j, Finset.mem_insert_of_mem hj, hju⟩
  · have hm' : isScanModifier k = false := by simpa using hm
    have hn' : isNonModifier k = false := by simpa using hn
    refine ⟨?_, h.nodup, ?_⟩
    · rw [join_congr held hm' fun j hj => by simp [hj]]; exact h.modifiers
    · rw [keysHeld_insert_of_not hn']; exact h.held

theorem reportOf_break {report : KeyReport} {held : Finset Nat} (h : ReportOf report held)
    (k : Nat) : ReportOf (KeyboardEvents.reportStep report (.break k)) (held.erase k) := by
  simp only [KeyboardEvents.reportStep]
  split_ifs with hm hn
  · refine ⟨?_, h.nodup, ?_⟩
    · rw [join_erase hm, ← h.modifiers]; rfl
    · rw [keysHeld_erase_of_not (isNonModifier_of_modifier hm)]; exact h.held
  · have hused := KeyReport.unsetKey_used report (scanToHex_ne_zero hn)
    refine ⟨?_, ?_, fun u hu => ?_⟩
    · rw [join_congr held (isNonModifier_iff.mp hn).2 fun j hj => by simp [hj]]
      exact h.modifiers
    · rw [hused]; exact h.nodup.erase _
    · rw [hused, h.nodup.mem_erase_iff] at hu
      obtain ⟨j, hj, hju⟩ := h.held u hu.2
      refine ⟨j, ?_, hju⟩
      rw [keysHeld_erase]
      exact Finset.mem_erase.mpr ⟨fun hjk => hu.1 (by rw [← hju, hjk]), hj⟩
  · have hm' : isScanModifier k = false := by simpa using hm
    have hn' : isNonModifier k = false := by simpa using hn
    refine ⟨?_, h.nodup, ?_⟩
    · rw [join_congr held hm' fun j hj => by simp [hj]]; exact h.modifiers
    · rw [keysHeld_erase_of_not hn']; exact h.held

theorem reportOf_step {this : KeyboardEvents} {held : Finset Nat} {event : InputEvent}
    (h : ReportOf this.mKeyReport held) (hl : Legal held event) :
    ReportOf (this.updateKeyState event).mKeyReport (heldStep held event) := by
  rw [KeyboardEvents.updateKeyState_mKeyReport]
  cases ha : event.action with
  | make k =>
    rw [heldStep_make ha]
    exact reportOf_make h (by simpa [Legal, ha] using hl)
  | «break» k => rw [heldStep_break ha]; exact reportOf_break h k
  | other => rw [heldStep_other ha]; exact h

theorem ReportOf.used_length_le {report : KeyReport} {held : Finset Nat}
    (h : ReportOf report held) : report.used.length ≤ (keysHeld held).card := by
  have hsub : report.used.toFinset ⊆ (keysHeld held).image scanToHex := by
    intro u hu
    obtain ⟨k, hk, hku⟩ := h.held u (List.mem_toFinset.mp hu)
    exact Finset.mem_image.mpr ⟨k, hk, hku⟩
  calc report.used.length = report.used.toFinset.card := (List.toFinset_card_of_nodup h.nodup).symm
    _ ≤ ((keysHeld held).image scanToHex).card := Finset.card_le_card hsub
    _ ≤ (keysHeld held).card := Finset.card_image_le

/-- While at most six keys are held, a key that goes down finds a slot. -/
theorem complete_step {this : KeyboardEvents} {held : Finset Nat} {event : InputEvent}
    (h : ReportOf this.mKeyReport held) (hc : Complete this.mKeyReport held)
    (hl : Legal held event) (hcard : (keysHeld (heldStep held event)).card ≤ 6) :
    Complete (this.updateKeyState event).mKeyReport (heldStep held event) := by
  rw [KeyboardEvents.updateKeyState_mKeyReport]
  cases ha : event.action with
  | make k =>
    rw [heldStep_make ha] at hcard ⊢
    have hup : k ∉ held := by simpa [Legal, ha] using hl
    simp only [KeyboardEvents.reportStep]
    split_ifs with hm hn
    · intro j hj
      rw [keysHeld_insert_of_not (isNonModifier_of_modifier hm)] at hj
      exact hc j hj
    · rw [keysHeld_insert hn] at hcard
      have hk : k ∉ keysHeld held := fun hk => hup (mem_keysHeld.mp hk).1
      rw [Finset.card_insert_of_notMem hk] at hcard
      have ho : (this.mKeyReport.setKey (scanToHex k)).2 = false := by
        by_contra ho
        have h6 := KeyReport.used_length_of_overflow (Bool.not_eq_false _ ▸ ho)
        have := h.used_length_le
        omega
      have hperm := KeyReport.setKey_used (scanToHex_ne_zero hn) (h.not_mem_used hn hup) ho
      intro j hj
      rw [keysHeld_insert hn] at hj
      rw [hperm.mem_iff]
      rcases Finset.mem_insert.mp hj with rfl | hj
      · exact List.mem_cons_self
      · exact List.mem_cons_of_mem _ (hc j hj)
    · intro j hj
      rw [keysHeld_insert_of_not (by simpa using hn)] at hj
      exact hc j hj
  | «break» k =>
    rw [heldStep_break ha]
    intro j hj
    rw [keysHeld_erase, Finset.mem_erase] at hj
    have hj' := hc j hj.2
    simp only [KeyboardEvents.reportStep]
    split_ifs with hm hn
    · exact hj'
    · rw [KeyReport.unsetKey_used _ (scanToHex_ne_zero hn), h.nodup.mem_erase_iff]
      exact ⟨fun he => hj.1 (scanToHex_inj (mem_keysHeld.mp hj.2).2 hn he), hj'⟩
    · exact hj'
  | other => rw [heldStep_other ha]; exact hc

/-- A key stays in its slot through every event but its own `BREAK`. -/
theorem slot_kept_step {this : KeyboardEvents} {event : InputEvent} {i k : Nat}
    (hk : isNonModifier k = true) (hne : event ≠ .break k)
    (h : this.mKeyReport.keys.slots[i]? = some (scanToHex k)) :
    (this.updateKeyState event).mKeyReport.keys.slots[i]? = some (scanToHex k) := by
  rw [KeyboardEvents.updateKeyState_mKeyReport]
  cases ha : event.action with
  | make j =>
    simp only [KeyboardEvents.reportStep]
    split_ifs
    · exact h
    · exact FirstFit.place_getElem? (scanToHex_ne_zero hk) h
    · exact h
  | «break» j =>
    have hjk : k ≠ j := by
      rintro rfl
      exact hne (action_eq_break_iff.mp ha)
    simp only [KeyboardEvents.reportStep]
    split_ifs with _ hn
    · exact h
    · exact FirstFit.clear_getElem? (fun he => hjk (scanToHex_inj hk hn he)) h
    · exact h
  | other => exact h

/-! ## Streams -/

theorem slot_kept {this : KeyboardEvents} {events : List InputEvent} {i k : Nat}
    (hk : isNonModifier k = true) (hne : InputEvent.break k ∉ events)
    (h : this.mKeyReport.keys.slots[i]? = some (scanToHex k)) :
    (this.run events).mKeyReport.keys.slots[i]? = some (scanToHex k) := by
  induction events generalizing this with
  | nil => exact h
  | cons event events ih =>
    simp only [List.mem_cons, not_or] at hne
    exact ih hne.2 (slot_kept_step hk (Ne.symm hne.1) h)

/-- The capture thread and the abstract keyboard, fed the same events. -/
abbrev watchStep : KeyboardEvents × Finset Nat → InputEvent → KeyboardEvents × Finset Nat :=
  Trace.both KeyboardEvents.updateKeyState heldStep

theorem watch_run (events : List InputEvent) :
    events.foldl watchStep (.init, ∅) = (KeyboardEvents.init.run events, held events) :=
  Trace.foldl_both _ _ events

theorem WellFormed.watch {events : List InputEvent} (h : WellFormed events) :
    Trace.Along watchStep (fun s e => Legal s.2 e) (.init, ∅) events :=
  Trace.along_both_snd.mpr ((wellFormed_iff_along events).mp h)

theorem reportOf_run {events : List InputEvent} (h : WellFormed events) :
    ReportOf (KeyboardEvents.init.run events).mKeyReport (held events) := by
  have hrun := Trace.Along.run_inv (I := fun s => ReportOf s.1.mKeyReport s.2)
    (fun _ _ hs hl => reportOf_step hs hl) reportOf_zero h.watch
  rwa [watch_run] at hrun

theorem complete_run {events : List InputEvent} (h : WellFormed events)
    (hcard : ∀ pre, pre <+: events → (keysHeld (held pre)).card ≤ 6) :
    Complete (KeyboardEvents.init.run events).mKeyReport (held events) := by
  have hfew : _ ∧ Trace.Along heldStep (fun s e => (keysHeld (heldStep s e)).card ≤ 6) ∅ events :=
    (Trace.prefixes_iff_along (P := fun s => (keysHeld s).card ≤ 6)).mp hcard
  have halong := h.watch.and
    (Trace.along_both_snd (f := KeyboardEvents.updateKeyState) (s := .init)|>.mpr hfew.2)
  have hrun := Trace.Along.run_inv
    (I := fun s : KeyboardEvents × Finset Nat =>
      ReportOf s.1.mKeyReport s.2 ∧ Complete s.1.mKeyReport s.2)
    (fun s e hs hl => ⟨reportOf_step hs.1 hl.1, complete_step hs.1 hs.2 hl.1 hl.2⟩)
    ⟨reportOf_zero, fun k hk => by simp [keysHeld] at hk⟩ halong
  rw [watch_run] at hrun
  exact hrun.2

/-- **The report describes the keys held.** After every prefix of a well-formed stream: the
modifier byte is that of the modifiers held; the slots in use hold distinct usages, of keys held;
they hold those of all keys held if there were never more than six; a key keeps its slot until
its `BREAK`; and when no key of the table is held the report is all zero. -/
theorem report_tracks_held {events pre : List InputEvent} (hwf : WellFormed events)
    (hpre : pre <+: events) :
    let report := (KeyboardEvents.init.run pre).mKeyReport
    report.modifiers = Flags.join modToHex (modifiers.filter (· ∈ held pre)) ∧
    (report.used.Nodup ∧ ∀ u ∈ report.used, ∃ k ∈ keysHeld (held pre), scanToHex k = u) ∧
    ((∀ p, p <+: pre → (keysHeld (held p)).card ≤ 6) →
      ∀ u, u ∈ report.used ↔ ∃ k ∈ keysHeld (held pre), scanToHex k = u) ∧
    (∀ p mid (i k : Nat), pre = p ++ mid → isNonModifier k = true → InputEvent.break k ∉ mid →
      (KeyboardEvents.init.run p).mKeyReport.keys.slots[i]? = some (scanToHex k) →
      report.keys.slots[i]? = some (scanToHex k)) ∧
    ((∀ k ∈ held pre, isKeyValid k = false) → report = .zero) := by
  intro report
  have hpwf := hwf.earlier hpre
  have hrep : ReportOf report (held pre) := reportOf_run hpwf
  refine ⟨hrep.modifiers, ⟨hrep.nodup, hrep.held⟩, fun hcard u => ⟨hrep.held u, ?_⟩, ?_, ?_⟩
  · intro hk
    obtain ⟨k, hk, hku⟩ := hk
    exact hku ▸ complete_run hpwf hcard k hk
  · intro p mid i k hsplit hk hne h
    have hrun : KeyboardEvents.init.run pre = (KeyboardEvents.init.run p).run mid := by
      rw [hsplit, KeyboardEvents.run, List.foldl_append]; rfl
    simp only [report, hrun]
    exact slot_kept hk hne h
  · intro hup
    refine KeyReport.eq_zero ?_ (List.eq_nil_iff_forall_not_mem.mpr fun u hu => ?_)
    · rw [hrep.modifiers]
      refine Flags.join_filter_none fun k hk => ?_
      have hv : isKeyValid k = true := by
        rw [isKeyValid, isScanModifier_iff.mpr hk, Bool.or_true]
      simp only [decide_eq_false_iff_not]
      intro hheld
      rw [hup k hheld] at hv; cases hv
    · obtain ⟨k, hk, _⟩ := hrep.held u hu
      obtain ⟨hheld, hn⟩ := mem_keysHeld.mp hk
      have hv := (isNonModifier_iff.mp hn).1
      rw [hup k hheld] at hv; cases hv

/-- `C` typed with a control key held, overlapping a `D` still down. -/
theorem report_tracks_held_chord :
    WellFormed [.make keyRightCtrl, .make keyC, .make keyD, .break keyC] ∧
    (KeyboardEvents.init.run
      [.make keyRightCtrl, .make keyC, .make keyD, .break keyC]).mKeyReport.modifiers = 0x10 := by
  have hwf : WellFormed [.make keyRightCtrl, .make keyC, .make keyD, .break keyC] :=
    (wellFormed_iff_along _).mpr (by decide)
  exact ⟨hwf, (report_tracks_held hwf (List.prefix_refl _)).1.trans (by decide)⟩

end Hemiola

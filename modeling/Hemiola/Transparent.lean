import Hemiola.Capture
import Hemiola.HostReport
import Hemiola.ReportRefines
import Hemiola.Lib.Edges

/-!
# Hemiola.Transparent

The keyboard as the host sees it. The host decodes each report that the capture thread passes on
and takes notice of the keys that come down or go up between two reports; `edgesOf` is the edge
by which it should see an event of the keyboard.

* `mem_seen_setModifier` and the like: the keys that are down for the host after an update.
* `sees_step`: the host sees an event exactly when `Shown` holds of it, and nothing else.
* `AllSeen.room_iff`: while every key held has a slot, there is room for one more up to six keys.
* `host_follows`: what the host sees of a whole stream.
-/

namespace Hemiola

open Lib Lib.EdgeDecoder KeyTable USBHID

/-- The edge by which the host should see an event. -/
def edgesOf (event : InputEvent) : List (Edge Nat) :=
  match event.action with
  | .make k => if isKeyValid k then [.down (usageOf k)] else []
  | .break k => if isKeyValid k then [.up (usageOf k)] else []
  | .other => []

/-- The keys that are down for the host after a report. -/
def seen (report : KeyReport) : List Nat := hostKeys (data report)

/-- A key that is no modifier is seen to go down if it finds a slot, and to go up if it has one,
and in either case if the host knows its usage. -/
def Shown (report : KeyReport) (event : InputEvent) : Prop :=
  match event.action with
  | .make k => isNonModifier k = true → InRange k ∧ (report.setKey (scanToHex k)).2 = false
  | .break k => isNonModifier k = true → InRange k ∧ scanToHex k ∈ report.used
  | .other => True

/-! ## The keys down -/

theorem seen_zero : seen .zero = [] := by
  refine List.eq_nil_iff_forall_not_mem.mpr fun u hu => ?_
  rcases mem_hostKeys.mp hu with ⟨i, hi, hbit, _⟩ | ⟨s, hs, _⟩
  · exact absurd hbit (by simp [KeyReport.zero])
  · exact absurd hs (by simp [show KeyReport.zero.used = [] from rfl])

theorem usageOf_lt {k : Nat} (h : isNonModifier k = true) : usageOf k < 0xe0 := by
  have hlt : ∀ e ∈ mHexValues.entries, isScanModifier e.1 = false → e.2.toNat < 0xe0 := by
    decide +kernel
  rw [usageOf_nonModifier h]
  exact hlt _ (scanToHex_mem h) (isNonModifier_iff.mp h).2

theorem usageOf_ge {k : Nat} (h : isScanModifier k = true) : 0xe0 ≤ usageOf k := by
  obtain ⟨i, _, hi⟩ := usageOf_modifier h
  omega

theorem usageOf_ne_zero {k : Nat} (h : isKeyValid k = true) : usageOf k ≠ 0 := by
  cases hm : isScanModifier k with
  | true => have := usageOf_ge hm; omega
  | false =>
    have hn := isNonModifier_iff.mpr ⟨h, hm⟩
    rw [usageOf_nonModifier hn]
    exact fun h0 => scanToHex_ne_zero hn (UInt8.toNat_inj.mp h0)

theorem isKeyValid_of_modifier {k : Nat} (h : isScanModifier k = true) : isKeyValid k = true := by
  rw [isKeyValid, h, Bool.or_true]

theorem not_valid {k : Nat} (hm : ¬ isScanModifier k = true) (hn : ¬ isNonModifier k = true) :
    isKeyValid k = false :=
  Bool.eq_false_of_not_eq_true fun hv =>
    hn (isNonModifier_iff.mpr ⟨hv, Bool.eq_false_of_not_eq_true hm⟩)

/-- The host tells the keys of the table apart. -/
theorem usageOf_inj {j k : Nat} (hj : isKeyValid j = true) (hk : isKeyValid k = true)
    (h : usageOf j = usageOf k) : j = k := by
  cases hjm : isScanModifier j with
  | true =>
    cases hkm : isScanModifier k with
    | true =>
      exact (by decide : ∀ j ∈ modifiers, ∀ k ∈ modifiers, usageOf j = usageOf k → j = k)
        j (isScanModifier_iff.mp hjm) k (isScanModifier_iff.mp hkm) h
    | false =>
      have := usageOf_ge hjm
      have := usageOf_lt (isNonModifier_iff.mpr ⟨hk, hkm⟩)
      omega
  | false =>
    have hjn := isNonModifier_iff.mpr ⟨hj, hjm⟩
    cases hkm : isScanModifier k with
    | true =>
      have := usageOf_ge hkm
      have := usageOf_lt hjn
      omega
    | false =>
      have hkn := isNonModifier_iff.mpr ⟨hk, hkm⟩
      rw [usageOf_nonModifier hjn, usageOf_nonModifier hkn] at h
      exact scanToHex_inj hjn hkn (UInt8.toNat_inj.mp h)

/-- A key that is no modifier is down for the host if it has a slot and the host knows it. -/
theorem usageOf_mem_seen {report : KeyReport} {k : Nat} (h : isNonModifier k = true) :
    usageOf k ∈ seen report ↔ InRange k ∧ scanToHex k ∈ report.used := by
  rw [seen, mem_hostKeys]
  have hlt := usageOf_lt h
  constructor
  · rintro (⟨i, _, _, hi⟩ | ⟨s, hs, hsk, hrange⟩)
    · omega
    · rw [usageOf_nonModifier h] at hsk
      have hsk : s = scanToHex k := UInt8.toNat_inj.mp hsk
      rw [← hsk]
      exact ⟨by rw [InRange, ← hsk]; exact hrange, hs⟩
  · rintro ⟨hrange, hs⟩
    exact .inr ⟨_, hs, (usageOf_nonModifier h).symm, hrange⟩

/-- No key is down for the host that is not held. -/
theorem held_of_seen {report : KeyReport} {held : Finset Nat} (h : ReportOf report held) {u : Nat}
    (hu : u ∈ seen report) : ∃ k ∈ held, isKeyValid k = true ∧ usageOf k = u := by
  rcases mem_hostKeys.mp hu with ⟨i, hi, hbit, rfl⟩ | ⟨s, hs, rfl, _⟩
  · rw [h.modifiers, Flags.join_getLsbD, List.any_eq_true] at hbit
    obtain ⟨k, hk, hbit⟩ := hbit
    obtain ⟨hmod, hheld⟩ := List.mem_filter.mp hk
    have hmod := isScanModifier_iff.mpr hmod
    exact ⟨k, of_decide_eq_true hheld, isKeyValid_of_modifier hmod,
      ((modToHex_getLsbD hmod hi).mp hbit).symm⟩
  · obtain ⟨k, hk, rfl⟩ := h.held s hs
    obtain ⟨hheld, hn⟩ := mem_keysHeld.mp hk
    exact ⟨k, hheld, (isNonModifier_iff.mp hn).1, usageOf_nonModifier hn⟩

theorem ReportOf.not_seen {report : KeyReport} {held : Finset Nat} (h : ReportOf report held)
    {k : Nat} (hk : isKeyValid k = true) (hup : k ∉ held) : usageOf k ∉ seen report := by
  intro hu
  obtain ⟨j, hj, hjv, hjk⟩ := held_of_seen h hu
  rw [usageOf_inj hjv hk hjk] at hj
  exact hup hj

/-- A modifier that is held is down for the host. -/
theorem ReportOf.modifier_seen {report : KeyReport} {held : Finset Nat} (h : ReportOf report held)
    {k : Nat} (hk : isScanModifier k = true) (hdown : k ∈ held) : usageOf k ∈ seen report := by
  obtain ⟨i, hi, hik⟩ := usageOf_modifier hk
  refine mem_hostKeys.mpr (.inl ⟨i, hi, ?_, hik⟩)
  rw [h.modifiers, Flags.join_getLsbD, List.any_eq_true]
  refine ⟨k, List.mem_filter.mpr ⟨isScanModifier_iff.mp hk, decide_eq_true hdown⟩, ?_⟩
  exact (modToHex_getLsbD hk hi).mpr hik

/-! ## One event -/

section Step

variable {report : KeyReport} {k u : Nat}

theorem mem_seen_setModifier (hk : isScanModifier k = true) :
    u ∈ seen (report.setModifier (modToHex k)) ↔ u = usageOf k ∨ u ∈ seen report := by
  rw [seen, seen, mem_hostKeys, mem_hostKeys, ← or_assoc]
  refine or_congr ?_ Iff.rfl
  simp only [KeyReport.setModifier, UInt8.toBitVec_or, BitVec.getLsbD_or, Bool.or_eq_true]
  constructor
  · rintro ⟨i, hi, hbit | hbit, rfl⟩
    · exact .inr ⟨i, hi, hbit, rfl⟩
    · exact .inl ((modToHex_getLsbD hk hi).mp hbit)
  · rintro (rfl | ⟨i, hi, hbit, hu⟩)
    · obtain ⟨i, hi, hik⟩ := usageOf_modifier hk
      exact ⟨i, hi, .inr ((modToHex_getLsbD hk hi).mpr hik), hik⟩
    · exact ⟨i, hi, .inl hbit, hu⟩

theorem mem_seen_unsetModifier (hk : isScanModifier k = true) :
    u ∈ seen (report.unsetModifier (modToHex k)) ↔ u ≠ usageOf k ∧ u ∈ seen report := by
  have hbits : ∀ i < 8, (report.unsetModifier (modToHex k)).modifiers.toBitVec.getLsbD i = true ↔
      report.modifiers.toBitVec.getLsbD i = true ∧ 0xe0 + i ≠ usageOf k := by
    intro i hi
    rw [ne_eq, ← modToHex_getLsbD hk hi]
    simp [KeyReport.unsetModifier, hi]
  rw [seen, seen, mem_hostKeys, mem_hostKeys]
  constructor
  · rintro (⟨i, hi, hbit, rfl⟩ | ⟨s, hs, rfl, hrange⟩)
    · obtain ⟨hbit, hne⟩ := (hbits i hi).mp hbit
      exact ⟨hne, .inl ⟨i, hi, hbit, rfl⟩⟩
    · refine ⟨?_, .inr ⟨s, hs, rfl, hrange⟩⟩
      have hle : s.toNat ≤ 0x65 := UInt8.le_iff_toNat_le.mp hrange.2
      have hge := usageOf_ge hk
      omega
  · rintro ⟨hne, ⟨i, hi, hbit, rfl⟩ | hs⟩
    · exact .inl ⟨i, hi, (hbits i hi).mpr ⟨hbit, hne⟩, rfl⟩
    · exact .inr hs

/-- A key that finds a slot. -/
theorem mem_seen_setKey (hk : isNonModifier k = true) (hfresh : scanToHex k ∉ report.used)
    (hroom : (report.setKey (scanToHex k)).2 = false) :
    u ∈ seen (report.setKey (scanToHex k)).1 ↔ InRange k ∧ u = usageOf k ∨ u ∈ seen report := by
  have hperm := KeyReport.setKey_used (scanToHex_ne_zero hk) hfresh hroom
  rw [seen, seen, mem_hostKeys, mem_hostKeys, KeyReport.setKey_modifiers]
  constructor
  · rintro (hbit | ⟨s, hs, rfl, hrange⟩)
    · exact .inr (.inl hbit)
    · rcases List.mem_cons.mp (hperm.mem_iff.mp hs) with rfl | hs
      · exact .inl ⟨hrange, (usageOf_nonModifier hk).symm⟩
      · exact .inr (.inr ⟨s, hs, rfl, hrange⟩)
  · rintro (⟨hrange, rfl⟩ | hbit | ⟨s, hs, hsu, hrange⟩)
    · exact .inr ⟨_, hperm.mem_iff.mpr List.mem_cons_self, (usageOf_nonModifier hk).symm, hrange⟩
    · exact .inl hbit
    · exact .inr ⟨s, hperm.mem_iff.mpr (List.mem_cons_of_mem _ hs), hsu, hrange⟩

theorem mem_seen_unsetKey (hk : isNonModifier k = true) (hnd : report.used.Nodup) :
    u ∈ seen (report.unsetKey (scanToHex k)) ↔ u ≠ usageOf k ∧ u ∈ seen report := by
  have hmem : ∀ s, s ∈ (report.unsetKey (scanToHex k)).used ↔
      s ≠ scanToHex k ∧ s ∈ report.used := by
    intro s
    rw [KeyReport.unsetKey_used report (scanToHex_ne_zero hk), hnd.mem_erase_iff]
  have hlt := usageOf_lt hk
  rw [seen, seen, mem_hostKeys, mem_hostKeys, KeyReport.unsetKey_modifiers]
  constructor
  · rintro (⟨i, hi, hbit, rfl⟩ | ⟨s, hs, rfl, hrange⟩)
    · exact ⟨by omega, .inl ⟨i, hi, hbit, rfl⟩⟩
    · obtain ⟨hne, hs⟩ := (hmem s).mp hs
      refine ⟨?_, .inr ⟨s, hs, rfl, hrange⟩⟩
      rw [usageOf_nonModifier hk]
      exact fun h => hne (UInt8.toNat_inj.mp h)
  · rintro ⟨hne, hbit | ⟨s, hs, rfl, hrange⟩⟩
    · exact .inl hbit
    · refine .inr ⟨s, (hmem s).mpr ⟨?_, hs⟩, rfl, hrange⟩
      rintro rfl
      exact hne (usageOf_nonModifier hk).symm

end Step

/-- What the host sees of an event: the edge, or nothing where there is an edge to be seen. -/
inductive Sees (report report' : KeyReport) (event : InputEvent) : Prop where
  | edge (hshown : Shown report event) (h : edges (seen report) (seen report') = edgesOf event)
  | nothing (hhidden : ¬ Shown report event) (h : edges (seen report) (seen report') = [])
      (hedge : edgesOf event ≠ [])

theorem sees_make {report : KeyReport} {held : Finset Nat} (h : ReportOf report held) {k : Nat}
    (hup : k ∉ held) : Sees report (KeyboardEvents.reportStep report (.make k)) (.make k) := by
  simp only [KeyboardEvents.reportStep]
  split_ifs with hm hn
  · have hvalid := isKeyValid_of_modifier hm
    have hnon := isNonModifier_of_modifier hm
    refine .edge (fun hn => by cases hnon.symm.trans hn) ?_
    rw [edges_down (usageOf_ne_zero hvalid) (h.not_seen hvalid hup)
      fun v _ => mem_seen_setModifier hm]
    simp [edgesOf, hvalid]
  · have hvalid := (isNonModifier_iff.mp hn).1
    have hfresh := h.not_mem_used hn hup
    have hedge : edgesOf (.make k) = [.down (usageOf k)] := by simp [edgesOf, hvalid]
    by_cases hroom : (report.setKey (scanToHex k)).2 = false
    · by_cases hrange : InRange k
      · refine .edge (fun _ => ⟨hrange, hroom⟩) ?_
        rw [hedge]
        refine edges_down (usageOf_ne_zero hvalid) (h.not_seen hvalid hup) fun v _ => ?_
        rw [mem_seen_setKey hn hfresh hroom, and_iff_right hrange]
      · refine .nothing (fun hs => hrange (hs hn).1) (edges_same fun v _ => ?_) (by simp [hedge])
        rw [mem_seen_setKey hn hfresh hroom]
        exact or_iff_right fun hv => hrange hv.1
    · rw [KeyReport.setKey_of_overflow (Bool.eq_true_of_not_eq_false hroom)]
      exact .nothing (fun hs => hroom (hs hn).2) (edges_same fun v _ => Iff.rfl) (by simp [hedge])
  · have hvalid := not_valid hm hn
    refine .edge (fun hn' => absurd hn' hn) ?_
    rw [edges_same fun v _ => Iff.rfl]
    simp [edgesOf, hvalid]

theorem sees_break {report : KeyReport} {held : Finset Nat} (h : ReportOf report held) {k : Nat}
    (hdown : k ∈ held) : Sees report (KeyboardEvents.reportStep report (.break k)) (.break k) := by
  simp only [KeyboardEvents.reportStep]
  split_ifs with hm hn
  · have hvalid := isKeyValid_of_modifier hm
    have hnon := isNonModifier_of_modifier hm
    refine .edge (fun hn => by cases hnon.symm.trans hn) ?_
    rw [edges_up (usageOf_ne_zero hvalid) (h.modifier_seen hm hdown)
      fun v _ => mem_seen_unsetModifier hm]
    simp [edgesOf, hvalid]
  · have hvalid := (isNonModifier_iff.mp hn).1
    have hedge : edgesOf (.break k) = [.up (usageOf k)] := by simp [edgesOf, hvalid]
    by_cases hslot : usageOf k ∈ seen report
    · refine .edge (fun _ => (usageOf_mem_seen hn).mp hslot) ?_
      rw [hedge]
      exact edges_up (usageOf_ne_zero hvalid) hslot fun v _ => mem_seen_unsetKey hn h.nodup
    · refine .nothing (fun hs => hslot ((usageOf_mem_seen hn).mpr (hs hn)))
        (edges_same fun v _ => ?_) (by simp [hedge])
      rw [mem_seen_unsetKey hn h.nodup]
      exact and_iff_right_of_imp fun hv hvk => hslot (hvk ▸ hv)
  · have hvalid := not_valid hm hn
    refine .edge (fun hn' => absurd hn' hn) ?_
    rw [edges_same fun v _ => Iff.rfl]
    simp [edgesOf, hvalid]

theorem sees_step {this : KeyboardEvents} {held : Finset Nat} {event : InputEvent}
    (h : ReportOf this.mKeyReport held) (hl : Legal held event) :
    Sees this.mKeyReport (this.updateKeyState event).mKeyReport event := by
  rw [KeyboardEvents.updateKeyState_mKeyReport]
  cases ha : event.action with
  | make k =>
    rw [action_eq_make_iff.mp ha]
    exact sees_make h (by simpa [Legal, ha] using hl)
  | «break» k =>
    rw [action_eq_break_iff.mp ha]
    exact sees_break h (by simpa [Legal, ha] using hl)
  | other =>
    refine .edge (by simp [Shown, ha]) ?_
    show edges (seen this.mKeyReport) (seen this.mKeyReport) = _
    rw [edges_same fun v _ => Iff.rfl]
    simp [edgesOf, ha]

theorem Sees.sublist {report report' : KeyReport} {event : InputEvent}
    (h : Sees report report' event) :
    (edges (seen report) (seen report')).Sublist (edgesOf event) := by
  cases h with
  | edge _ h => rw [h]
  | nothing _ h => rw [h]; exact List.nil_sublist _

theorem Sees.eq_iff {report report' : KeyReport} {event : InputEvent}
    (h : Sees report report' event) :
    edges (seen report) (seen report') = edgesOf event ↔ Shown report event := by
  cases h with
  | edge hshown h => exact iff_of_true h hshown
  | nothing hhidden h hedge => exact iff_of_false (fun heq => hedge (heq.symm.trans h)) hhidden

/-! ## Streams -/

/-- Every key held has a slot and is known to the host. -/
structure AllSeen (report : KeyReport) (held : Finset Nat) : Prop where
  reportOf : ReportOf report held
  complete : Complete report held
  inRange : ∀ k ∈ keysHeld held, InRange k

theorem AllSeen.used_length {report : KeyReport} {held : Finset Nat} (h : AllSeen report held) :
    report.used.length = (keysHeld held).card := by
  refine le_antisymm h.reportOf.used_length_le ?_
  have hsub : (keysHeld held).image scanToHex ⊆ report.used.toFinset := by
    intro u hu
    obtain ⟨k, hk, rfl⟩ := Finset.mem_image.mp hu
    exact List.mem_toFinset.mpr (h.complete k hk)
  calc (keysHeld held).card = ((keysHeld held).image scanToHex).card :=
        (Finset.card_image_of_injOn fun j hj k hk hjk =>
          scanToHex_inj (mem_keysHeld.mp hj).2 (mem_keysHeld.mp hk).2 hjk).symm
    _ ≤ report.used.toFinset.card := Finset.card_le_card hsub
    _ ≤ report.used.length := List.toFinset_card_le _

/-- There is a slot for one more key exactly when there are at most six with it. -/
theorem AllSeen.room_iff {report : KeyReport} {held : Finset Nat} (h : AllSeen report held)
    {k : Nat} (hk : isNonModifier k = true) (hup : k ∉ held) :
    (report.setKey (scanToHex k)).2 = false ↔ (keysHeld (insert k held)).card ≤ 6 := by
  have hfresh : k ∉ keysHeld held := fun hkh => hup (mem_keysHeld.mp hkh).1
  rw [keysHeld_insert hk, Finset.card_insert_of_notMem hfresh, ← h.used_length]
  constructor
  · intro hroom
    have hperm := KeyReport.setKey_used (scanToHex_ne_zero hk)
      (h.reportOf.not_mem_used hk hup) hroom
    rw [← List.length_cons (a := scanToHex k), ← hperm.length_eq]
    exact KeyReport.used_length_le _
  · intro hle
    by_contra hov
    have hfull := KeyReport.used_length_of_overflow (Bool.eq_true_of_not_eq_false hov)
    omega

/-- The host knows the key that goes down, and at most six keys are held after the event. -/
def Few (held : Finset Nat) (event : InputEvent) : Prop :=
  (∀ k, event = .make k → isNonModifier k = true → InRange k) ∧
    (keysHeld (heldStep held event)).card ≤ 6

theorem AllSeen.shown_iff {report : KeyReport} {held : Finset Nat} {event : InputEvent}
    (h : AllSeen report held) (hl : Legal held event) (hcard : (keysHeld held).card ≤ 6) :
    Shown report event ↔ Few held event := by
  cases ha : event.action with
  | make k =>
    have hup : k ∉ held := by simpa [Legal, ha] using hl
    rw [action_eq_make_iff.mp ha, Few, heldStep_make (action_make k)]
    cases hn : isNonModifier k with
    | true =>
      simp only [Shown, action_make, hn, forall_const, h.room_iff hn hup]
      refine and_congr_left fun _ => ⟨fun hrange j hj _ => ?_, fun hrange => hrange k rfl hn⟩
      cases hj
      exact hrange
    | false =>
      rw [keysHeld_insert_of_not hn]
      refine iff_of_true (by simp [Shown, hn]) ⟨fun j hj hjn => ?_, hcard⟩
      cases hj
      rw [hn] at hjn; cases hjn
  | «break» k =>
    have hdown : k ∈ held := by simpa [Legal, ha] using hl
    rw [action_eq_break_iff.mp ha, Few, heldStep_break (action_break k), keysHeld_erase]
    refine iff_of_true (fun hn => ?_) ⟨fun j hj => ?_, ?_⟩
    · have hk := mem_keysHeld.mpr ⟨hdown, hn⟩
      exact ⟨h.inRange k hk, h.complete k hk⟩
    · have haction := congrArg InputEvent.action hj
      rw [action_break, action_make] at haction
      cases haction
    · exact Finset.card_erase_le.trans hcard
  | other =>
    rw [Few, heldStep_other ha]
    refine iff_of_true (by simp [Shown, ha]) ⟨fun k hk => ?_, hcard⟩
    rw [hk] at ha; cases ha

theorem AllSeen.step {this : KeyboardEvents} {held : Finset Nat} {event : InputEvent}
    (h : AllSeen this.mKeyReport held) (hl : Legal held event) (hfew : Few held event) :
    AllSeen (this.updateKeyState event).mKeyReport (heldStep held event) := by
  refine ⟨reportOf_step h.reportOf hl, complete_step h.reportOf h.complete hl hfew.2, ?_⟩
  intro k hk
  cases ha : event.action with
  | make j =>
    obtain ⟨hheld, hn⟩ := mem_keysHeld.mp hk
    rw [heldStep_make ha] at hheld
    rcases Finset.mem_insert.mp hheld with rfl | hheld
    · exact hfew.1 k (action_eq_make_iff.mp ha) hn
    · exact h.inRange k (mem_keysHeld.mpr ⟨hheld, hn⟩)
  | «break» j =>
    rw [heldStep_break ha, keysHeld_erase] at hk
    exact h.inRange k (Finset.mem_of_mem_erase hk)
  | other =>
    rw [heldStep_other ha] at hk
    exact h.inRange k hk

/-- The host decodes the report in the state of the capture thread. -/
abbrev view (s : KeyboardEvents × Finset Nat) : List Nat := seen s.1.mKeyReport

/-- What `capture` hands to `onEvent`, as the host sees it. -/
theorem shown_calls (this : KeyboardEvents) (held : Finset Nat) (events : List InputEvent) :
    shown watchStep view (this, held) events =
      (this.calls events events.length).map fun call => seen call.1 := by
  induction events generalizing this held with
  | nil => rfl
  | cons event events ih =>
    rw [List.length_cons, KeyboardEvents.calls_cons, List.map_cons, ← ih _ (heldStep held event)]
    rfl

theorem WellFormed.reportOf {events : List InputEvent} (h : WellFormed events) :
    Trace.Along watchStep (fun s e => ReportOf s.1.mKeyReport s.2 ∧ Legal s.2 e) (.init, ∅)
      events :=
  (Trace.along_congr (I := fun s => ReportOf s.1.mKeyReport s.2)
    (fun _ _ _ hs => (and_iff_right hs).symm) (fun _ _ _ hs hl => reportOf_step hs hl)
    reportOf_zero).mp h.watch

theorem along_few_iff {events : List InputEvent} :
    Trace.Along watchStep (fun s e => Few s.2 e) (.init, ∅) events ↔
      (∀ k, .make k ∈ events → isNonModifier k = true → InRange k) ∧
        ∀ pre, pre <+: events → (keysHeld (held pre)).card ≤ 6 := by
  have hpressed : (∀ k, .make k ∈ events → isNonModifier k = true → InRange k) ↔
      Trace.Along heldStep (fun _ e => ∀ k, e = .make k → isNonModifier k = true → InRange k) ∅
        events := by
    rw [Trace.along_const]
    constructor
    · rintro h _ hmem k rfl
      exact h k hmem
    · intro h k hmem
      exact h _ hmem k rfl
  have hcard : (∀ pre, pre <+: events → (keysHeld (held pre)).card ≤ 6) ↔
      Trace.Along heldStep (fun s e => (keysHeld (heldStep s e)).card ≤ 6) ∅ events :=
    (Trace.prefixes_iff_along (P := fun s => (keysHeld s).card ≤ 6)).trans
      (and_iff_right (by decide))
  rw [Trace.along_both_snd, hpressed, hcard]
  constructor
  · intro h
    exact ⟨h.mono fun _ _ h => h.1, h.mono fun _ _ h => h.2⟩
  · rintro ⟨hpressed, hcard⟩
    exact hpressed.and hcard

/-- The host sees every event of a stream exactly when it knows all keys and there are never more
than six. -/
theorem along_edges_iff {events : List InputEvent} (h : WellFormed events) :
    Trace.Along watchStep (fun s e => edges (view s) (view (watchStep s e)) = edgesOf e)
      (.init, ∅) events ↔ Trace.Along watchStep (fun s e => Few s.2 e) (.init, ∅) events := by
  have hcongr :
      Trace.Along watchStep
        (fun s e => Legal s.2 e ∧ edges (view s) (view (watchStep s e)) = edgesOf e)
        (.init, ∅) events ↔
      Trace.Along watchStep (fun s e => Legal s.2 e ∧ Few s.2 e) (.init, ∅) events :=
    Trace.along_congr (I := fun s => AllSeen s.1.mKeyReport s.2 ∧ (keysHeld s.2).card ≤ 6)
    (fun e _ s hs => and_congr_right fun hl =>
      (sees_step hs.1.reportOf hl).eq_iff.trans (hs.1.shown_iff hl hs.2))
    (fun e _ s hs hQ => by
      have hfew := (hs.1.shown_iff hQ.1 hs.2).mp ((sees_step hs.1.reportOf hQ.1).eq_iff.mp hQ.2)
      exact ⟨hs.1.step hQ.1 hfew, hfew.2⟩)
    ⟨⟨reportOf_zero, fun k hk => by simp [keysHeld] at hk, fun k hk => by simp [keysHeld] at hk⟩,
      by decide⟩
  constructor
  · intro hedges
    exact (hcongr.mp (h.watch.and hedges)).mono fun _ _ h => h.2
  · intro hfew
    exact (hcongr.mpr (h.watch.and hfew)).mono fun _ _ h => h.2

/-- **The keyboard as the host sees it.** From the reports of a well-formed stream, each read with
the descriptor of the gadget, the host gets presses and releases of keys of the keyboard in the
order of their events and no others; it gets all of them exactly when the keys pressed besides
modifiers have usages in range and no more than six of them are ever held; and no report of the
stream has a key down that is not held. -/
theorem host_follows {events : List InputEvent} (h : WellFormed events) :
    let rows := (KeyboardEvents.init.calls events events.length).map fun call => seen call.1
    (follow [] rows).Sublist (events.flatMap edgesOf) ∧
    (follow [] rows = events.flatMap edgesOf ↔
      (∀ k, .make k ∈ events → isNonModifier k = true → InRange k) ∧
        ∀ pre, pre <+: events → (keysHeld (held pre)).card ≤ 6) ∧
    ∀ pre, pre <+: events → ∀ u ∈ seen (KeyboardEvents.init.run pre).mKeyReport,
      ∃ k ∈ held pre, isKeyValid k = true ∧ usageOf k = u := by
  intro rows
  have hview : view (.init, ∅) = [] := seen_zero
  have hrows : follow (view (.init, ∅)) (shown watchStep view (.init, ∅) events) =
      follow [] rows := by
    rw [shown_calls, hview]
  have hsees : Trace.Along watchStep
      (fun s e => (edges (view s) (view (watchStep s e))).Sublist (edgesOf e)) (.init, ∅) events :=
    h.reportOf.mono fun _ _ hs => (sees_step hs.1 hs.2).sublist
  rw [← hrows, follow_eq_iff hsees, along_edges_iff h, along_few_iff]
  refine ⟨follow_sublist hsees, Iff.rfl, fun pre hpre u hu => ?_⟩
  exact held_of_seen (reportOf_run (h.earlier hpre)) hu

/-- `F` typed with a shift key held, overlapping a `D` still down. -/
theorem host_follows_shift :
    let events : List InputEvent := [.make keyLeftShift, .make keyD, .make keyF, .break keyD]
    let rows := (KeyboardEvents.init.calls events events.length).map fun call => seen call.1
    follow [] rows = [.down 0xe1, .down 0x07, .down 0x09, .up 0x07] := by
  intro events rows
  have hwf : WellFormed events := (wellFormed_iff_along _).mpr (by decide)
  have hrange : ∀ k, .make k ∈ events → isNonModifier k = true → InRange k := fun k hk hn =>
    (by decide : ∀ e ∈ events, e.value = evMake → isNonModifier e.code = true → InRange e.code)
      _ hk rfl hn
  have hcard : ∀ pre, pre <+: events → (keysHeld (held pre)).card ≤ 6 := fun pre hpre =>
    (by decide : ∀ pre ∈ events.inits, (keysHeld (held pre)).card ≤ 6) pre
      ((List.mem_inits _ _).mpr hpre)
  rw [(host_follows hwf).2.1.mpr ⟨hrange, hcard⟩]
  decide

end Hemiola

import Hemiola.Held
import Hemiola.Lib.Flags
import Hemiola.Lib.Trace
import Hemiola.Main

/-!
# Hemiola.ModifierAgreement

The two accounts of the modifiers held. `KeyboardEvents` raises the bit of a modifier at its
`MAKE` and lowers it at its `BREAK`; `Hemiola` is given the key number both times and enters it in
`m_ModSequence` or takes it out, whichever it can.

* `agreeOn_toggle_iff`: what entering or taking out one modifier does to the agreement.
* `agree_step_iff`: the two accounts go on agreeing exactly when a press finds the bit lowered and
  a release finds it raised.
* `inStep_iff`: this is so all along a run exactly when the presses and releases of each of these
  modifiers alternate.
* `agree_iff`: the two accounts in every state of a run.
-/

namespace Hemiola

open Lib KeyTable

/-- The modifiers that `Hemiola` follows. -/
def trackedModifiers : List Nat :=
  [keyLeftCtrl, keyRightCtrl, keyLeftAlt, keyLeftMeta, keyRightMeta]

theorem isScanModifier_of_tracked {k : Nat} (h : k ∈ trackedModifiers) :
    isScanModifier k = true :=
  (by decide : ∀ k ∈ trackedModifiers, isScanModifier k = true) k h

theorem isTracked_eq_true_iff {k : Nat} (h : isKeyValid k = true) :
    Hemiola.isTracked k = true ↔ k ∈ trackedModifiers := by
  constructor
  · intro ht
    have hmod : isScanModifier k = true := by
      rw [← isModifier_of_valid h]
      exact (Hemiola.isTracked_iff.mp ht).1
    exact (by decide : ∀ k ∈ modifiers, Hemiola.isTracked k = true → k ∈ trackedModifiers) k
      (isScanModifier_iff.mp hmod) ht
  · exact (by decide : ∀ k ∈ trackedModifiers, Hemiola.isTracked k = true) k

/-- The sequence lists the tracked modifiers whose bit is raised. -/
def AgreeOn (sequence : List Nat) (bits : UInt8) : Prop :=
  ∀ k, k ∈ sequence ↔ k ∈ trackedModifiers ∧ Flags.Up bits (modToHex k)

theorem agreeOn_toggle_iff {sequence : List Nat} {bits bits' : UInt8} {k : Nat}
    (h : AgreeOn sequence bits) (hnd : sequence.Nodup) (hk : k ∈ trackedModifiers)
    (hother : ∀ j ∈ trackedModifiers, j ≠ k →
      (Flags.Up bits' (modToHex j) ↔ Flags.Up bits (modToHex j))) :
    AgreeOn (Toggle.toggle k sequence) bits' ↔
      (Flags.Up bits' (modToHex k) ↔ ¬ Flags.Up bits (modToHex k)) := by
  have hself : k ∈ Toggle.toggle k sequence ↔ ¬ Flags.Up bits (modToHex k) := by
    rw [Toggle.mem_toggle hnd, h k]
    simp [hk]
  constructor
  · intro hagree
    rw [← hself, hagree k]
    simp [hk]
  · intro hbit j
    by_cases hj : j = k
    · rw [hj, hself, hbit]
      simp [hk]
    · rw [Toggle.mem_toggle hnd, h j]
      simp only [hj, false_iff, not_not]
      exact and_congr_right fun hmem => (hother j hmem hj).symm

/-- A change of the bits that touches no tracked modifier keeps the agreement. -/
theorem AgreeOn.of_untracked {sequence : List Nat} {bits bits' : UInt8}
    (h : AgreeOn sequence bits)
    (hsame : ∀ j ∈ trackedModifiers,
      (Flags.Up bits' (modToHex j) ↔ Flags.Up bits (modToHex j))) :
    AgreeOn sequence bits' := fun j =>
  (h j).trans (and_congr_right fun hmem => (hsame j hmem).symm)

/-! ## The bits after a press or a release -/

section Bits

variable (report : KeyReport) {j k : Nat}

theorem up_make_other (hj : j ∈ trackedModifiers) (hne : j ≠ k) :
    Flags.Up (KeyboardEvents.reportStep report (.make k)).modifiers (modToHex j) ↔
      Flags.Up report.modifiers (modToHex j) := by
  simp only [KeyboardEvents.reportStep]
  split_ifs with hmod hkey
  · exact Flags.up_raise_of_disjoint
      (modToHex_disjoint hmod (isScanModifier_of_tracked hj) (Ne.symm hne))
  · exact Iff.rfl
  · exact Iff.rfl

theorem up_break_other (hj : j ∈ trackedModifiers) (hne : j ≠ k) :
    Flags.Up (KeyboardEvents.reportStep report (.break k)).modifiers (modToHex j) ↔
      Flags.Up report.modifiers (modToHex j) := by
  simp only [KeyboardEvents.reportStep]
  split_ifs with hmod hkey
  · exact Flags.up_lower_of_disjoint
      (modToHex_disjoint hmod (isScanModifier_of_tracked hj) (Ne.symm hne))
  · exact Iff.rfl
  · exact Iff.rfl

theorem up_make_self (hk : k ∈ trackedModifiers) :
    Flags.Up (KeyboardEvents.reportStep report (.make k)).modifiers (modToHex k) := by
  have hmod := isScanModifier_of_tracked hk
  simp only [KeyboardEvents.reportStep, if_pos hmod]
  exact Flags.up_raise_self (modToHex_ne_zero hmod)

theorem not_up_break_self (hk : k ∈ trackedModifiers) :
    ¬ Flags.Up (KeyboardEvents.reportStep report (.break k)).modifiers (modToHex k) := by
  simp only [KeyboardEvents.reportStep, if_pos (isScanModifier_of_tracked hk)]
  exact Flags.not_up_lower_self _ _

end Bits

/-- A press delivers its key, or nothing when the key is no modifier. -/
theorem repStep_make_cases (report : KeyReport) (k : Nat) :
    KeyboardEvents.repStep report (.make k) = k ∨
      KeyboardEvents.repStep report (.make k) = keyReserved ∧ Hemiola.isTracked k = false := by
  simp only [KeyboardEvents.repStep]
  split_ifs with hmod hroom
  · exact .inl rfl
  · exact .inl rfl
  · refine .inr ⟨rfl, ?_⟩
    rw [Hemiola.isTracked, Bool.eq_false_of_not_eq_true hmod, Bool.false_and]

theorem toggle_repStep_make (report : KeyReport) (k : Nat) (sequence : List Nat) :
    (if Hemiola.isTracked (KeyboardEvents.repStep report (.make k)) then
        Toggle.toggle (KeyboardEvents.repStep report (.make k)) sequence
      else sequence) =
      if Hemiola.isTracked k then Toggle.toggle k sequence else sequence := by
  rcases repStep_make_cases report k with hrep | ⟨hrep, hk⟩
  · rw [hrep]
  · rw [hrep, Hemiola.isTracked_reserved, hk]
    rfl

namespace Main

/-- `m_ModSequence` lists the tracked modifiers that the report says are down. -/
def Agree (this : Main) : Prop :=
  AgreeOn this.hemiola.mModSequence this.eventHandler.mKeyReport.modifiers

/-- A tracked modifier that goes down has its bit lowered, and one that goes up has it raised. -/
def ActionInStep (bits : UInt8) : KeyAction → Prop
  | .make k => k ∈ trackedModifiers → ¬ Flags.Up bits (modToHex k)
  | .break k => k ∈ trackedModifiers → Flags.Up bits (modToHex k)
  | .other => True

def ModifierInStep (this : Main) : Input → Prop
  | .event event _ _ => ActionInStep this.eventHandler.mKeyReport.modifiers event.action
  | .sweep _ _ => True

instance (bits : UInt8) : ∀ action, Decidable (ActionInStep bits action)
  | .make k => inferInstanceAs (Decidable (k ∈ trackedModifiers → ¬ Flags.Up bits (modToHex k)))
  | .break k => inferInstanceAs (Decidable (k ∈ trackedModifiers → Flags.Up bits (modToHex k)))
  | .other => .isTrue trivial

instance (this : Main) : ∀ input, Decidable (this.ModifierInStep input)
  | .event event _ _ => inferInstanceAs (Decidable (ActionInStep _ event.action))
  | .sweep _ _ => .isTrue trivial

/-- The key number of `k` is delivered, and the bits of the other modifiers stay. -/
theorem agree_key_iff {this this' : Main} (h : this.Agree)
    (hnd : this.hemiola.mModSequence.Nodup) {k : Nat} (hk : isKeyValid k = true)
    (hsequence : this'.hemiola.mModSequence =
      if Hemiola.isTracked k then Toggle.toggle k this.hemiola.mModSequence
      else this.hemiola.mModSequence)
    (hother : ∀ j ∈ trackedModifiers, j ≠ k →
      (Flags.Up this'.eventHandler.mKeyReport.modifiers (modToHex j) ↔
        Flags.Up this.eventHandler.mKeyReport.modifiers (modToHex j))) :
    this'.Agree ↔ (k ∈ trackedModifiers →
      (Flags.Up this'.eventHandler.mKeyReport.modifiers (modToHex k) ↔
        ¬ Flags.Up this.eventHandler.mKeyReport.modifiers (modToHex k))) := by
  have htracked := isTracked_eq_true_iff hk
  unfold Agree at h ⊢
  by_cases hmem : k ∈ trackedModifiers
  · rw [hsequence, if_pos (htracked.mpr hmem), agreeOn_toggle_iff h hnd hmem hother]
    exact ⟨fun hbit _ => hbit, fun hbit => hbit hmem⟩
  · rw [hsequence, if_neg fun ht => hmem (htracked.mp ht)]
    have hkeep := h.of_untracked fun j hj => hother j hj fun hjk => hmem (hjk ▸ hj)
    exact iff_of_true hkeep fun hmem' => absurd hmem' hmem

/-- The step lemma: an input keeps the agreement exactly when it is in step with the bits. -/
theorem agree_step_iff {this : Main} (h : this.Agree) (hnd : this.hemiola.mModSequence.Nodup)
    {input : Input} (hknown : Known input) :
    (this.step input).Agree ↔ this.ModifierInStep input := by
  cases input with
  | sweep ord now => exact iff_of_true h trivial
  | event event ord now =>
    have hsequence := deliver_mModSequence this ord now event
    simp only [step, ModifierInStep, ActionInStep, Known, KnownAction] at hknown ⊢
    cases haction : event.action with
    | make k =>
      rw [haction] at hknown hsequence
      rw [toggle_repStep_make] at hsequence
      rw [agree_key_iff h hnd hknown hsequence fun j hj hne => by
        rw [deliver_mKeyReport, haction]; exact up_make_other _ hj hne]
      refine forall_congr' fun hmem => ?_
      rw [deliver_mKeyReport, haction]
      exact iff_true_left (up_make_self _ hmem)
    | «break» k =>
      rw [haction] at hknown hsequence
      rw [agree_key_iff h hnd hknown hsequence fun j hj hne => by
        rw [deliver_mKeyReport, haction]; exact up_break_other _ hj hne]
      refine forall_congr' fun hmem => ?_
      rw [deliver_mKeyReport, haction]
      exact (iff_false_left (not_up_break_self _ hmem)).trans not_not
    | other =>
      have hkeep : (this.deliver ord now event).Agree := by
        unfold Agree
        rw [hsequence, deliver_mKeyReport, haction]
        exact h
      exact iff_of_true hkeep trivial

theorem nodup_step {this : Main} (hnd : this.hemiola.mModSequence.Nodup) (input : Input) :
    (this.step input).hemiola.mModSequence.Nodup := by
  cases input with
  | sweep ord now => exact hnd
  | event event ord now =>
    show (this.deliver ord now event).hemiola.mModSequence.Nodup
    rw [deliver_mModSequence]
    dsimp only
    split_ifs
    · exact Toggle.nodup_toggle hnd _
    · exact hnd

theorem Agree.suspended_iff {this : Main} (h : this.Agree) :
    this.hemiola.mModSequence ≠ [] ↔
      ∃ k ∈ trackedModifiers, Flags.Up this.eventHandler.mKeyReport.modifiers (modToHex k) := by
  constructor
  · intro hne
    obtain ⟨k, hk⟩ := List.exists_mem_of_ne_nil _ hne
    exact ⟨k, (h k).mp hk⟩
  · intro hdown
    obtain ⟨k, hk⟩ := hdown
    exact List.ne_nil_of_mem ((h k).mpr hk)

/-- The presses and releases of each of these modifiers alternate from here on. -/
def Alternates (up : Nat → Bool) (presses : Nat → List Bool) : Prop :=
  ∀ k ∈ trackedModifiers, (up k :: presses k).IsChain (· ≠ ·)

/-- One more press (`true`) or release of `j` before them: it must differ from what there is. -/
theorem alternates_cons {up up' : Nat → Bool} {j : Nat} {d : Bool} (ps : Nat → List Bool)
    (hself : j ∈ trackedModifiers → up' j = d)
    (hother : ∀ k ∈ trackedModifiers, k ≠ j → up' k = up k) :
    Alternates up (fun k => if j = k then d :: ps k else ps k) ↔
      (j ∈ trackedModifiers → up j ≠ d) ∧ Alternates up' ps := by
  constructor
  · intro h
    refine ⟨fun hmem => ?_, fun k hk => ?_⟩
    · have hj := h j hmem
      dsimp only at hj
      rw [if_pos rfl, List.isChain_cons_cons] at hj
      exact hj.1
    · have hchain := h k hk
      dsimp only at hchain
      by_cases hjk : j = k
      · subst hjk
        rw [if_pos rfl, List.isChain_cons_cons] at hchain
        rw [hself hk]
        exact hchain.2
      · rw [if_neg hjk] at hchain
        rw [hother k hk (Ne.symm hjk)]
        exact hchain
  · intro h k hk
    obtain ⟨hd, h⟩ := h
    have hchain := h k hk
    dsimp only
    by_cases hjk : j = k
    · subst hjk
      rw [hself hk] at hchain
      rw [if_pos rfl, List.isChain_cons_cons]
      exact ⟨hd hk, hchain⟩
    · rw [hother k hk (Ne.symm hjk)] at hchain
      rwa [if_neg hjk]

/-- The modifiers that the report says are down. -/
def up (this : Main) (k : Nat) : Bool :=
  decide (Flags.Up this.eventHandler.mKeyReport.modifiers (modToHex k))

/-- The presses find the bit lowered and the releases find it raised exactly when they alternate,
starting from the bit there is. -/
theorem inStep_iff (this : Main) (inputs : List Input) :
    Trace.Along step ModifierInStep this inputs ↔
      Alternates this.up fun k => presses k (events inputs) := by
  induction inputs generalizing this with
  | nil => exact iff_of_true trivial fun k _ => List.IsChain.singleton _
  | cons input inputs ih =>
    rw [Trace.along_cons, ih]
    cases input with
    | sweep ord now => exact and_iff_right trivial
    | event event ord now =>
      show ActionInStep _ event.action ∧ Alternates (this.deliver ord now event).up _ ↔
        Alternates this.up fun k => presses k (event :: events inputs)
      have hup : (this.deliver ord now event).up = fun k => decide (Flags.Up
          (KeyboardEvents.reportStep this.eventHandler.mKeyReport event.action).modifiers
          (modToHex k)) := by
        funext k
        rw [up, deliver_mKeyReport]
      rw [hup]
      simp only [presses]
      cases event.action with
      | make j =>
        refine Iff.trans (and_congr_left' ?_) (alternates_cons (fun k => presses k (events inputs))
          (fun hj => decide_eq_true (up_make_self _ hj))
          (fun k hk hne => decide_eq_decide.mpr (up_make_other _ hk hne))).symm
        simp [ActionInStep]
      | «break» j =>
        refine Iff.trans (and_congr_left' ?_) (alternates_cons (fun k => presses k (events inputs))
          (fun hj => decide_eq_false (not_up_break_self _ hj))
          (fun k hk hne => decide_eq_decide.mpr (up_break_other _ hk hne))).symm
        simp [ActionInStep]
      | other => exact and_iff_right trivial

/-- **The two accounts of the modifiers** agree in every state of a run, and capture is suspended
exactly while the report has a tracked modifier down, if and only if the presses and releases of
each tracked modifier alternate, starting with a press. -/
theorem agree_iff (inputs : List Input) (hknown : ∀ input ∈ inputs, Known input) :
    (∀ pre, pre <+: inputs →
      let this := init.run pre
      this.Agree ∧ (this.hemiola.mModSequence ≠ [] ↔
        ∃ k ∈ trackedModifiers, Flags.Up this.eventHandler.mKeyReport.modifiers (modToHex k))) ↔
      ∀ k ∈ trackedModifiers, (false :: presses k (events inputs)).IsChain (· ≠ ·) := by
  have hinit : init.Agree := by
    intro k
    simp [init, Hemiola.init, KeyboardEvents.init, KeyReport.zero, Flags.Up]
  have hrun : (∀ pre, pre <+: inputs → (init.run pre).Agree) ↔
      Trace.Along step ModifierInStep init inputs := by
    refine Trace.prefixes_iff_along.trans ((and_iff_right hinit).trans ?_)
    exact Trace.along_congr
      (I := fun this => this.Agree ∧ this.hemiola.mModSequence.Nodup)
      (fun input hin _ hI => agree_step_iff hI.1 hI.2 (hknown input hin))
      (fun input _ _ hI hagree => ⟨hagree, nodup_step hI.2 input⟩)
      ⟨hinit, List.nodup_nil⟩
  have hup : init.up = fun _ => false := by
    funext k
    simp [up, init, KeyboardEvents.init, KeyReport.zero, Flags.Up]
  have hevents := inStep_iff init inputs
  rw [hup] at hevents
  rw [← hrun] at hevents
  refine Iff.trans ?_ hevents
  constructor
  · intro h pre hpre
    exact (h pre hpre).1
  · intro h pre hpre
    exact ⟨h pre hpre, (h pre hpre).suspended_iff⟩

/-- Left Ctrl goes down and up around a `C`. -/
theorem agree_iff_copy :
    let ord := UnorderedMap.Order.stored Nat Int
    let inputs := [.event (.make keyLeftCtrl) ord 1, .event (.make keyC) ord 2,
      .event (.break keyC) ord 3, .event (.break keyLeftCtrl) ord 4]
    ∀ pre, pre <+: inputs → (init.run pre).Agree := by
  intro ord inputs pre hpre
  exact ((agree_iff inputs (by decide)).mpr (by decide) pre hpre).1

/-- Left Ctrl was down before the device was opened: its release enters it in `m_ModSequence`. -/
theorem early_modifier_disagrees :
    ¬ ∀ inputs : List Input, (∀ input ∈ inputs, Known input) →
      ∀ pre, pre <+: inputs → (init.run pre).Agree := by
  intro h
  let release : Input := .event (.break keyLeftCtrl) (UnorderedMap.Order.stored Nat Int) 1
  have hagree := h [release] (by decide) _ List.prefix_rfl keyLeftCtrl
  exact absurd hagree (by decide)

end Main
end Hemiola

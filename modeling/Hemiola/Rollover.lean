import Hemiola.Main

/-!
# Hemiola.Rollover

How many keys can be captured while they are all held. `updateKeyState` delivers the number of a
key that goes down only if `setKey` had a slot for it, so the capture of a chord depends on the
room in the report.

* `pressed_press`: one more key is captured as long as fewer than six are down; the ones after
  that are not.
* `pressed_run`: the first six keys of a chord have a slot and are captured.
* `captured_first_six`: so a chord is captured as a whole exactly when it has at most six keys.
-/

namespace Hemiola

open Lib KeyTable

/-- A key with a character that `addKey` captures. -/
def IsChordKey (k : Nat) : Prop :=
  isCharKey k = true ∧ k ≠ keySpace ∧ k ≠ keyEnter ∧ k ≠ keyBackspace

instance (k : Nat) : Decidable (IsChordKey k) := inferInstanceAs (Decidable (_ ∧ _))

theorem IsChordKey.isCapturable {k : Nat} (h : IsChordKey k) : Hemiola.isCapturable k = true := by
  obtain ⟨hchar, hspace, henter, hback⟩ := h
  obtain ⟨h0, htracked⟩ :=
    Hemiola.not_isTracked_of_nonModifier (isNonModifier_of_isCharKey hchar)
  exact Hemiola.isCapturable_iff.mpr ⟨h0, htracked, hspace, henter, hback⟩

namespace Main

/-- A key that goes down, with the loop order and the clock reading of its capture. -/
structure Press where
  key : Nat
  ord : KeyOrder
  now : Int

def Press.input (press : Press) : Input := .event (.make press.key) press.ord press.now

/-- The keys `ks` have a slot and are captured, and no others. -/
structure Pressed (this : Main) (ks : List Nat) : Prop where
  modifiers : this.hemiola.mModSequence = []
  captured : ∀ k, k ∈ this.hemiola.mCaptured.keys ↔ k ∈ ks
  used : this.eventHandler.mKeyReport.used.Perm (ks.map scanToHex)

theorem pressed_init : Pressed init [] where
  modifiers := rfl
  captured _ := Iff.rfl
  used := List.Perm.refl _

section Press

variable {this : Main} {ks : List Nat} {press : Press}

theorem Pressed.not_mem_used (h : Pressed this ks) (hks : ∀ k ∈ ks, IsChordKey k)
    (hk : IsChordKey press.key) (hfresh : press.key ∉ ks) :
    scanToHex press.key ∉ this.eventHandler.mKeyReport.used := by
  intro hmem
  obtain ⟨j, hj, hjk⟩ := List.mem_map.mp (h.used.mem_iff.mp hmem)
  have heq := scanToHex_inj (isNonModifier_of_isCharKey (hks j hj).1)
    (isNonModifier_of_isCharKey hk.1) hjk
  exact hfresh (heq ▸ hj)

/-- The report has no room for a new key exactly when six keys are down. -/
theorem Pressed.overflow_iff (h : Pressed this ks) (hks : ∀ k ∈ ks, IsChordKey k)
    (hk : IsChordKey press.key) (hfresh : press.key ∉ ks) :
    (this.eventHandler.mKeyReport.setKey (scanToHex press.key)).2 = true ↔ 6 ≤ ks.length := by
  have hlength : this.eventHandler.mKeyReport.used.length = ks.length := by
    rw [h.used.length_eq, List.length_map]
  constructor
  · intro hov
    rw [← hlength, KeyReport.used_length_of_overflow hov]
  · intro hfull
    by_contra hov
    have hperm := KeyReport.setKey_used
      (scanToHex_ne_zero (isNonModifier_of_isCharKey hk.1)) (h.not_mem_used hks hk hfresh)
      (Bool.eq_false_of_not_eq_true hov)
    have hsix := KeyReport.used_length_le
      (this.eventHandler.mKeyReport.setKey (scanToHex press.key)).1
    rw [hperm.length_eq, List.length_cons, hlength] at hsix
    omega

/-- The step lemma: a new key takes a slot and is captured, or finds the report full. -/
theorem pressed_press (h : Pressed this ks) (hks : ∀ k ∈ ks, IsChordKey k)
    (hk : IsChordKey press.key) (hfresh : press.key ∉ ks) :
    Pressed (this.step press.input) (if ks.length < 6 then ks ++ [press.key] else ks) := by
  have hnon := isNonModifier_of_isCharKey hk.1
  obtain ⟨hvalid, hmod⟩ := isNonModifier_iff.mp hnon
  have hcap := hk.isCapturable
  have hroom := h.overflow_iff hks hk hfresh
  have hreport : (this.step press.input).eventHandler.mKeyReport =
      (this.eventHandler.mKeyReport.setKey (scanToHex press.key)).1 := by
    show (this.deliver press.ord press.now (.make press.key)).eventHandler.mKeyReport = _
    rw [deliver_mKeyReport, action_make]
    simp [KeyboardEvents.reportStep, hmod, hnon]
  have hhemiola : (this.step press.input).hemiola = this.hemiola.addKey press.ord press.now
      (if 6 ≤ ks.length then keyReserved else press.key) := by
    show (this.deliver press.ord press.now (.make press.key)).hemiola = _
    rw [deliver_hemiola, action_make]
    simp only [KeyboardEvents.repStep, isModifier_of_valid hvalid, hmod, hvalid, ← hroom]
    cases (this.eventHandler.mKeyReport.setKey (scanToHex press.key)).2 <;> rfl
  split_ifs with hlt
  · rw [if_neg (not_le.mpr hlt), Hemiola.addKey_capture press.ord press.now h.modifiers hcap]
      at hhemiola
    have hov : (this.eventHandler.mKeyReport.setKey (scanToHex press.key)).2 = false :=
      Bool.eq_false_of_not_eq_true fun hov => absurd (hroom.mp hov) (not_le.mpr hlt)
    refine ⟨by rw [hhemiola]; exact h.modifiers, fun k => ?_, ?_⟩
    · rw [hhemiola, UnorderedMap.mem_keys_set, h.captured k, List.mem_append,
        List.mem_singleton, or_comm]
    · rw [hreport, List.map_append]
      exact (KeyReport.setKey_used (scanToHex_ne_zero hnon) (h.not_mem_used hks hk hfresh)
        hov).trans ((h.used.cons _).trans (List.perm_append_singleton _ _).symm)
  · rw [if_pos (not_lt.mp hlt)] at hhemiola
    have hsame : (this.step press.input).hemiola = this.hemiola := hhemiola
    refine ⟨by rw [hsame]; exact h.modifiers, fun k => by rw [hsame]; exact h.captured k, ?_⟩
    rw [hreport, KeyReport.setKey_of_overflow (hroom.mpr (not_lt.mp hlt))]
    exact h.used

end Press

theorem take_append_singleton {α : Type*} (n : Nat) (l : List α) (a : α) :
    (l ++ [a]).take n = if (l.take n).length < n then l.take n ++ [a] else l.take n := by
  rw [List.take_append, List.length_take]
  split_ifs with hlt
  · have hroom : [a].take (n - l.length) = [a] :=
      List.take_of_length_le (by rw [List.length_singleton]; omega)
    rw [hroom]
  · have hnone : n - l.length = 0 := by omega
    rw [hnone, List.take_zero, List.append_nil]

/-- The run lemma: of the keys of a chord the first six are captured. -/
theorem pressed_run (presses : List Press) (hnd : (presses.map Press.key).Nodup)
    (hkeys : ∀ press ∈ presses, IsChordKey press.key) :
    Pressed (init.run (presses.map Press.input)) ((presses.map Press.key).take 6) := by
  induction presses using List.reverseRecOn with
  | nil => exact pressed_init
  | append_singleton presses press ih =>
    rw [List.map_append, List.nodup_append] at hnd
    have hpre := ih hnd.1 fun p hp => hkeys p (List.mem_append_left _ hp)
    have hks : ∀ k ∈ (presses.map Press.key).take 6, IsChordKey k := by
      intro k hk
      obtain ⟨p, hp, rfl⟩ := List.mem_map.mp (List.mem_of_mem_take hk)
      exact hkeys p (List.mem_append_left _ hp)
    have hfresh : press.key ∉ (presses.map Press.key).take 6 := fun hmem =>
      hnd.2.2 press.key (List.mem_of_mem_take hmem) press.key (by simp) rfl
    have hstep := pressed_press hpre hks (hkeys press (by simp)) hfresh
    have hrun : init.run ((presses ++ [press]).map Press.input) =
        (init.run (presses.map Press.input)).step press.input := by
      rw [run, List.map_append, List.foldl_append]
      rfl
    rw [hrun, List.map_append, List.map_singleton, take_append_singleton]
    exact hstep

/-- **Rollover.** Pressing the keys of a chord down one after the other captures exactly the first
six of them, which is the chord itself if and only if it has at most six keys. -/
theorem captured_first_six (presses : List Press) (hnd : (presses.map Press.key).Nodup)
    (hkeys : ∀ press ∈ presses, IsChordKey press.key) :
    let captured := (init.run (presses.map Press.input)).hemiola.mCaptured.keys
    (∀ k, k ∈ captured ↔ k ∈ (presses.map Press.key).take 6) ∧
    ((∀ k, k ∈ captured ↔ k ∈ presses.map Press.key) ↔ presses.length ≤ 6) := by
  intro captured
  have hcaptured : ∀ k, k ∈ captured ↔ k ∈ (presses.map Press.key).take 6 :=
    (pressed_run presses hnd hkeys).captured
  refine ⟨hcaptured, ?_⟩
  rw [← List.length_map (f := Press.key)]
  generalize presses.map Press.key = ks at hnd hcaptured ⊢
  constructor
  · intro hall
    by_contra hlong
    have hlong : 6 < ks.length := not_le.mp hlong
    -- the seventh key is not among the first six
    have htaken := (hcaptured ks[6]).mp ((hall ks[6]).mpr (List.getElem_mem hlong))
    have hdropped : ks[6] ∈ ks.drop 6 := List.mem_drop_iff_getElem.mpr ⟨0, by omega, rfl⟩
    exact List.disjoint_take_drop hnd (le_refl 6) htaken hdropped
  · intro hle k
    rw [hcaptured k, List.take_of_length_le hle]

/-- The chord of `sometimes` has six keys. -/
theorem captured_first_six_someti :
    let ord := UnorderedMap.Order.stored Nat Int
    let presses := [keyS, keyO, keyM, keyE, keyT, keyI].map fun key => Press.mk key ord 1
    ∀ k, k ∈ (init.run (presses.map Press.input)).hemiola.mCaptured.keys ↔
      k ∈ presses.map Press.key := by
  intro ord presses
  exact (captured_first_six presses (by decide) (by decide)).2.mpr (by decide)

/-- The chord of `something` has eight, and its last two are not captured. -/
theorem long_chord_not_captured :
    ¬ ∀ presses : List Press, (presses.map Press.key).Nodup →
      (∀ press ∈ presses, IsChordKey press.key) →
      ∀ k, k ∈ (init.run (presses.map Press.input)).hemiola.mCaptured.keys ↔
        k ∈ presses.map Press.key := by
  intro h
  let presses := [keyS, keyO, keyM, keyE, keyT, keyH, keyN, keyG].map fun key =>
    Press.mk key (UnorderedMap.Order.stored Nat Int) 1
  have hnd : (presses.map Press.key).Nodup := by decide
  have hkeys : ∀ press ∈ presses, IsChordKey press.key := by decide
  have hcaptured := ((h presses hnd hkeys) keyG).mpr (by decide)
  exact absurd (((pressed_run presses hnd hkeys).captured keyG).mp hcaptured) (by decide)

end Main
end Hemiola

import Hemiola.Hemiola
import Hemiola.Lib.Toggle

/-!
# Hemiola.ModifierSequence

What a run leaves in `m_ModSequence`, and what a held modifier does to capture. The loop of
`addKey` enters a tracked modifier at one delivery and takes it out at the next, so the sequence
lists those delivered an odd number of times, and `addKey` captures only while there are none.

* `mModSequence_run`: the sequence is that of `Toggle.odd` on the key numbers delivered.
* `run_bracketed`: calls between two deliveries of one modifier change nothing.
* `modifiers_of_run`: both, for every run.
-/

set_option linter.dupNamespace false

namespace Hemiola

open Lib

namespace Hemiola

/-- One call of `addKey`. -/
structure Call where
  ord : KeyOrder
  now : Int
  key : Nat

def Call.op (call : Call) : Op := .addKey call.ord call.now call.key

/-- The key number handed over. -/
def Op.key? : Op → Option Nat
  | .addKey _ _ key => some key
  | .sweep _ _ => none

/-- The key numbers delivered in a run. -/
def delivered (ops : List Op) : List Nat := ops.filterMap Op.key?

@[simp] theorem delivered_append (ops ops' : List Op) :
    delivered (ops ++ ops') = delivered ops ++ delivered ops' := List.filterMap_append

@[simp] theorem delivered_calls (calls : List Call) :
    delivered (calls.map Call.op) = calls.map Call.key := by
  rw [delivered, List.filterMap_map, ← List.filterMap_eq_map]
  rfl

theorem run_append (this : Hemiola) (ops ops' : List Op) :
    this.run (ops ++ ops') = (this.run ops).run ops' := List.foldl_append

theorem addKey_toggleIf (this : Hemiola) (ord : KeyOrder) (now : Int) (key : Nat) :
    (this.addKey ord now key).mModSequence =
      Toggle.toggleIf isTracked this.mModSequence key :=
  addKey_mModSequence this ord now key

theorem mModSequence_foldl (this : Hemiola) (ops : List Op) :
    (this.run ops).mModSequence =
      (delivered ops).foldl (Toggle.toggleIf isTracked) this.mModSequence := by
  induction ops generalizing this with
  | nil => rfl
  | cons op ops ih =>
    rw [run_cons, ih]
    cases op with
    | addKey ord now key =>
      have hstep : (this.step (.addKey ord now key)).mModSequence = _ :=
        addKey_toggleIf this ord now key
      rw [hstep]
      rfl
    | sweep ord now => rfl

/-- The tracked modifiers delivered an odd number of times, by their last delivery. -/
theorem mModSequence_run (ops : List Op) :
    (init.run ops).mModSequence = Toggle.odd isTracked (delivered ops) :=
  (mModSequence_foldl init ops).trans (Toggle.foldl_toggleIf isTracked (delivered ops))

theorem mModSequence_eq_nil_iff (ops : List Op) :
    (init.run ops).mModSequence = [] ↔
      ∀ k, isTracked k = true → Even ((delivered ops).count k) := by
  simp only [mModSequence_run, List.eq_nil_iff_forall_not_mem, Toggle.mem_odd, not_and,
    Nat.not_odd_iff_even]

/-! ## Capture -/

theorem captured_of_suspended {this : Hemiola} (h : this.mModSequence ≠ []) (ord : KeyOrder)
    (now : Int) (key : Nat) : (this.addKey ord now key).mCaptured = this.mCaptured := by
  have hspec := addKey_spec this ord now key
  generalize this.addKey ord now key = this' at hspec ⊢
  cases hspec with
  | release | toggle | suspended => rfl
  | clear hmods => exact absurd hmods h
  | delete hmods => exact absurd hmods h
  | capture hmods => exact absurd hmods h

theorem mem_addKey {this : Hemiola} {m key : Nat} (hm : m ∈ this.mModSequence) (hne : key ≠ m)
    (ord : KeyOrder) (now : Int) : m ∈ (this.addKey ord now key).mModSequence := by
  rw [addKey_mModSequence]
  split_ifs
  · unfold Toggle.toggle
    split_ifs
    · exact (List.mem_erase_of_ne hne.symm).mpr hm
    · exact List.mem_append_left _ hm
  · exact hm

/-- The run between the two deliveries of `m`. -/
theorem captured_of_held {this : Hemiola} {m : Nat} (hm : m ∈ this.mModSequence)
    (calls : List Call) (hcalls : m ∉ calls.map Call.key) :
    (this.run (calls.map Call.op)).mCaptured = this.mCaptured ∧
      m ∈ (this.run (calls.map Call.op)).mModSequence := by
  induction calls generalizing this with
  | nil => exact ⟨rfl, hm⟩
  | cons call calls ih =>
    rw [List.map_cons, List.mem_cons, not_or] at hcalls
    obtain ⟨hne, hcalls⟩ := hcalls
    have hstep : (this.step call.op).mCaptured = this.mCaptured :=
      captured_of_suspended (List.ne_nil_of_mem hm) call.ord call.now call.key
    obtain ⟨hcaptured, hmem⟩ := ih (mem_addKey hm (Ne.symm hne) call.ord call.now) hcalls
    exact ⟨hcaptured.trans hstep, hmem⟩

theorem captured_of_tracked {key : Nat} (this : Hemiola) (ord : KeyOrder) (now : Int)
    (h : isTracked key = true) : (this.addKey ord now key).mCaptured = this.mCaptured := by
  have hspec := addKey_spec this ord now key
  generalize this.addKey ord now key = this' at hspec ⊢
  cases hspec with
  | release | toggle | suspended => rfl
  | clear _ hkey => rcases hkey with rfl | rfl <;> cases h
  | delete _ hkey => rw [hkey] at h; cases h
  | capture _ hkey => rw [(isCapturable_iff.mp hkey).2.1] at h; cases h

/-- Calls between two deliveries of a modifier that do not deliver it, and every other modifier
an even number of times. -/
structure Bracketed (first : Call) (calls : List Call) (last : Call) : Prop where
  tracked : isTracked first.key = true
  same : last.key = first.key
  apart : first.key ∉ calls.map Call.key
  others : ∀ k, isTracked k = true → k ≠ first.key → Even ((calls.map Call.key).count k)

theorem Bracketed.even {first last : Call} {calls : List Call} (h : Bracketed first calls last)
    {k : Nat} (hk : isTracked k = true) :
    Even (((first :: calls ++ [last]).map Call.key).count k) := by
  rw [List.map_append, List.map_cons, List.map_singleton, h.same, List.count_append]
  by_cases hkm : k = first.key
  · rw [hkm, List.count_cons_self, List.count_singleton_self, List.count_eq_zero.mpr h.apart]
    exact even_two
  · have hlast : [first.key].count k = 0 := List.count_eq_zero.mpr (by simpa using hkm)
    rw [List.count_cons_of_ne (Ne.symm hkm), hlast]
    exact h.others k hk hkm

theorem run_bracketed {this : Hemiola} (hmods : this.mModSequence = []) {first last : Call}
    {calls : List Call} (h : Bracketed first calls last) :
    this.run ((first :: calls ++ [last]).map Call.op) = this := by
  have hsequence : (this.run ((first :: calls ++ [last]).map Call.op)).mModSequence = [] := by
    rw [mModSequence_foldl, hmods, delivered_calls, Toggle.foldl_toggleIf,
      List.eq_nil_iff_forall_not_mem]
    intro k hk
    obtain ⟨htracked, hodd⟩ := Toggle.mem_odd.mp hk
    exact Nat.not_odd_iff_even.mpr (h.even htracked) hodd
  have hcaptured :
      (this.run ((first :: calls ++ [last]).map Call.op)).mCaptured = this.mCaptured := by
    have hfirst : first.key ∈ (this.step first.op).mModSequence := by
      show first.key ∈ (this.addKey first.ord first.now first.key).mModSequence
      rw [addKey_mModSequence, if_pos h.tracked, hmods]
      exact List.mem_singleton_self _
    have hlast : isTracked last.key = true := h.same ▸ h.tracked
    rw [List.map_append, run_append]
    calc _ = ((this.step first.op).run (calls.map Call.op)).mCaptured :=
          captured_of_tracked _ last.ord last.now hlast
      _ = (this.step first.op).mCaptured := (captured_of_held hfirst calls h.apart).1
      _ = this.mCaptured := captured_of_tracked this first.ord first.now h.tracked
  exact Hemiola.ext hcaptured (hsequence.trans hmods.symm)

/-- **The modifiers in use.** After every run `m_ModSequence` lists, without repetition and by
their last delivery, the tracked modifiers delivered an odd number of times. A call changes the
captured keys only while each was delivered an even number of times, so calls bracketed by two
deliveries of a modifier change nothing. -/
theorem modifiers_of_run (ops : List Op) :
    let this := init.run ops
    let keys := delivered ops
    this.mModSequence.Nodup ∧
    (∀ k, k ∈ this.mModSequence ↔ isTracked k = true ∧ Odd (keys.count k)) ∧
    this.mModSequence.Pairwise (Toggle.Later keys) ∧
    (∀ call : Call, (this.step call.op).mCaptured ≠ this.mCaptured →
      ∀ k, isTracked k = true → Even (keys.count k)) ∧
    (this.mModSequence = [] → ∀ first calls last, Bracketed first calls last →
      this.run ((first :: calls ++ [last]).map Call.op) = this) := by
  intro this keys
  have hsequence : this.mModSequence = Toggle.odd isTracked keys := mModSequence_run ops
  refine ⟨?_, fun k => ?_, ?_, fun call hchange => ?_, fun hmods first calls last h => ?_⟩
  · rw [hsequence]
    exact Toggle.nodup_odd isTracked keys
  · rw [hsequence]
    exact Toggle.mem_odd
  · rw [hsequence]
    exact Toggle.pairwise_odd isTracked keys
  · refine (mModSequence_eq_nil_iff ops).mp ?_
    by_contra hmods
    exact hchange (captured_of_suspended hmods call.ord call.now call.key)
  · exact run_bracketed hmods h

/-- Left Ctrl held around a `C`, once a `B` has been captured. -/
theorem modifiers_of_run_copy :
    let ord := UnorderedMap.Order.stored Nat Int
    let this := init.run [.addKey ord 1 keyB]
    this.run ([⟨ord, 2, keyLeftCtrl⟩, ⟨ord, 3, keyC⟩, ⟨ord, 4, keyLeftCtrl⟩].map Call.op) =
      this := by
  intro ord this
  obtain ⟨_, _, _, _, hbracket⟩ := modifiers_of_run [.addKey ord 1 keyB]
  exact hbracket rfl ⟨ord, 2, keyLeftCtrl⟩ [⟨ord, 3, keyC⟩] ⟨ord, 4, keyLeftCtrl⟩
    ⟨by decide, rfl, by decide, fun k hk hne => by
      have hkc : k ≠ keyC := by
        intro hkc
        rw [hkc] at hk
        cases hk
      rw [List.map_singleton, List.count_singleton, if_neg (by simpa using Ne.symm hkc)]
      exact Even.zero⟩

end Hemiola
end Hemiola

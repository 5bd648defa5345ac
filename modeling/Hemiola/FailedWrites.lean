import Hemiola.Held
import Hemiola.Lib.Toggle
import Hemiola.ModifierAgreement

/-!
# Hemiola.FailedWrites

The program when writes of the report may fail. `onEvent` writes first and adds the key number
after, so an event whose write throws has moved the report but is not counted by `addKey`; the
next delivery of its key then does to `m_ModSequence` the opposite of what it stands for.

* `turn`: an event with the outcome of its write, or a sweep.
* `mem_sequence_iff`: a modifier is in use after an odd number of its events was delivered.
* `released_iff`: with all keys up no modifier is in use, exactly when for each the number of
  failed writes is even.
-/

namespace Hemiola

open Lib KeyTable

namespace Main

/-- An event, with what its write returns, or a round of the timer loop. -/
inductive Turn where
  | event (event : InputEvent) (result errno : Int) (ord : KeyOrder) (now : Int)
  | sweep (ord : KeyOrder) (now : Nat → Int)

def turn (this : Main) : Turn → Main
  | .event event result errno ord now => this.pass result errno ord now event
  | .sweep ord now => { this with hemiola := (this.hemiola.sweep ord now).2 }

/-- The state after a series of turns. -/
def turns (this : Main) (ts : List Turn) : Main := ts.foldl turn this

/-- The events among the turns. -/
def turnEvents (ts : List Turn) : List InputEvent :=
  ts.filterMap fun
    | .event event _ _ _ _ => some event
    | .sweep _ _ => none

/-- The event is a press or a release of key `k`. -/
def isOf (k : Nat) : KeyAction → Bool
  | .make j => j = k
  | .break j => j = k
  | .other => false

/-- An event of key `k` whose write succeeds. -/
def isDelivered (k : Nat) : Turn → Bool
  | .event event result _ _ _ => isOf k event.action && decide (0 < result)
  | .sweep _ _ => false

/-- An event of key `k` whose write throws. -/
def isLost (k : Nat) : Turn → Bool
  | .event event result _ _ _ => isOf k event.action && decide (result ≤ 0)
  | .sweep _ _ => false

/-! ## Counting the events of a key -/

theorem length_presses_cons (k : Nat) (event : InputEvent) (events : List InputEvent) :
    (presses k (event :: events)).length =
      (presses k events).length + if isOf k event.action then 1 else 0 := by
  simp only [presses, isOf]
  cases event.action with
  | make j => by_cases hj : j = k <;> simp [hj]
  | «break» j => by_cases hj : j = k <;> simp [hj]
  | other => rfl

theorem length_presses (k : Nat) (ts : List Turn) :
    (presses k (turnEvents ts)).length = ts.countP (isDelivered k) + ts.countP (isLost k) := by
  induction ts with
  | nil => rfl
  | cons t ts ih =>
    rw [List.countP_cons, List.countP_cons]
    cases t with
    | sweep ord now =>
      show (presses k (turnEvents ts)).length = _
      rw [ih]
      rfl
    | event event result errno ord now =>
      show (presses k (event :: turnEvents ts)).length = _
      rw [length_presses_cons, ih]
      by_cases hof : isOf k event.action = true
      · rcases lt_or_ge 0 result with hpos | hneg
        · rw [if_pos hof, if_pos (by simp [isDelivered, hof, hpos]),
            if_neg (by simp [isLost, hpos])]
          omega
        · rw [if_pos hof, if_neg (by simp [isDelivered, hneg]),
            if_pos (by simp [isLost, hof, hneg])]
          omega
      · rw [if_neg hof, if_neg (by simp [isDelivered, hof]), if_neg (by simp [isLost, hof])]
        rfl

/-! ## The modifiers in use -/

/-- The key number that a turn hands to `addKey`. -/
def handedAt (this : Main) : Turn → Option Nat
  | .event event result _ _ _ =>
    if 0 < result then
      some (KeyboardEvents.repStep this.eventHandler.mKeyReport event.action)
    else none
  | .sweep _ _ => none

/-- The key numbers handed to `addKey` in a run. -/
def handed (this : Main) : List Turn → List Nat
  | [] => []
  | t :: ts => (this.handedAt t).toList ++ handed (this.turn t) ts

theorem turn_sequence (this : Main) (t : Turn) :
    (this.turn t).hemiola.mModSequence =
      (this.handedAt t).toList.foldl (Toggle.toggleIf Hemiola.isTracked)
        this.hemiola.mModSequence := by
  cases t with
  | sweep ord now => rfl
  | event event result errno ord now =>
    show (this.pass result errno ord now event).hemiola.mModSequence = _
    simp only [handedAt]
    split_ifs with hpos
    · rw [pass_eq_deliver this hpos, deliver_mModSequence]
      rfl
    · rw [pass_of_failed this (not_lt.mp hpos)]
      rfl

theorem turns_sequence (this : Main) (ts : List Turn) :
    (this.turns ts).hemiola.mModSequence =
      (this.handed ts).foldl (Toggle.toggleIf Hemiola.isTracked) this.hemiola.mModSequence := by
  induction ts generalizing this with
  | nil => rfl
  | cons t ts ih =>
    rw [handed, List.foldl_append, ← turn_sequence, ← ih]
    rfl

/-- The number of a tracked modifier is handed over at its own events only. -/
theorem repStep_eq_iff (report : KeyReport) (action : KeyAction) {k : Nat}
    (hk : Hemiola.isTracked k = true) :
    KeyboardEvents.repStep report action = k ↔ isOf k action = true := by
  have h0 : keyReserved ≠ k := by
    intro h0
    rw [← h0, Hemiola.isTracked_reserved] at hk
    cases hk
  cases action with
  | make j =>
    show _ ↔ decide (j = k) = true
    rw [decide_eq_true_eq]
    rcases repStep_make_cases report j with hrep | ⟨hrep, hj⟩
    · rw [hrep]
    · rw [hrep]
      refine iff_of_false h0 fun hjk => ?_
      rw [hjk, hk] at hj
      cases hj
  | «break» j => exact decide_eq_true_iff.symm
  | other => exact iff_of_false h0 Bool.false_ne_true

theorem count_handed (this : Main) (ts : List Turn) {k : Nat} (hk : Hemiola.isTracked k = true) :
    (this.handed ts).count k = ts.countP (isDelivered k) := by
  induction ts generalizing this with
  | nil => rfl
  | cons t ts ih =>
    rw [handed, List.count_append, ih, List.countP_cons, Nat.add_comm]
    congr 1
    cases t with
    | sweep ord now => rfl
    | event event result errno ord now =>
      simp only [handedAt, isDelivered]
      by_cases hpos : 0 < result
      · simp only [if_pos hpos, Option.toList_some, List.count_singleton, beq_iff_eq,
          repStep_eq_iff _ _ hk, decide_eq_true hpos, Bool.and_true]
      · simp [hpos]

theorem mem_sequence_iff (ts : List Turn) (k : Nat) :
    k ∈ (init.turns ts).hemiola.mModSequence ↔
      Hemiola.isTracked k = true ∧ Odd (ts.countP (isDelivered k)) := by
  have hsequence : (init.turns ts).hemiola.mModSequence = _ :=
    (turns_sequence init ts).trans (Toggle.foldl_toggleIf Hemiola.isTracked (init.handed ts))
  rw [hsequence, Toggle.mem_odd]
  exact and_congr_right fun hk => by rw [count_handed init ts hk]

/-- **Failed writes.** In a run whose events are well formed no modifier is in use in any state
with all keys up, exactly when in each such state every modifier has had an even number of its
events lost to a failed write. -/
theorem released_iff (ts : List Turn) (hwf : WellFormed (turnEvents ts)) :
    (∀ pre, pre <+: ts → held (turnEvents pre) = ∅ →
      (init.turns pre).hemiola.mModSequence = []) ↔
      ∀ pre, pre <+: ts → held (turnEvents pre) = ∅ →
        ∀ k, Hemiola.isTracked k = true → Even (pre.countP (isLost k)) := by
  refine forall_congr' fun pre => forall_congr' fun hpre => forall_congr' fun hup => ?_
  have hwf : WellFormed (turnEvents pre) := by
    obtain ⟨post, rfl⟩ := hpre
    refine hwf.earlier ⟨turnEvents post, ?_⟩
    exact List.filterMap_append.symm
  have hparity : ∀ k, Even (pre.countP (isDelivered k)) ↔ Even (pre.countP (isLost k)) := by
    intro k
    have heven : ¬ Odd (presses k (turnEvents pre)).length := by
      rw [← mem_held_iff_odd hwf, hup]
      exact Finset.notMem_empty k
    rw [Nat.not_odd_iff_even, length_presses, Nat.even_add] at heven
    exact heven
  simp only [List.eq_nil_iff_forall_not_mem, mem_sequence_iff, not_and, Nat.not_odd_iff_even,
    hparity]

/-- Both writes for Left Ctrl fail: nothing was entered and nothing is left. -/
theorem released_iff_lost :
    let ord := UnorderedMap.Order.stored Nat Int
    let ts : List Turn :=
      [.event (.make keyLeftCtrl) 0 5 ord 1, .event (.break keyLeftCtrl) 0 5 ord 2]
    held (turnEvents ts) = ∅ ∧ (init.turns ts).hemiola.mModSequence = [] := by
  intro ord ts
  have hwf : WellFormed (turnEvents ts) := (wellFormed_iff_along _).mpr (by decide)
  refine ⟨by decide, (released_iff ts hwf).mpr ?_ ts List.prefix_rfl (by decide)⟩
  intro pre hpre hup k _
  by_cases hk : k = keyLeftCtrl
  · subst hk
    exact (by decide : ∀ pre ∈ ts.inits, held (turnEvents pre) = ∅ →
      Even (pre.countP (isLost keyLeftCtrl))) pre ((List.mem_inits _ _).mpr hpre) hup
  · have hother : ∀ t ∈ pre, ¬ isLost k t = true := by
      intro t ht
      have hts := hpre.subset ht
      rw [List.mem_cons, List.mem_singleton] at hts
      rcases hts with rfl | rfl <;> simp [isLost, isOf, Ne.symm hk]
    rw [List.countP_eq_zero.mpr hother]
    exact Even.zero

/-- The report of the press of Left Ctrl is lost, that of its release is written: the release
enters the modifier that nobody holds any more. -/
theorem lost_press_suspends :
    ¬ ∀ ts : List Turn, WellFormed (turnEvents ts) →
      (∀ event ∈ turnEvents ts, KnownAction event.action) →
      ∀ pre, pre <+: ts → held (turnEvents pre) = ∅ →
        (init.turns pre).hemiola.mModSequence = [] := by
  intro h
  let ord := UnorderedMap.Order.stored Nat Int
  let ts : List Turn :=
    [.event (.make keyLeftCtrl) 0 5 ord 1, .event (.break keyLeftCtrl) 8 0 ord 2]
  have hwf : WellFormed (turnEvents ts) := (wellFormed_iff_along _).mpr (by decide)
  have hnone := h ts hwf (by decide) ts List.prefix_rfl (by decide)
  exact absurd hnone (by decide)

end Main
end Hemiola

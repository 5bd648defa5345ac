import Mathlib.Algebra.Ring.Parity
import Mathlib.Data.Finset.Image
import Hemiola.KeyTable
import Hemiola.Lib.Trace

/-!
# Hemiola.Held

The abstract keyboard: the set of keys held down. `heldStep` follows one event, `held` a stream.

A stream is `WellFormed` when the `MAKE` and `BREAK` events of every key alternate, starting with
`MAKE`; events that are neither may stand anywhere. `wellFormed_iff_along` says the same thing
step by step: a key that goes down is up and a key that goes up is down (`Legal`). In such a stream
a key is down after an odd number of its events (`mem_held_iff_odd`).
-/

namespace Hemiola

open Lib

def heldStep (held : Finset Nat) (event : InputEvent) : Finset Nat :=
  match event.action with
  | .make k => insert k held
  | .break k => held.erase k
  | .other => held

/-- The keys held down after a stream of events, none being held before it. -/
def held (events : List InputEvent) : Finset Nat := events.foldl heldStep ∅

/-- The keys of the table among those held that are not modifiers. -/
def keysHeld (held : Finset Nat) : Finset Nat := held.filter fun k => KeyTable.isNonModifier k

/-- The `MAKE` (`true`) and `BREAK` (`false`) events of key `k`, in order. -/
def presses (k : Nat) : List InputEvent → List Bool
  | [] => []
  | event :: events =>
    match event.action with
    | .make j => if j = k then true :: presses k events else presses k events
    | .break j => if j = k then false :: presses k events else presses k events
    | .other => presses k events

/-- The events of each key alternate, starting with `MAKE`. -/
def WellFormed (events : List InputEvent) : Prop :=
  ∀ k, (false :: presses k events).IsChain (· ≠ ·)

/-- A key that goes down is up, and a key that goes up is down. -/
def Legal (held : Finset Nat) (event : InputEvent) : Prop :=
  match event.action with
  | .make k => k ∉ held
  | .break k => k ∈ held
  | .other => True

instance (held : Finset Nat) (event : InputEvent) : Decidable (Legal held event) := by
  unfold Legal
  cases event.action <;> infer_instance

theorem heldStep_make {event : InputEvent} {k : Nat} (h : event.action = .make k)
    (held : Finset Nat) : heldStep held event = insert k held := by simp [heldStep, h]

theorem heldStep_break {event : InputEvent} {k : Nat} (h : event.action = .break k)
    (held : Finset Nat) : heldStep held event = held.erase k := by simp [heldStep, h]

theorem heldStep_other {event : InputEvent} (h : event.action = .other) (held : Finset Nat) :
    heldStep held event = held := by simp [heldStep, h]

theorem mem_keysHeld {held : Finset Nat} {k : Nat} :
    k ∈ keysHeld held ↔ k ∈ held ∧ KeyTable.isNonModifier k = true := by simp [keysHeld]

/-- Putting an event `d` of key `j` before streams `ps k` that alternate: it must differ from the
state of `j`, and the streams go on from the state it leaves. -/
theorem alternate_press {held : Finset Nat} (held' : Finset Nat) {j : Nat} {d : Bool}
    (ps : Nat → List Bool)
    (hj : decide (j ∈ held') = d) (hother : ∀ k, k ≠ j → (k ∈ held' ↔ k ∈ held)) :
    (∀ k, (decide (k ∈ held) :: if j = k then d :: ps k else ps k).IsChain (· ≠ ·)) ↔
      decide (j ∈ held) ≠ d ∧ ∀ k, (decide (k ∈ held') :: ps k).IsChain (· ≠ ·) := by
  refine ⟨fun hc => ⟨?_, fun k => ?_⟩, fun ⟨hd, hc⟩ k => ?_⟩
  · have hcj := hc j
    rw [if_pos rfl, List.isChain_cons_cons] at hcj
    exact hcj.1
  · have hck := hc k
    by_cases hk : j = k
    · subst hk
      rw [if_pos rfl, List.isChain_cons_cons] at hck
      rw [hj]; exact hck.2
    · rw [if_neg hk] at hck
      rwa [decide_eq_decide.mpr (hother k (Ne.symm hk))]
  · have hck := hc k
    by_cases hk : j = k
    · subst hk
      rw [hj] at hck
      rw [if_pos rfl, List.isChain_cons_cons]
      exact ⟨hd, hck⟩
    · rw [decide_eq_decide.mpr (hother k (Ne.symm hk))] at hck
      rwa [if_neg hk]

/-- One event of alternation: it is legal, and the rest alternates from the keys it leaves held. -/
theorem alternate_cons (held : Finset Nat) (event : InputEvent) (events : List InputEvent) :
    (∀ k, (decide (k ∈ held) :: presses k (event :: events)).IsChain (· ≠ ·)) ↔
      Legal held event ∧
        ∀ k, (decide (k ∈ heldStep held event) :: presses k events).IsChain (· ≠ ·) := by
  cases h : event.action with
  | make j =>
    simp only [Legal, h, heldStep_make h, presses]
    rw [alternate_press (insert j held) (fun k => presses k events) (by simp)
      (fun k hk => by simp [hk])]
    simp
  | «break» j =>
    simp only [Legal, h, heldStep_break h, presses]
    rw [alternate_press (held.erase j) (fun k => presses k events) (by simp)
      (fun k hk => by simp [hk])]
    simp
  | other => simp [Legal, h, heldStep_other h, presses]

theorem alternate_iff_along (held : Finset Nat) (events : List InputEvent) :
    (∀ k, (decide (k ∈ held) :: presses k events).IsChain (· ≠ ·)) ↔
      Trace.Along heldStep Legal held events := by
  induction events generalizing held with
  | nil => simp [presses]
  | cons event events ih => rw [alternate_cons, ih, Trace.along_cons]

theorem wellFormed_iff_along (events : List InputEvent) :
    WellFormed events ↔ Trace.Along heldStep Legal ∅ events := by
  rw [← alternate_iff_along, WellFormed]
  simp

theorem WellFormed.earlier {pre events : List InputEvent} (h : WellFormed events)
    (hpre : pre <+: events) : WellFormed pre := by
  obtain ⟨post, rfl⟩ := hpre
  rw [wellFormed_iff_along, Trace.along_append] at h
  exact (wellFormed_iff_along pre).mpr h.1

theorem held_foldl_parity {held : Finset Nat} {events : List InputEvent}
    (h : Trace.Along heldStep Legal held events) (k : Nat) :
    k ∈ events.foldl heldStep held ↔ (k ∈ held ↔ Even (presses k events).length) := by
  induction events generalizing held with
  | nil => simp [presses]
  | cons event events ih =>
    obtain ⟨hlegal, h⟩ := h
    rw [List.foldl_cons, ih h]
    cases haction : event.action with
    | make j =>
      have hj : j ∉ held := by simpa only [Legal, haction] using hlegal
      simp only [heldStep_make haction, presses, haction]
      by_cases hjk : j = k
      · subst hjk
        simp [hj, Nat.even_add_one]
      · simp [hjk, Ne.symm hjk]
    | «break» j =>
      have hj : j ∈ held := by simpa only [Legal, haction] using hlegal
      simp only [heldStep_break haction, presses, haction]
      by_cases hjk : j = k
      · subst hjk
        simp [hj, Nat.even_add_one]
      · simp [hjk, Ne.symm hjk]
    | other => simp only [heldStep_other haction, presses, haction]

/-- A key is down after an odd number of its presses and releases. -/
theorem mem_held_iff_odd {events : List InputEvent} (h : WellFormed events) (k : Nat) :
    k ∈ held events ↔ Odd (presses k events).length := by
  rw [held, held_foldl_parity ((wellFormed_iff_along events).mp h)]
  simp

end Hemiola

import Hemiola.Held
import Hemiola.Lib.Trace
import Hemiola.Main

/-!
# Hemiola.Releases

What the release of a key does to the captured keys. `updateKeyState` delivers the number of a key
at its `BREAK` as it does at its `MAKE`, and `addKey`, which returns at once for `keyRelease ()`
only, treats the one like the other: it captures the key once more, clears the captured keys, or
deletes one.

* `deleteKey_eq_self_iff`: when a Backspace finds nothing to delete.
* `captured_addKey_iff`: when a key number changes nothing (`Inert`).
* `captured_of_presses_iff`: the captured keys of a run are those of its presses alone exactly
  when every release is of that kind.
-/

set_option linter.dupNamespace false

namespace Hemiola

open Lib KeyTable

namespace Hemiola

theorem deleteKey_eq_self_iff {this : Hemiola} (hreserved : keyReserved ∉ this.mCaptured.keys)
    (ord : KeyOrder) :
    (this.deleteKey ord).mCaptured = this.mCaptured ↔
      ∀ k t, this.mCaptured.find? k = some t → isModifier (.ofNat k) = false → t ≤ 0 := by
  obtain ⟨_, hmax, hfound⟩ := newest_spec (ord.list this.mCaptured) (keyReserved, 0)
  simp only [deleteKey]
  generalize (ord.list this.mCaptured).foldl newest (keyReserved, 0) = found at hmax hfound ⊢
  rcases hfound with hnone | ⟨hmem, hmod, hpos⟩
  · -- the scan has found nothing newer than the epoch
    rw [if_pos (by rw [hnone])]
    refine iff_of_true rfl fun k t ht hk => ?_
    have hle := hmax (k, t) ((ord.mem_list _).mpr (UnorderedMap.find?_eq_some_iff.mp ht)) hk
    rw [hnone] at hle
    exact hle
  · have hfind : this.mCaptured.find? found.1 = some found.2 :=
      UnorderedMap.find?_eq_some_iff.mpr ((ord.mem_list _).mp hmem)
    have hkey : found.1 ∈ this.mCaptured.keys := UnorderedMap.mem_keys_iff.mpr ⟨_, hfind⟩
    have hne : found.1 ≠ keyReserved := fun h0 => hreserved (h0 ▸ hkey)
    rw [if_neg hne]
    refine iff_of_false (fun heq => ?_) fun hold => ?_
    · rw [← heq] at hkey
      split_ifs at hkey with hall
      · cases hkey
      · exact (UnorderedMap.mem_keys_erase.mp hkey).2 rfl
    · have hle := hold found.1 found.2 hfind hmod
      simp only at hpos
      omega

/-- The key number changes nothing in the captured keys: capture is suspended; or there is nothing
to clear; or nothing to delete; or the key is captured with this very time. -/
def Inert (this : Hemiola) (now : Int) (key : Nat) : Prop :=
  this.mModSequence = [] →
    if key = keySpace ∨ key = keyEnter then this.mCaptured = .empty
    else if key = keyBackspace then
      ∀ k t, this.mCaptured.find? k = some t → isModifier (.ofNat k) = false → t ≤ 0
    else this.mCaptured.find? key = some now

theorem captured_addKey_iff {this : Hemiola} (hreserved : keyReserved ∉ this.mCaptured.keys)
    (ord : KeyOrder) (now : Int) {key : Nat} (h0 : key ≠ keyReserved)
    (htracked : isTracked key = false) :
    (this.addKey ord now key).mCaptured = this.mCaptured ↔ this.Inert now key := by
  have hspec := addKey_spec this ord now key
  generalize this.addKey ord now key = this' at hspec ⊢
  unfold Inert
  cases hspec with
  | release hkey => exact absurd hkey h0
  | toggle ht => rw [htracked] at ht; cases ht
  | suspended _ hmods => exact iff_of_true rfl fun hnil => absurd hnil hmods
  | clear hmods hkey =>
    rw [if_pos hkey, forall_prop_of_true hmods]
    exact eq_comm
  | delete hmods hkey =>
    have hclear : ¬ (key = keySpace ∨ key = keyEnter) := by rw [hkey]; decide
    rw [if_neg hclear, if_pos hkey, forall_prop_of_true hmods]
    exact deleteKey_eq_self_iff hreserved ord
  | capture hmods hkey =>
    obtain ⟨_, _, hspace, henter, hback⟩ := isCapturable_iff.mp hkey
    rw [if_neg (not_or.mpr ⟨hspace, henter⟩), if_neg hback, forall_prop_of_true hmods]
    exact UnorderedMap.set_eq_self_iff

/-- The number 0 is never captured. -/
theorem reserved_addKey {this : Hemiola} (h : keyReserved ∉ this.mCaptured.keys) (ord : KeyOrder)
    (now : Int) (key : Nat) : keyReserved ∉ (this.addKey ord now key).mCaptured.keys := by
  have hspec := addKey_spec this ord now key
  generalize this.addKey ord now key = this' at hspec ⊢
  cases hspec with
  | release | toggle | suspended => exact h
  | clear => exact List.not_mem_nil
  | delete =>
    intro hmem
    obtain ⟨t, ht⟩ := UnorderedMap.mem_keys_iff.mp hmem
    exact h (UnorderedMap.mem_keys_iff.mpr ⟨t, deleteKey_find? ht⟩)
  | capture _ hkey =>
    have h0 := (isCapturable_iff.mp hkey).1
    exact fun hmem => (UnorderedMap.mem_keys_set.mp hmem).elim (fun heq => h0 heq.symm) h

end Hemiola

namespace Main

/-- The key of the table, other than a modifier, that an input releases. -/
def releasedKey : Input → Option Nat
  | .event event _ _ =>
    match event.action with
    | .break k => if isNonModifier k then some k else none
    | _ => none
  | .sweep _ _ => none

/-- A release leaves the captured keys and their times as they are. -/
def ReleaseKeeps (this : Main) (input : Input) : Prop :=
  releasedKey input ≠ none → (this.step input).hemiola.mCaptured = this.hemiola.mCaptured

/-- A release comes when its key number changes nothing. -/
def ReleaseInert (this : Main) (input : Input) : Prop :=
  match input with
  | .event _ _ now => ∀ k, releasedKey input = some k → this.hemiola.Inert now k
  | .sweep _ _ => True

/-- The program without the key numbers of releases. -/
def pressStep (this : Main) (input : Input) : Main :=
  if releasedKey input = none then this.step input
  else { this.step input with hemiola := this.hemiola }

theorem releasedKey_event {event : InputEvent} {ord : KeyOrder} {now : Int} {k : Nat} :
    releasedKey (.event event ord now) = some k ↔
      event.action = .break k ∧ isNonModifier k = true := by
  simp only [releasedKey]
  cases event.action with
  | «break» j =>
    simp only [KeyAction.break.injEq]
    by_cases hj : isNonModifier j = true
    · rw [if_pos hj, Option.some.injEq]
      exact ⟨fun h => ⟨h, h ▸ hj⟩, And.left⟩
    · rw [if_neg hj]
      exact iff_of_false (fun h => by cases h) fun h => hj (h.1 ▸ h.2)
  | make j => simp
  | other => simp

theorem step_release {this : Main} {event : InputEvent} {ord : KeyOrder} {now : Int} {k : Nat}
    (h : event.action = .break k) :
    (this.step (.event event ord now)).hemiola = this.hemiola.addKey ord now k := by
  show (this.deliver ord now event).hemiola = _
  rw [deliver_hemiola, h]
  rfl

theorem releaseKeeps_iff {this : Main} (hreserved : keyReserved ∉ this.hemiola.mCaptured.keys)
    (input : Input) : this.ReleaseKeeps input ↔ this.ReleaseInert input := by
  cases input with
  | sweep ord now => exact iff_of_true (fun h => absurd rfl h) trivial
  | event event ord now =>
    unfold ReleaseKeeps ReleaseInert
    cases hrel : releasedKey (.event event ord now) with
    | none => simp
    | some k =>
      obtain ⟨haction, hk⟩ := releasedKey_event.mp hrel
      obtain ⟨h0, htracked⟩ := Hemiola.not_isTracked_of_nonModifier hk
      rw [step_release haction, Hemiola.captured_addKey_iff hreserved ord now h0 htracked]
      simp

/-- A release that comes when its key number changes nothing could as well not be delivered. -/
theorem step_eq_pressStep {this : Main} (hreserved : keyReserved ∉ this.hemiola.mCaptured.keys)
    {input : Input} (h : this.ReleaseInert input) : this.step input = this.pressStep input := by
  unfold pressStep
  split_ifs with hrel
  · rfl
  · have hkeeps := (releaseKeeps_iff hreserved input).mpr h hrel
    have hmods : (this.step input).hemiola.mModSequence = this.hemiola.mModSequence := by
      cases input with
      | sweep ord now => rfl
      | event event ord now =>
        obtain ⟨k, hk⟩ := Option.ne_none_iff_exists'.mp hrel
        obtain ⟨haction, hk⟩ := releasedKey_event.mp hk
        rw [step_release haction, Hemiola.addKey_mModSequence,
          (Hemiola.not_isTracked_of_nonModifier hk).2]
        rfl
    rw [← Hemiola.ext hkeeps hmods]

theorem reserved_step {this : Main} (h : keyReserved ∉ this.hemiola.mCaptured.keys)
    (input : Input) : keyReserved ∉ (this.step input).hemiola.mCaptured.keys := by
  cases input with
  | event event ord now => exact Hemiola.reserved_addKey h ord now _
  | sweep ord now =>
    intro hmem
    obtain ⟨t, ht⟩ := UnorderedMap.mem_keys_iff.mp hmem
    exact h (UnorderedMap.mem_keys_iff.mpr ⟨t, (Hemiola.sweep_find?_eq_some.mp ht).1⟩)

/-- **Captured by presses alone.** In a run no release changes the captured keys or their times,
and these are always those of the same run without the key numbers of releases, exactly when each
release comes while its key number changes nothing. -/
theorem captured_of_presses_iff (inputs : List Input) :
    (Trace.Along step ReleaseKeeps init inputs ∧ ∀ pre, pre <+: inputs →
      (init.run pre).hemiola.mCaptured = (pre.foldl pressStep init).hemiola.mCaptured) ↔
      Trace.Along step ReleaseInert init inputs := by
  have hinit : keyReserved ∉ init.hemiola.mCaptured.keys := List.not_mem_nil
  have hkeeps : Trace.Along step ReleaseKeeps init inputs ↔
      Trace.Along step ReleaseInert init inputs :=
    Trace.along_congr (I := fun this => keyReserved ∉ this.hemiola.mCaptured.keys)
      (fun input _ _ hI => releaseKeeps_iff hI input) (fun input _ _ hI _ => reserved_step hI input)
      hinit
  constructor
  · intro h
    exact hkeeps.mp h.1
  · intro h
    refine ⟨hkeeps.mpr h, fun pre hpre => ?_⟩
    obtain ⟨post, rfl⟩ := hpre
    have hreserved : Trace.Along step
        (fun this _ => keyReserved ∉ this.hemiola.mCaptured.keys) init pre :=
      Trace.along_of_inv (fun _ _ hI => hI) (fun _ input hI => reserved_step hI input) pre hinit
    have hsame := ((Trace.along_append.mp h).1.and hreserved).mono
      fun _ _ hboth => step_eq_pressStep hboth.2 hboth.1
    rw [run, Trace.foldl_eq_of_along hsame]

/-- One tap of `A` captures it twice: its release enters a later time. -/
theorem release_captures :
    ¬ ∀ inputs : List Input, WellFormed (events inputs) → (∀ input ∈ inputs, Known input) →
      Trace.Along step ReleaseKeeps init inputs := by
  intro h
  let ord := UnorderedMap.Order.stored Nat Int
  have hwf : WellFormed (events [.event (.make keyA) ord 1, .event (.break keyA) ord 2]) :=
    (wellFormed_iff_along _).mpr (by decide)
  have hkeeps := (h _ hwf (by decide)).2.1
  exact absurd (hkeeps (by decide)) (by decide)

end Main
end Hemiola

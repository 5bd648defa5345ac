import Hemiola.Hemiola

/-!
# Hemiola.ChordExpiry

A chord on its way out. The keys of a chord are captured one after the other and each is swept
away on its own, once it is at least the threshold old; so a sweep may take some keys of the
chord and leave the others.

* `Chord`: a series of captures of distinct keys with sweeps anywhere in between, on a clock that
  never goes back.
* `find?_run`: the keys captured so far and not yet expired at a sweep are the ones in the map.
* `atomic_iff`: the chord is consumed as a whole exactly when at no sweep some of its keys have
  expired and others have not.
-/

set_option linter.dupNamespace false

namespace Hemiola

open Lib KeyTable

namespace Hemiola

/-- The keys captured by a series of calls, with the clock reading of each. -/
def captures : List Op → List (Nat × Int)
  | [] => []
  | .addKey _ now key :: ops => (key, now) :: captures ops
  | .sweep _ _ :: ops => captures ops

/-- The clock readings of an operation, by key. -/
def Op.readings : Op → Nat → Int
  | .addKey _ now _ => fun _ => now
  | .sweep _ now => now

/-- Captures of distinct keys that are no modifiers, with sweeps anywhere, on a clock that never
goes back. -/
structure Chord (ops : List Op) : Prop where
  keys : ∀ e ∈ captures ops, isCapturable e.1 = true ∧ isModifier (.ofNat e.1) = false
  distinct : ((captures ops).map Prod.fst).Nodup
  clock : ops.Pairwise fun op op' => ∀ j k, op.readings j ≤ op'.readings k

/-- The sweep takes the key out of the captured keys. -/
def Consumed (this : Hemiola) (ord : KeyOrder) (now : Nat → Int) (key : Nat) : Prop :=
  key ∈ this.mCaptured.keys ∧ key ∉ (this.sweep ord now).2.mCaptured.keys

/-- A sweep that consumes one key of the chord consumes them all. -/
def Atomic (ops : List Op) : Prop :=
  ∀ pre ord now post, ops = pre ++ .sweep ord now :: post →
    ∀ e ∈ captures ops, Consumed (init.run pre) ord now e.1 →
      ∀ e' ∈ captures ops, Consumed (init.run pre) ord now e'.1

/-- At each sweep either all keys of the chord are at least the threshold old, or none is. -/
def ExpireTogether (ops : List Op) : Prop :=
  ∀ ord now, .sweep ord now ∈ ops → ∀ e ∈ captures ops, isExpired now e = true →
    ∀ e' ∈ captures ops, isExpired now e' = true

/-! ## The map between the captures -/

theorem captures_append (ops ops' : List Op) :
    captures (ops ++ ops') = captures ops ++ captures ops' := by
  induction ops with
  | nil => rfl
  | cons op ops ih =>
    cases op with
    | addKey ord now key => rw [List.cons_append, captures, captures, ih, List.cons_append]
    | sweep ord now => rw [List.cons_append, captures, captures, ih]

theorem mem_captures {ops : List Op} {e : Nat × Int} :
    e ∈ captures ops ↔ ∃ ord, .addKey ord e.2 e.1 ∈ ops := by
  induction ops with
  | nil => simp [captures]
  | cons op ops ih =>
    cases op with
    | addKey ord now key =>
      rw [captures, List.mem_cons, ih]
      constructor
      · intro h
        rcases h with rfl | ⟨ord', h⟩
        · exact ⟨ord, List.mem_cons_self⟩
        · exact ⟨ord', List.mem_cons_of_mem _ h⟩
      · intro h
        obtain ⟨ord', h⟩ := h
        rcases List.mem_cons.mp h with heq | h
        · cases heq; exact .inl rfl
        · exact .inr ⟨ord', h⟩
    | sweep ord now => rw [captures, ih]; simp

theorem Chord.of_append {pre post : List Op} (h : Chord (pre ++ post)) : Chord pre where
  keys e he := h.keys e (by rw [captures_append]; exact List.mem_append_left _ he)
  distinct := by
    have hd := h.distinct
    rw [captures_append, List.map_append] at hd
    exact hd.of_append_left
  clock := (List.pairwise_append.mp h.clock).1

theorem not_isExpired_of_le {now : Nat → Int} {e : Nat × Int} (h : now e.1 ≤ e.2) :
    isExpired now e = false := by
  have hpos : 0 < mTimeThreshold := by decide
  rw [isExpired, decide_eq_false_iff_not]
  omega

theorem isExpired_mono {now now' : Nat → Int} {e : Nat × Int} (hle : now e.1 ≤ now' e.1)
    (h : isExpired now e = true) : isExpired now' e = true := by
  rw [isExpired, decide_eq_true_eq] at h ⊢
  omega

theorem Chord.mModSequence {pre : List Op} (h : Chord pre) : (init.run pre).mModSequence = [] := by
  induction pre using List.reverseRecOn with
  | nil => rfl
  | append_singleton pre op ih =>
    have hpre := ih h.of_append
    rw [run, List.foldl_append]
    cases op with
    | addKey ord now key =>
      have hkey := (h.keys (key, now) (mem_captures.mpr ⟨ord, by simp⟩)).1
      show (addKey (init.run pre) ord now key).mModSequence = []
      rw [addKey_capture ord now hpre hkey]
      exact hpre
    | sweep ord now => exact hpre

theorem Chord.not_captured {pre : List Op} {ord : KeyOrder} {now : Int} {key : Nat}
    (h : Chord (pre ++ [.addKey ord now key])) (t : Int) : (key, t) ∉ captures pre := by
  intro hmem
  have hd := h.distinct
  rw [captures_append, List.map_append, List.nodup_append] at hd
  exact hd.2.2 key (List.mem_map_of_mem hmem) key (by simp [captures]) rfl

/-- The captured keys are those captured so far that no sweep found expired. -/
theorem Chord.find?_run {pre : List Op} (h : Chord pre) {k : Nat} {t : Int} :
    (init.run pre).mCaptured.find? k = some t ↔
      (k, t) ∈ captures pre ∧ ∀ ord now, .sweep ord now ∈ pre → isExpired now (k, t) = false := by
  induction pre using List.reverseRecOn with
  | nil => simp [init, captures]
  | append_singleton pre op ih =>
    have hlater : ∀ op' ∈ pre, ∀ i j, op'.readings i ≤ op.readings j := fun op' hop' =>
      (List.pairwise_append.mp h.clock).2.2 op' hop' op (List.mem_singleton.mpr rfl)
    have hrun : init.run (pre ++ [op]) = step (init.run pre) op := by
      rw [run, List.foldl_append]; rfl
    rw [hrun, captures_append]
    cases op with
    | addKey ord now key =>
      have hkey := (h.keys (key, now) (mem_captures.mpr ⟨ord, by simp⟩)).1
      have hsweep : ∀ ord' now', Op.sweep ord' now' ∈ pre ++ [.addKey ord now key] ↔
          Op.sweep ord' now' ∈ pre := by simp
      rw [step, addKey_capture ord now h.of_append.mModSequence hkey, UnorderedMap.find?_set]
      simp only [captures, List.mem_append, List.mem_singleton, Prod.mk.injEq, hsweep]
      by_cases hk : k = key
      · -- the key is new, and no sweep so far reads a later time than its capture
        subst hk
        rw [if_pos rfl, Option.some.injEq]
        constructor
        · intro ht
          exact ⟨.inr ⟨rfl, ht.symm⟩, fun ord' now' hmem =>
            not_isExpired_of_le (ht ▸ hlater _ hmem k k)⟩
        · intro hr
          exact (hr.1.resolve_left (h.not_captured t)).2.symm
      · rw [if_neg hk, ih h.of_append]
        simp [hk]
    | sweep ord now =>
      have hsweep : ∀ ord' now', Op.sweep ord' now' ∈ pre ++ [.sweep ord now] ↔
          Op.sweep ord' now' ∈ pre ∨ ord' = ord ∧ now' = now := by simp
      rw [step, sweep_find?_eq_some, ih h.of_append]
      simp only [captures, List.append_nil, hsweep]
      constructor
      · intro hr
        refine ⟨hr.1.1, fun ord' now' hor => ?_⟩
        rcases hor with hmem | ⟨rfl, rfl⟩
        · exact hr.1.2 ord' now' hmem
        · exact hr.2
      · intro hr
        exact ⟨⟨hr.1, fun ord' now' hmem => hr.2 ord' now' (.inl hmem)⟩,
          hr.2 ord now (.inr ⟨rfl, rfl⟩)⟩

/-! ## One sweep of a chord -/

section Sweep

variable {pre post : List Op} {ord : KeyOrder} {now : Nat → Int} {e : Nat × Int}

theorem Chord.captured_before (h : Chord (pre ++ .sweep ord now :: post))
    (he : e ∈ captures (pre ++ .sweep ord now :: post)) (hx : isExpired now e = true) :
    e ∈ captures pre := by
  rw [captures_append, captures, List.mem_append] at he
  refine he.resolve_right fun hpost => ?_
  obtain ⟨ord', hmem⟩ := mem_captures.mp hpost
  have hclock := List.pairwise_cons.mp (List.pairwise_append.mp h.clock).2.1
  have hle : now e.1 ≤ e.2 := hclock.1 _ hmem e.1 e.1
  rw [not_isExpired_of_le hle] at hx
  cases hx

theorem Chord.expired_of_earlier (h : Chord (pre ++ .sweep ord now :: post)) {ord' : KeyOrder}
    {now' : Nat → Int} (hmem : .sweep ord' now' ∈ pre) (hx : isExpired now' e = true) :
    isExpired now e = true :=
  isExpired_mono ((List.pairwise_append.mp h.clock).2.2 _ hmem _ List.mem_cons_self e.1 e.1) hx

/-- A sweep consumes a key of the chord when it has expired, and had not at any sweep before. -/
theorem Chord.consumed_iff (h : Chord (pre ++ .sweep ord now :: post))
    (he : e ∈ captures (pre ++ .sweep ord now :: post)) :
    Consumed (init.run pre) ord now e.1 ↔
      isExpired now e = true ∧
        ∀ ord' now', .sweep ord' now' ∈ pre → isExpired now' e = false := by
  have hstamp : ∀ t, (init.run pre).mCaptured.find? e.1 = some t → t = e.2 := by
    intro t ht
    have hmem := (h.of_append.find?_run.mp ht).1
    have hmem : (e.1, t) ∈ captures (pre ++ .sweep ord now :: post) := by
      rw [captures_append]; exact List.mem_append_left _ hmem
    exact congrArg Prod.snd (List.inj_on_of_nodup_map h.distinct hmem he rfl)
  constructor
  · intro hc
    obtain ⟨hin, hout⟩ := hc
    obtain ⟨t, ht⟩ := UnorderedMap.mem_keys_iff.mp hin
    have hte : (e.1, t) = e := by rw [hstamp t ht]
    refine ⟨?_, hte ▸ (h.of_append.find?_run.mp ht).2⟩
    by_contra hx
    refine hout (UnorderedMap.mem_keys_iff.mpr ⟨t, sweep_find?_eq_some.mpr ⟨ht, ?_⟩⟩)
    rw [hte]
    exact Bool.eq_false_of_not_eq_true hx
  · intro hr
    obtain ⟨hx, hno⟩ := hr
    have hfind := h.of_append.find?_run.mpr ⟨h.captured_before he hx, hno⟩
    refine ⟨UnorderedMap.mem_keys_iff.mpr ⟨e.2, hfind⟩, fun hin => ?_⟩
    obtain ⟨t, ht⟩ := UnorderedMap.mem_keys_iff.mp hin
    obtain ⟨ht, hnx⟩ := sweep_find?_eq_some.mp ht
    rw [hstamp t ht, hx] at hnx
    cases hnx

end Sweep

/-! ## The chord as a whole -/

theorem Chord.atomic {ops : List Op} (h : Chord ops) (htogether : ExpireTogether ops) :
    Atomic ops := by
  intro pre ord now post hops e he hc e' he'
  subst hops
  obtain ⟨hx, hno⟩ := (h.consumed_iff he).mp hc
  have hsweep : ∀ ord' now', .sweep ord' now' ∈ pre →
      .sweep ord' now' ∈ pre ++ .sweep ord now :: post :=
    fun _ _ hmem => List.mem_append_left _ hmem
  refine (h.consumed_iff he').mpr ⟨htogether ord now (by simp) e he hx e' he', ?_⟩
  intro ord' now' hmem
  by_contra hx'
  have := htogether ord' now' (hsweep ord' now' hmem) e' he'
    (Bool.eq_true_of_not_eq_false hx') e he
  rw [hno ord' now' hmem] at this
  cases this

/-- The sweep of an atomic chord finds its keys expired together, if every sweep before did. -/
theorem Chord.expireTogether_step {pre post : List Op} {ord : KeyOrder} {now : Nat → Int}
    (h : Chord (pre ++ .sweep ord now :: post)) (hatomic : Atomic (pre ++ .sweep ord now :: post))
    (hbefore : ∀ ord' now', .sweep ord' now' ∈ pre →
      ∀ e ∈ captures (pre ++ .sweep ord now :: post), isExpired now' e = true →
        ∀ e' ∈ captures (pre ++ .sweep ord now :: post), isExpired now' e' = true)
    {e e' : Nat × Int} (he : e ∈ captures (pre ++ .sweep ord now :: post))
    (hx : isExpired now e = true) (he' : e' ∈ captures (pre ++ .sweep ord now :: post)) :
    isExpired now e' = true := by
  by_cases hno : ∀ ord' now', .sweep ord' now' ∈ pre → isExpired now' e = false
  · have hc := (h.consumed_iff he).mpr ⟨hx, hno⟩
    exact ((h.consumed_iff he').mp (hatomic pre ord now post rfl e he hc e' he')).1
  · -- the key went at an earlier sweep, at which the other one had expired too
    push Not at hno
    obtain ⟨ord', now', hmem, hx'⟩ := hno
    exact h.expired_of_earlier hmem
      (hbefore ord' now' hmem e he (Bool.eq_true_of_not_eq_false hx') e' he')

/-- **A chord is consumed whole** exactly when no sweep comes while some of its keys are at least
the threshold old and others are not. -/
theorem atomic_iff {ops : List Op} (h : Chord ops) : Atomic ops ↔ ExpireTogether ops := by
  refine ⟨fun hatomic => ?_, h.atomic⟩
  -- by the number of operations before the sweep
  have hall : ∀ n pre ord now post, pre.length = n → ops = pre ++ .sweep ord now :: post →
      ∀ e ∈ captures ops, isExpired now e = true → ∀ e' ∈ captures ops,
        isExpired now e' = true := by
    intro n
    induction n using Nat.strong_induction_on with
    | _ n ih =>
      intro pre ord now post hn hops e he hx e' he'
      subst hops
      refine h.expireTogether_step hatomic (fun ord' now' hmem => ?_) he hx he'
      obtain ⟨pre', mid, rfl⟩ := List.append_of_mem hmem
      refine ih pre'.length ?_ pre' ord' now' (mid ++ .sweep ord now :: post) rfl (by simp)
      rw [← hn, List.length_append, List.length_cons]
      omega
  intro ord now hmem
  obtain ⟨pre, post, hops⟩ := List.append_of_mem hmem
  exact hall pre.length pre ord now post rfl hops

/-- `A` and then `B` 200 milliseconds later, swept every 150 milliseconds up to the last sweep, at
which both have expired. -/
theorem atomic_pair :
    let ord := UnorderedMap.Order.stored Nat Int
    let ms : Int := 1000000
    let ops := [.addKey ord (10 * ms) keyA, .sweep ord fun _ => 150 * ms,
      .addKey ord (210 * ms) keyB, .sweep ord fun _ => 300 * ms, .sweep ord fun _ => 520 * ms]
    Chord ops ∧ Atomic ops := by
  intro ord ms ops
  have hchord : Chord ops :=
    ⟨by decide, by decide, by simp [ops, ms, Op.readings]⟩
  refine ⟨hchord, (atomic_iff hchord).mpr ?_⟩
  intro ord' now hmem
  simp only [ops, List.mem_cons, reduceCtorEq, Op.sweep.injEq, List.not_mem_nil, or_false,
    false_or] at hmem
  rcases hmem with ⟨-, rfl⟩ | ⟨-, rfl⟩ | ⟨-, rfl⟩ <;> decide

/-- `A` and then `B` 200 milliseconds later; a sweep 350 milliseconds after `A` takes `A` only. -/
theorem chord_torn :
    ¬ ∀ ops, Chord ops →
      (captures ops).IsChain (fun e e' => e'.2 - e.2 < mTimeThreshold) → Atomic ops := by
  intro hall
  let ord := UnorderedMap.Order.stored Nat Int
  let ms : Int := 1000000
  let pre : List Op := [.addKey ord (10 * ms) keyA, .addKey ord (210 * ms) keyB]
  let now : Nat → Int := fun _ => 360 * ms
  have hchord : Chord (pre ++ [.sweep ord now]) :=
    ⟨by decide, by decide, by simp [pre, now, ms, Op.readings]⟩
  have hA : (keyA, 10 * ms) ∈ captures (pre ++ [.sweep ord now]) := by decide
  have hB : (keyB, 210 * ms) ∈ captures (pre ++ [.sweep ord now]) := by decide
  have hgone : Consumed (init.run pre) ord now keyA :=
    (hchord.consumed_iff hA).mpr ⟨by decide, fun ord' now' hmem => by simp [pre] at hmem⟩
  have hboth := hall _ hchord (by decide) pre ord now [] rfl _ hA hgone _ hB
  exact absurd ((hchord.consumed_iff hB).mp hboth).1 (by decide)

end Hemiola
end Hemiola

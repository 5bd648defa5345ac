import Hemiola.ModifierSequence
import Hemiola.Threads

/-!
# Hemiola.Races

Which key numbers can lead the two threads to a race. The assignment of `addKey` is guarded by the
mutex; `clear` and `deleteKey` are not, and the timer thread may be in the loop over `m_Captured`
when they come.

* `Unguarded`: a call that clears the map, or deletes from a map that something was put in.
* `Filled`: what the threads hold of the captured keys.
* `Guarded`: the invariant of a run without an unguarded call.
* `race_iff`: a race can be reached exactly when some call is unguarded, and the first such call
  can be the one that races.
-/

set_option linter.dupNamespace false

namespace Hemiola
namespace Threads

open Lib KeyTable

/-- Some call of the series is one that captures. -/
def Captures (keys : List Nat) : Prop :=
  ∃ first key rest, keys = first ++ key :: rest ∧
    Toggle.odd Hemiola.isTracked first = [] ∧ Hemiola.isCapturable key = true

/-- After the key numbers in `before`, the call with `key` clears the map, or deletes from it after
something was captured. -/
def Unguarded (before : List Nat) (key : Nat) : Prop :=
  Toggle.odd Hemiola.isTracked before = [] ∧
    (key = keySpace ∨ key = keyEnter ∨ key = keyBackspace ∧ Captures before)

/-- No call of the series is unguarded. -/
def AllGuarded (keys : List Nat) : Prop :=
  ∀ before key, before ++ [key] <+: keys → ¬ Unguarded before key

theorem captures_concat {keys : List Nat} {key : Nat} :
    Captures (keys ++ [key]) ↔
      Captures keys ∨ Toggle.odd Hemiola.isTracked keys = [] ∧ Hemiola.isCapturable key = true := by
  constructor
  · intro h
    obtain ⟨first, k, rest, hsplit, hmods, hkey⟩ := h
    induction rest using List.reverseRecOn with
    | nil =>
      obtain ⟨rfl, hk⟩ := List.append_inj' hsplit rfl
      cases hk
      exact .inr ⟨hmods, hkey⟩
    | append_singleton rest k' _ =>
      rw [← List.cons_append, ← List.append_assoc] at hsplit
      obtain ⟨rfl, _⟩ := List.append_inj' hsplit rfl
      exact .inl ⟨first, k, rest, rfl, hmods, hkey⟩
  · intro h
    rcases h with ⟨first, k, rest, rfl, hmods, hkey⟩ | ⟨hmods, hkey⟩
    · exact ⟨first, k, rest ++ [key], by simp, hmods, hkey⟩
    · exact ⟨keys, key, [], rfl, hmods, hkey⟩

theorem AllGuarded.of_prefix {keys keys' : List Nat} (h : AllGuarded keys') (hle : keys <+: keys') :
    AllGuarded keys :=
  fun before key hpre => h before key (hpre.trans hle)

/-! ## Guarded calls -/

/-- The thread is about to put a key in the map. -/
def CaptureAt.captures : CaptureAt → Bool
  | .locking _ | .storing _ => true
  | _ => false

/-- The thread looks for the newest key. -/
def CaptureAt.scans : CaptureAt → Bool
  | .deleting _ | .scanning _ _ _ => true
  | _ => false

/-- The thread has entries of the map still to examine or to erase. -/
def TimerAt.inHand : TimerAt → Bool
  | .sweeping _ (_ :: _) | .erasing _ _ _ => true
  | _ => false

/-- There is a key in the map, on its way there, or in the hands of the timer thread. -/
def Filled (s : State) : Prop :=
  s.this.mCaptured.entries ≠ [] ∨ s.capture.captures = true ∨ s.timer.inHand = true

/-- Where the capture thread may stand when no call was unguarded. -/
def CaptureAt.Guarded : CaptureAt → Prop
  | .outside | .locking _ | .storing _ | .unlocking | .deleting _ | .leaving => True
  | .scanning _ found rest => found = (keyReserved, 0) ∧ rest = []
  | .clearing _ | .erasing _ _ | .checking _ | .examining _ _ | .emptying => False

structure Guarded (keys : List Nat) (s : State) : Prop where
  place : s.capture.Guarded
  filled : Filled s → Captures keys
  scans : s.capture.scans = true → ¬ Filled s

/-- The modifiers are those of the key numbers handed over. -/
def Follows (keys : List Nat) (s : State) : Prop :=
  s.this.mModSequence = Toggle.odd Hemiola.isTracked keys

theorem enter_mModSequence (this : Hemiola) (ord : KeyOrder) (key : Nat) :
    (enter this ord key).1.mModSequence =
      Toggle.toggleIf Hemiola.isTracked this.mModSequence key := by
  have hspec := enter_spec this ord key
  generalize enter this ord key = entered at hspec ⊢
  cases hspec with
  | release hkey => rw [hkey]; rfl
  | toggle htracked => rw [Toggle.toggleIf, if_pos htracked]
  | suspended htracked => rw [Toggle.toggleIf, htracked]; rfl
  | clear _ hkey => rcases hkey with rfl | rfl <;> rfl
  | delete _ hkey => rw [hkey]; rfl
  | capture _ hkey => rw [Toggle.toggleIf, (Hemiola.isCapturable_iff.mp hkey).2.1]; rfl

theorem follows_start (chords : KeyChords) (clock : Int) : Follows [] (start chords clock) :=
  Toggle.foldl_toggleIf Hemiola.isTracked []

/-- No key number is handed over in a step that is no call. -/
theorem delivered_nil (keys : List Nat) {e : Option Event} (h : ∀ key, e ≠ some (.called key)) :
    keys ++ delivered (visible [e]) = keys := by
  cases e with
  | none => exact List.append_nil keys
  | some event =>
    cases event with
    | called key => exact absurd rfl (h key)
    | returned | began | ended => exact List.append_nil keys

theorem follows_step {keys : List Nat} {s t : State} {e : Option Event} (h : Follows keys s)
    (hstep : Step s e t) : Follows (keys ++ delivered (visible [e])) t := by
  cases hstep with
  | capture hstep =>
    cases hstep with
    | @call ord key hat =>
      show (enter s.this ord key).1.mModSequence = Toggle.odd _ (keys ++ [key])
      rw [enter_mModSequence, h, ← Toggle.odd_concat]
    | lock | store | unlock | clear | scan | next | absent | found | erase | check | modifier | key
    | allModifiers | empty | ret =>
      rw [delivered_nil keys (by simp)]
      exact h
  | timer hstep =>
    cases hstep with
    | lock | sweep | keep | expire | erase | swept | getWord | write | typed | unlock =>
      rw [delivered_nil keys (by simp)]
      exact h
  | tick =>
    rw [delivered_nil keys (by simp)]
    exact h

/-- A step of the capture thread that does not change the map fills nothing. -/
theorem Filled.of_capture {s t : State} (ht : Filled t)
    (hmap : t.this.mCaptured = s.this.mCaptured) (htimer : t.timer = s.timer)
    (hcapture : t.capture.captures = false) : Filled s := by
  rw [Filled, hmap, htimer, hcapture] at ht
  rcases ht with hentries | hcaptures | hinHand
  · exact .inl hentries
  · cases hcaptures
  · exact .inr (.inr hinHand)

/-- A step that is no call keeps the invariant when it fills nothing. -/
theorem Guarded.of_filled {keys : List Nat} {s t : State} (h : Guarded keys s)
    (hplace : t.capture.Guarded) (hfilled : Filled t → Filled s)
    (hscans : t.capture.scans = true → s.capture.scans = true) : Guarded keys t :=
  ⟨hplace, fun ht => h.filled (hfilled ht), fun hscan ht => h.scans (hscans hscan) (hfilled ht)⟩

theorem guarded_call {keys : List Nat} {s : State} (h : Guarded keys s) (hfollows : Follows keys s)
    (ord : KeyOrder) (key : Nat) (hguarded : ¬ Unguarded keys key) :
    Guarded (keys ++ [key]) { s with this := (enter s.this ord key).1,
                                     capture := (enter s.this ord key).2 } := by
  have hspec := enter_spec s.this ord key
  generalize enter s.this ord key = entered at hspec ⊢
  have hcaptures : Captures keys → Captures (keys ++ [key]) := fun hc =>
    captures_concat.mpr (.inl hc)
  cases hspec with
  | release | toggle | suspended =>
    refine ⟨trivial, fun ht => hcaptures (h.filled ?_), fun hscan => by cases hscan⟩
    exact ht.of_capture rfl rfl rfl
  | clear hmods hkey =>
    refine absurd ⟨hfollows ▸ hmods, ?_⟩ hguarded
    exact hkey.elim .inl fun henter => .inr (.inl henter)
  | delete hmods hkey =>
    have hempty : ¬ Filled s := fun hs =>
      hguarded ⟨hfollows ▸ hmods, .inr (.inr ⟨hkey, h.filled hs⟩)⟩
    have hempty' : ¬ Filled { s with capture := .deleting ord } := fun ht =>
      hempty (ht.of_capture rfl rfl rfl)
    exact ⟨trivial, fun ht => absurd ht hempty', fun _ => hempty'⟩
  | capture hmods hkey =>
    refine ⟨trivial, fun _ => captures_concat.mpr (.inr ⟨hfollows ▸ hmods, hkey⟩), ?_⟩
    exact fun hscan => by cases hscan

theorem guarded_captureStep {keys : List Nat} {s t : State} {e : Option Event}
    (h : Guarded keys s) (hfollows : Follows keys s) (hstep : CaptureStep s e t)
    (hall : AllGuarded (keys ++ delivered (visible [e]))) :
    Guarded (keys ++ delivered (visible [e])) t := by
  cases hstep with
  | @call ord key hat =>
    exact guarded_call h hfollows ord key (hall keys key List.prefix_rfl)
  | @lock key hat =>
    rw [delivered_nil keys (by simp)]
    refine h.of_filled trivial (fun _ => .inr (.inl ?_)) fun hscan => by cases hscan
    rw [hat]; rfl
  | @store key hat =>
    rw [delivered_nil keys (by simp)]
    refine h.of_filled trivial (fun _ => .inr (.inl ?_)) fun hscan => by cases hscan
    rw [hat]; rfl
  | unlock hat =>
    rw [delivered_nil keys (by simp)]
    exact h.of_filled trivial (fun ht => ht.of_capture rfl rfl rfl) fun hscan => by cases hscan
  | @scan ord hat =>
    rw [delivered_nil keys (by simp)]
    have hscans : s.capture.scans = true := by rw [hat]; rfl
    have hentries : s.this.mCaptured.entries = [] := by
      by_contra hne
      exact h.scans hscans (.inl hne)
    have hlist : ord.list s.this.mCaptured = [] := by
      have hperm := ord.perm s.this.mCaptured
      rw [hentries] at hperm
      exact hperm.eq_nil
    exact h.of_filled ⟨rfl, hlist⟩ (fun ht => ht.of_capture rfl rfl rfl) fun _ => hscans
  | next hat =>
    have hplace := h.place
    rw [hat] at hplace
    cases hplace.2
  | absent hat =>
    rw [delivered_nil keys (by simp)]
    exact h.of_filled trivial (fun ht => ht.of_capture rfl rfl rfl) fun hscan => by cases hscan
  | @found ord found hat hne =>
    have hplace := h.place
    rw [hat] at hplace
    exact absurd (congrArg Prod.fst hplace.1) hne
  | ret hat =>
    rw [delivered_nil keys (by simp)]
    exact h.of_filled trivial (fun ht => ht.of_capture rfl rfl rfl) fun hscan => by cases hscan
  | clear hat | erase hat | check hat | modifier hat | key hat | allModifiers hat | empty hat =>
    have hplace := h.place
    rw [hat] at hplace
    exact hplace.elim

/-- The timer thread takes its entries from the map. -/
theorem filled_of_timerStep {s t : State} {e : Option Event} (hstep : TimerStep s e t)
    (ht : Filled t) : Filled s := by
  cases hstep with
  | lock hat | swept hat | getWord hat | write hat | typed hat | unlock hat =>
    rcases ht with hentries | hcaptures | hinHand
    · exact .inl hentries
    · exact .inr (.inl hcaptures)
    · cases hinHand
  | @sweep ord hat =>
    rcases ht with hentries | hcaptures | hinHand
    · exact .inl hentries
    · exact .inr (.inl hcaptures)
    · refine .inl fun hempty => ?_
      have hperm := ord.perm s.this.mCaptured
      rw [hempty] at hperm
      rw [hperm.eq_nil] at hinHand
      cases hinHand
  | keep hat | expire hat => exact .inr (.inr (by rw [hat]; rfl))
  | erase hat => exact .inr (.inr (by rw [hat]; rfl))

theorem guarded_timerStep {keys : List Nat} {s t : State} {e : Option Event}
    (h : Guarded keys s) (hstep : TimerStep s e t) : Guarded keys t := by
  have hcapture : t.capture = s.capture := by cases hstep <;> rfl
  refine h.of_filled ?_ (filled_of_timerStep hstep) ?_
  · rw [hcapture]
    exact h.place
  · rw [hcapture]
    exact id

theorem guarded_step {keys : List Nat} {s t : State} {e : Option Event} (h : Guarded keys s)
    (hfollows : Follows keys s) (hstep : Step s e t)
    (hall : AllGuarded (keys ++ delivered (visible [e]))) :
    Guarded (keys ++ delivered (visible [e])) t := by
  cases hstep with
  | capture hstep => exact guarded_captureStep h hfollows hstep hall
  | timer hstep =>
    have hnone : ∀ key, e ≠ some (.called key) := by cases hstep <;> simp
    rw [delivered_nil keys hnone]
    exact guarded_timerStep h hstep
  | tick =>
    rw [delivered_nil keys (by simp)]
    exact ⟨h.place, h.filled, h.scans⟩

theorem Guarded.not_racy {keys : List Nat} {s : State} (h : Guarded keys s) (hlocked : Locked s) :
    ¬ Racy s := by
  intro hracy
  obtain ⟨hplace, _, hscans⟩ := h
  have hscanning : s.capture.scans = true → s.timer.access ≠ .writes := by
    intro hscan haccess
    refine hscans hscan (.inr (.inr ?_))
    cases hat : s.timer with
    | erasing => rfl
    | outside | starting | sweeping | looking | typing | sleeping =>
      rw [hat] at haccess
      cases haccess
  have hexclusion := hlocked.exclusion
  rw [Racy] at hracy
  cases hat : s.capture with
  | outside | locking | unlocking | leaving =>
    rw [hat] at hracy
    cases hracy
  | storing key =>
    rw [hat] at hracy hexclusion
    cases hat' : s.timer with
    | outside =>
      rw [hat'] at hracy
      cases hracy
    | starting | sweeping | erasing | looking | typing | sleeping =>
      rw [hat'] at hexclusion
      exact hexclusion ⟨rfl, rfl⟩
  | deleting | scanning =>
    rw [hat] at hracy hscanning
    cases haccess : s.timer.access with
    | none | reads =>
      rw [haccess] at hracy
      cases hracy
    | writes => exact hscanning rfl haccess
  | clearing | erasing | checking | examining | emptying =>
    rw [hat] at hplace
    exact hplace.elim

theorem delivered_visible (acts : List (Option Event)) (e : Option Event) :
    delivered (visible (acts ++ [e])) = delivered (visible acts) ++ delivered (visible [e]) := by
  rw [visible_append]
  exact List.filterMap_append

section Runs

variable {chords : KeyChords} {clock : Int} {acts : List (Option Event)} {s : State}

theorem follows_of_steps (h : Steps Step (start chords clock) acts s) :
    Follows (delivered (visible acts)) s := by
  refine Steps.inv_along (I := fun acts s => Follows (delivered (visible acts)) s)
    (fun acts s e t hs hstep => ?_) (follows_start chords clock) h
  rw [delivered_visible]
  exact follows_step hs hstep

theorem guarded_of_steps (h : Steps Step (start chords clock) acts s)
    (hall : AllGuarded (delivered (visible acts))) : Guarded (delivered (visible acts)) s := by
  induction h with
  | refl =>
    refine ⟨trivial, fun hfilled => ?_, fun hscan => by cases hscan⟩
    rcases hfilled with hentries | hcaptures | hinHand
    · exact absurd rfl hentries
    · cases hcaptures
    · cases hinHand
  | tail hsteps hstep ih =>
    rw [delivered_visible] at hall ⊢
    have hbefore := ih (hall.of_prefix (List.prefix_append _ _))
    exact guarded_step hbefore (follows_of_steps hsteps) hstep hall

theorem not_racy_of_guarded (h : Steps Step (start chords clock) acts s)
    (hall : AllGuarded (delivered (visible acts))) : ¬ Racy s :=
  (guarded_of_steps h hall).not_racy (locked_of_steps h)

/-- A run without an unguarded call is one without a race. -/
theorem raceFree_of_guarded (h : Steps Step (start chords clock) acts s)
    (hall : AllGuarded (delivered (visible acts))) :
    Steps RaceFree (start chords clock) acts s := by
  induction h with
  | refl => exact .refl
  | tail hsteps hstep ih =>
    rw [delivered_visible] at hall
    have hbefore := hall.of_prefix (List.prefix_append _ _)
    exact (ih hbefore).tail ⟨not_racy_of_guarded hsteps hbefore, hstep⟩

end Runs

/-! ## Unguarded calls -/

/-- The threads at the start, but for what the calls have left. -/
def between (this : Hemiola) (chords : KeyChords) (clock : Int) : State :=
  ⟨this, chords, [], none, clock, .outside, .outside⟩

/-- A guarded call while the timer thread waits. -/
theorem call_alone {keys : List Nat} {this : Hemiola} (chords : KeyChords) (clock : Int) {key : Nat}
    (hmods : this.mModSequence = Toggle.odd Hemiola.isTracked keys)
    (hfilled : this.mCaptured.entries ≠ [] ↔ Captures keys) (hguarded : ¬ Unguarded keys key) :
    ∃ acts that, Steps Step (between this chords clock) acts (between that chords clock) ∧
      delivered (visible acts) = [key] ∧
      (that.mCaptured.entries ≠ [] ↔ Captures (keys ++ [key])) := by
  let ord := UnorderedMap.Order.stored Nat Int
  have hcall := Steps.single
    (Step.capture (@CaptureStep.call (between this chords clock) ord key rfl))
  have hspec := enter_spec this ord key
  change Steps _ _ _ { between this chords clock with
    this := (enter this ord key).1, capture := (enter this ord key).2 } at hcall
  generalize enter this ord key = entered at hspec hcall
  rw [captures_concat]
  cases hspec with
  | release hkey =>
    refine ⟨_, this, hcall.tail (.capture (.ret rfl)), rfl, ?_⟩
    rw [hfilled, or_iff_left]
    rintro ⟨_, hcapturable⟩
    exact (Hemiola.isCapturable_iff.mp hcapturable).1 hkey
  | toggle htracked =>
    refine ⟨_, _, hcall.tail (.capture (.ret rfl)), rfl, ?_⟩
    rw [hfilled, or_iff_left]
    rintro ⟨_, hcapturable⟩
    rw [(Hemiola.isCapturable_iff.mp hcapturable).2.1] at htracked
    cases htracked
  | suspended _ hne =>
    refine ⟨_, this, hcall.tail (.capture (.ret rfl)), rfl, ?_⟩
    rw [hfilled, or_iff_left]
    rintro ⟨hnil, _⟩
    exact hne (hmods.trans hnil)
  | clear hnil hkey =>
    refine absurd ⟨hmods ▸ hnil, ?_⟩ hguarded
    exact hkey.elim .inl fun henter => .inr (.inl henter)
  | delete hnil hkey =>
    have hnone : ¬ Captures keys := fun hcaptures =>
      hguarded ⟨hmods ▸ hnil, .inr (.inr ⟨hkey, hcaptures⟩)⟩
    have hentries : this.mCaptured.entries = [] := by
      by_contra hne
      exact hnone (hfilled.mp hne)
    have hscan := hcall.tail (.capture (.scan rfl))
    have habsent := hscan.tail (.capture (@CaptureStep.absent _ ord (keyReserved, 0) (by
      show CaptureAt.scanning ord _ this.mCaptured.entries = _
      rw [hentries]) rfl))
    refine ⟨_, this, habsent.tail (.capture (.ret rfl)), rfl, ?_⟩
    rw [hfilled, or_iff_left]
    rintro ⟨_, hcapturable⟩
    obtain ⟨_, _, _, _, hne⟩ := Hemiola.isCapturable_iff.mp hcapturable
    exact hne hkey
  | capture hnil hkey =>
    have hlock := hcall.tail (.capture (.lock rfl rfl))
    have hstore := hlock.tail (.capture (.store rfl))
    have hunlock := hstore.tail (.capture (.unlock rfl))
    refine ⟨_, { this with mCaptured := this.mCaptured.set key clock },
      hunlock.tail (.capture (.ret rfl)), rfl, ?_⟩
    refine iff_of_true (List.ne_nil_of_mem (UnorderedMap.mem_set.mpr (.inl rfl))) ?_
    exact .inr ⟨hmods ▸ hnil, hkey⟩

/-- Guarded calls, one after another, while the timer thread waits. -/
theorem calls_alone (chords : KeyChords) (clock : Int) (keys : List Nat) (hall : AllGuarded keys) :
    ∃ acts this, Steps Step (start chords clock) acts (between this chords clock) ∧
      delivered (visible acts) = keys ∧ this.mModSequence = Toggle.odd Hemiola.isTracked keys ∧
      (this.mCaptured.entries ≠ [] ↔ Captures keys) := by
  induction keys using List.reverseRecOn with
  | nil =>
    refine ⟨[], .init, .refl, rfl, Toggle.foldl_toggleIf _ [], iff_of_false (not_not.mpr rfl) ?_⟩
    intro h
    obtain ⟨first, key, rest, hsplit, _⟩ := h
    simp at hsplit
  | append_singleton keys key ih =>
    obtain ⟨acts, this, hsteps, hkeys, hmods, hfilled⟩ :=
      ih (hall.of_prefix (List.prefix_append _ _))
    obtain ⟨acts', that, hsteps', hkey, hfilled'⟩ :=
      call_alone chords clock hmods hfilled (hall keys key List.prefix_rfl)
    have hboth := hsteps.trans hsteps'
    have hdelivered : delivered (visible (acts ++ acts')) = keys ++ [key] := by
      rw [visible_append, delivered, List.filterMap_append]
      exact congrArg₂ (· ++ ·) hkeys hkey
    refine ⟨acts ++ acts', that, hboth, hdelivered, ?_, hfilled'⟩
    have hfollows := follows_of_steps hboth
    rw [hdelivered] at hfollows
    exact hfollows

/-- The first unguarded call. -/
theorem exists_first {keys : List Nat}
    (h : ∃ before key, before ++ [key] <+: keys ∧ Unguarded before key) :
    ∃ before key, before ++ [key] <+: keys ∧ Unguarded before key ∧ AllGuarded before := by
  obtain ⟨before, key, hpre, hun⟩ := h
  induction hn : before.length using Nat.strongRecOn generalizing before key with
  | _ n ih =>
    by_cases hall : AllGuarded before
    · exact ⟨before, key, hpre, hun, hall⟩
    · unfold AllGuarded at hall
      push Not at hall
      obtain ⟨before', key', hpre', hun'⟩ := hall
      have hlt : before'.length < n := by
        have hle := hpre'.length_le
        rw [List.length_append, List.length_singleton] at hle
        omega
      exact ih before'.length hlt before' key'
        (hpre'.trans ((List.prefix_append before [key]).trans hpre)) hun' rfl

theorem enter_clear {this : Hemiola} (hnil : this.mModSequence = []) (ord : KeyOrder) {key : Nat}
    (hkey : key = keySpace ∨ key = keyEnter) : enter this ord key = (this, .clearing key) := by
  rcases hkey with rfl | rfl
  · rw [enter, if_neg (by decide), if_neg (by decide), if_neg (not_not.mpr hnil), if_pos (.inl rfl)]
  · rw [enter, if_neg (by decide), if_neg (by decide), if_neg (not_not.mpr hnil), if_pos (.inr rfl)]

theorem enter_delete {this : Hemiola} (hnil : this.mModSequence = []) (ord : KeyOrder) :
    enter this ord keyBackspace = (this, .deleting ord) := by
  rw [enter, if_neg (by decide), if_neg (by decide), if_neg (not_not.mpr hnil),
    if_neg (by decide), if_pos rfl]

/-- The map is cleared while the timer thread is about to go through it. -/
theorem race_of_clear {s : State} {key : Nat} (hnil : s.this.mModSequence = [])
    (hkey : key = keySpace ∨ key = keyEnter) (hidle : Idle s) (hfree : s.mutex = none) :
    ∃ t u, Steps Step s [some .began] t ∧ Step t (some (.called key)) u ∧ Racy u := by
  let ord := UnorderedMap.Order.stored Nat Int
  have hlock := Steps.single (Step.timer (TimerStep.lock hidle.2 hfree))
  refine ⟨_, _, hlock, .capture (@CaptureStep.call _ ord key hidle.1), ?_⟩
  show (enter s.this ord key).2.access.conflicts .reads = true
  rw [enter_clear hnil ord hkey]
  rfl

/-- The newest key is looked for while the timer thread is about to erase one. -/
theorem race_of_delete {s : State} (hnil : s.this.mModSequence = [])
    (hfilled : s.this.mCaptured.entries ≠ []) (hidle : Idle s) (hfree : s.mutex = none) :
    ∃ t u, Steps Step s [none, some .began, none, none] t ∧
      Step t (some (.called keyBackspace)) u ∧ Racy u := by
  let ord := UnorderedMap.Order.stored Nat Int
  obtain ⟨entry, rest, hentries⟩ := List.exists_cons_of_ne_nil hfilled
  let elapsed := (Hemiola.mTimeThreshold + entry.2 - s.clock).toNat
  have htick := Steps.single (@Step.tick s elapsed)
  have hlock := htick.tail (.timer (.lock hidle.2 hfree))
  have hsweep := hlock.tail (.timer (@TimerStep.sweep _ ord rfl))
  have hold : s.clock + elapsed - entry.2 ≥ Hemiola.mTimeThreshold := by omega
  have hexpire := hsweep.tail (.timer (.expire (congrArg (TimerAt.sweeping []) hentries) hold))
  refine ⟨_, _, hexpire, .capture (@CaptureStep.call _ ord keyBackspace hidle.1), ?_⟩
  show (enter s.this ord keyBackspace).2.access.conflicts .writes = true
  rw [enter_delete hnil]
  rfl

/-- The last call of a run makes the race, after guarded ones. -/
theorem race_of_last {chords : KeyChords} {clock : Int} {acts more : List (Option Event)}
    {before : List Nat} {key : Nat} {s t u : State} (hall : AllGuarded before)
    (hsteps : Steps Step (start chords clock) acts s) (hkeys : delivered (visible acts) = before)
    (hmore : Steps Step s more t) (hnone : delivered (visible more) = [])
    (hcall : Step t (some (.called key)) u) (hracy : Racy u) :
    ∃ acts s, Steps RaceFree (start chords clock) acts s ∧
      delivered (visible acts) = before ++ [key] ∧ Racy s := by
  have hboth := hsteps.trans hmore
  have hdelivered : delivered (visible (acts ++ more)) = before := by
    rw [visible_append, delivered, List.filterMap_append]
    exact (congrArg₂ (· ++ ·) hkeys hnone).trans (List.append_nil before)
  have hguarded : AllGuarded (delivered (visible (acts ++ more))) := by rwa [hdelivered]
  have hlast := (raceFree_of_guarded hboth hguarded).tail
    ⟨not_racy_of_guarded hboth hguarded, hcall⟩
  refine ⟨_, u, hlast, ?_, hracy⟩
  rw [delivered_visible, hdelivered]
  rfl

/-- An unguarded call after guarded ones can meet the timer thread at the map. -/
theorem race_of_unguarded (chords : KeyChords) (clock : Int) {before : List Nat} {key : Nat}
    (hall : AllGuarded before) (hun : Unguarded before key) :
    ∃ acts s, Steps RaceFree (start chords clock) acts s ∧
      delivered (visible acts) = before ++ [key] ∧ Racy s := by
  obtain ⟨acts, this, hsteps, hkeys, hmods, hfilled⟩ := calls_alone chords clock before hall
  obtain ⟨hnil, hkey⟩ := hun
  rw [← hmods] at hnil
  have hclear (h : key = keySpace ∨ key = keyEnter) : ∃ acts s,
      Steps RaceFree (start chords clock) acts s ∧ delivered (visible acts) = before ++ [key] ∧
      Racy s := by
    obtain ⟨t, u, hmore, hcall, hracy⟩ :=
      race_of_clear (s := between this chords clock) hnil h ⟨rfl, rfl⟩ rfl
    exact race_of_last hall hsteps hkeys hmore rfl hcall hracy
  rcases hkey with hspace | henter | ⟨rfl, hcaptures⟩
  · exact hclear (.inl hspace)
  · exact hclear (.inr henter)
  · obtain ⟨t, u, hmore, hcall, hracy⟩ := race_of_delete (s := between this chords clock) hnil
      (hfilled.mpr hcaptures) ⟨rfl, rfl⟩ rfl
    exact race_of_last hall hsteps hkeys hmore rfl hcall hracy

/-- **Where the threads race.** Some run that hands over key numbers of the series, in its order,
reaches a race, the first one, exactly when the series has an unguarded call; and the first
unguarded call of the series can be the one that races, with no race before it. -/
theorem race_iff (chords : KeyChords) (clock : Int) (keys : List Nat) :
    ((∃ acts s, Steps RaceFree (start chords clock) acts s ∧ delivered (visible acts) <+: keys ∧
      Racy s) ↔ ∃ before key, before ++ [key] <+: keys ∧ Unguarded before key) ∧
    ∀ before key, before ++ [key] <+: keys → AllGuarded before → Unguarded before key →
      ∃ acts s, Steps RaceFree (start chords clock) acts s ∧
        delivered (visible acts) = before ++ [key] ∧ Racy s := by
  refine ⟨⟨fun h => ?_, fun h => ?_⟩, fun before key _ hall hun => ?_⟩
  · obtain ⟨acts, s, hsteps, hpre, hracy⟩ := h
    by_contra hnone
    push Not at hnone
    refine not_racy_of_guarded (steps_of_raceFree hsteps) (fun before key hbefore => ?_) hracy
    exact hnone before key (hbefore.trans hpre)
  · obtain ⟨before, key, hpre, hun, hall⟩ := exists_first h
    obtain ⟨acts, s, hsteps, hkeys, hracy⟩ := race_of_unguarded chords clock hall hun
    exact ⟨acts, s, hsteps, hkeys ▸ hpre, hracy⟩
  · exact race_of_unguarded chords clock hall hun

end Threads
end Hemiola

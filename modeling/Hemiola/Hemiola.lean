import Hemiola.KeyChords
import Hemiola.KeyReport
import Hemiola.Lib.Toggle

/-!
# Hemiola.Hemiola

The class `Hemiola`: the captured keys with the time of their capture, and the modifiers that
suspend capture. `addKey` takes a key number from the capture thread; `sweep` and `outputLoop` are
one round of the timer thread, which moves the keys captured long enough ago into a chord string
and writes a report for each character of the word found for it. A `TimePoint` is the number of
nanoseconds since the epoch of the steady clock.

Each loop over `m_Captured` gets its order as an argument (`UnorderedMap.Order`), and each reading
of the clock is an argument. `sweep` visits every entry present at its start once; the reading
taken when the entry of a key is examined is `now` of that key.

* `AddKey`, `addKey_spec`: the ways a key number is handled, each with its guard.
* `newest_spec`: the scan of `deleteKey` for the newest key that is no modifier.
* `sweep_find?`, `sweep_chord`: what a sweep keeps and what it puts in the chord string.
-/

set_option linter.dupNamespace false

namespace Hemiola

open Lib KeyTable

/-- An order in which a loop visits the captured keys. -/
abbrev KeyOrder := UnorderedMap.Order Nat Int

@[ext] structure Hemiola where
  mCaptured : UnorderedMap Nat Int
  mModSequence : List Nat
deriving DecidableEq

namespace Hemiola

/-- 300 milliseconds -/
def mTimeThreshold : Int := 300 * 1000000

/-- The state the constructor leaves. -/
def init : Hemiola := ⟨.empty, []⟩

def notShiftOrAltGr (key : Nat) : Bool :=
  key ≠ keyRightAlt && key ≠ keyRightShift && key ≠ keyLeftShift

/-- The body of the loop of `deleteKey` that looks for the newest key. -/
def newest (acc : Nat × Int) (entry : Nat × Int) : Nat × Int :=
  if isModifier (.ofNat entry.1) then acc
  else if acc.2 < entry.2 then entry
  else acc

def deleteKey (this : Hemiola) (ord : KeyOrder) : Hemiola :=
  let (deleteKey, _) := (ord.list this.mCaptured).foldl newest (keyReserved, 0)
  if deleteKey = keyReserved then this
  else
    let captured := this.mCaptured.erase deleteKey
    let allModifiers := (ord.list captured).all fun entry => isModifier (.ofNat entry.1)
    if allModifiers then { this with mCaptured := .empty }
    else { this with mCaptured := captured }

def addKey (this : Hemiola) (ord : KeyOrder) (now : Int) (key : Nat) : Hemiola :=
  if key = keyRelease then this
  else if isModifier (.ofNat key) && notShiftOrAltGr key then
    -- the loop over `m_ModSequence`, and the `push_back` after it
    { this with mModSequence := Toggle.toggle key this.mModSequence }
  else if this.mModSequence ≠ [] then this
  else if key = keySpace ∨ key = keyEnter then { this with mCaptured := .empty }
  else if key = keyBackspace then this.deleteKey ord
  else { this with mCaptured := this.mCaptured.set key now }

/-! ## The timer loop -/

/-- The body of the sweep loop: the chord string and the captured keys. -/
def sweepEntry (now : Nat → Int) (acc : Str × UnorderedMap Nat Int)
    (entry : Nat × Int) : Str × UnorderedMap Nat Int :=
  if now entry.1 - entry.2 ≥ mTimeThreshold then
    (acc.1 ++ charKeys entry.1, acc.2.erase entry.1)
  else acc

/-- The sweep over `m_Captured`: the chord string, and the state after it. The source erases from
the map in the range-for over it (`sweepCursor`); here the loop visits the entries there were when
it began. -/
def sweep (this : Hemiola) (ord : KeyOrder) (now : Nat → Int) : Str × Hemiola :=
  let (chord, captured) := (ord.list this.mCaptured).foldl (sweepEntry now) ([], this.mCaptured)
  (chord, { this with mCaptured := captured })

/-- The report the loop over a word writes for a character. The modifier byte of
`KeyReport report;` is what the memory held; the `unsetKey` after the write changes a report that
is not written again. -/
def charReport (memory : UInt8) (charKey : Char) : KeyReport :=
  let report : KeyReport := ⟨memory, .zero⟩
  let keyCode := getKeyCode [charKey]
  let keyHex := scanToHex keyCode
  (report.setKey keyHex).1

/-- The reports written for a word, `memory` giving the byte found at each round from `i` on. -/
def outputLoop (memory : Nat → UInt8) : Nat → Str → List KeyReport
  | _, [] => []
  | i, charKey :: word => charReport (memory i) charKey :: outputLoop memory (i + 1) word

/-- One round of the loop of `run`: the sweep, the lookup of its chord string, and the reports
written for the word found. A write that failed would end the program. -/
def round (this : Hemiola) (chords : KeyChords) (ord : KeyOrder) (now : Nat → Int)
    (memory : Nat → UInt8) : Hemiola × KeyChords × List KeyReport :=
  let (chord, this) := this.sweep ord now
  let (word, chords) := chords.getWord chord
  (this, chords, outputLoop memory 0 word)

/-! ## One key number -/

/-- A key whose deliveries are tracked in `m_ModSequence`. -/
def isTracked (key : Nat) : Bool := isModifier (.ofNat key) && notShiftOrAltGr key

/-- A key that would be captured: it is not tracked and has no meaning of its own. -/
def isCapturable (key : Nat) : Bool :=
  key ≠ keyReserved && !isTracked key && key ≠ keySpace && key ≠ keyEnter && key ≠ keyBackspace

/-- What becomes of a key number, with the guard of each case. -/
inductive AddKey (this : Hemiola) (ord : KeyOrder) (now : Int) (key : Nat) :
    Hemiola → Prop where
  | release (hkey : key = keyReserved) : AddKey this ord now key this
  | toggle (htracked : isTracked key = true) :
      AddKey this ord now key { this with mModSequence := Toggle.toggle key this.mModSequence }
  | suspended (htracked : isTracked key = false) (hmods : this.mModSequence ≠ []) :
      AddKey this ord now key this
  | clear (hmods : this.mModSequence = []) (hkey : key = keySpace ∨ key = keyEnter) :
      AddKey this ord now key { this with mCaptured := .empty }
  | delete (hmods : this.mModSequence = []) (hkey : key = keyBackspace) :
      AddKey this ord now key (this.deleteKey ord)
  | capture (hmods : this.mModSequence = []) (hkey : isCapturable key = true) :
      AddKey this ord now key { this with mCaptured := this.mCaptured.set key now }

theorem addKey_spec (this : Hemiola) (ord : KeyOrder) (now : Int) (key : Nat) :
    AddKey this ord now key (this.addKey ord now key) := by
  simp only [addKey]
  split_ifs with h0 ht hm hs hb
  · exact .release h0
  · exact .toggle ht
  · exact .suspended (Bool.eq_false_of_not_eq_true ht) hm
  · exact .clear (by simpa using hm) hs
  · exact .delete (by simpa using hm) hb
  · refine .capture (by simpa using hm) ?_
    have h0 : key ≠ keyReserved := h0
    have ht : isTracked key = false := Bool.eq_false_of_not_eq_true ht
    obtain ⟨hspace, henter⟩ := not_or.mp hs
    simp [isCapturable, h0, ht, hspace, henter, hb]

theorem isCapturable_iff {key : Nat} :
    isCapturable key = true ↔ key ≠ keyReserved ∧ isTracked key = false ∧ key ≠ keySpace ∧
      key ≠ keyEnter ∧ key ≠ keyBackspace := by
  simp [isCapturable, and_assoc]

theorem addKey_capture {this : Hemiola} {key : Nat} (ord : KeyOrder) (now : Int)
    (hmods : this.mModSequence = []) (hkey : isCapturable key = true) :
    this.addKey ord now key = { this with mCaptured := this.mCaptured.set key now } := by
  obtain ⟨h0, ht, hs, he, hb⟩ := isCapturable_iff.mp hkey
  have ht' : (isModifier (.ofNat key) && notShiftOrAltGr key) = false := ht
  have h0' : key ≠ keyRelease := h0
  simp [addKey, h0', ht', hmods, hs, he, hb]

/-! ## The modifiers -/

theorem isTracked_iff {key : Nat} :
    isTracked key = true ↔ isModifier (.ofNat key) = true ∧
      ¬ (key = keyRightAlt ∨ key = keyLeftShift ∨ key = keyRightShift) := by
  simp only [isTracked, notShiftOrAltGr, Bool.and_eq_true, decide_eq_true_eq]
  tauto

theorem isTracked_reserved : isTracked keyReserved = false := rfl

/-- A key of the table that is no modifier is one that `addKey` handles as a key. -/
theorem not_isTracked_of_nonModifier {key : Nat} (h : isNonModifier key = true) :
    key ≠ keyReserved ∧ isTracked key = false := by
  obtain ⟨hvalid, hmod⟩ := isNonModifier_iff.mp h
  refine ⟨ne_reserved_of_valid hvalid, ?_⟩
  rw [isTracked, isModifier_of_valid hvalid, hmod, Bool.false_and]

@[simp] theorem deleteKey_mModSequence (this : Hemiola) (ord : KeyOrder) :
    (this.deleteKey ord).mModSequence = this.mModSequence := by
  simp only [deleteKey]
  split_ifs <;> rfl

theorem addKey_mModSequence (this : Hemiola) (ord : KeyOrder) (now : Int) (key : Nat) :
    (this.addKey ord now key).mModSequence =
      if isTracked key then Toggle.toggle key this.mModSequence else this.mModSequence := by
  have hspec := addKey_spec this ord now key
  generalize this.addKey ord now key = this' at hspec ⊢
  cases hspec with
  | release hkey => rw [hkey]; rfl
  | toggle htracked => rw [if_pos htracked]
  | suspended htracked _ => rw [htracked]; rfl
  | clear _ hkey => rcases hkey with rfl | rfl <;> rfl
  | delete _ hkey =>
    rw [hkey]
    exact deleteKey_mModSequence this ord
  | capture _ hkey => rw [(isCapturable_iff.mp hkey).2.1]; rfl

/-! ## The scan of `deleteKey` -/

/-- The scan keeps the newest entry that is no modifier, if it is newer than the start value. -/
theorem newest_spec (entries : List (Nat × Int)) (acc : Nat × Int) :
    let found := entries.foldl newest acc
    acc.2 ≤ found.2 ∧
    (∀ e ∈ entries, isModifier (.ofNat e.1) = false → e.2 ≤ found.2) ∧
    (found = acc ∨
      found ∈ entries ∧ isModifier (.ofNat found.1) = false ∧ acc.2 < found.2) := by
  induction entries generalizing acc with
  | nil => simp
  | cons entry entries ih =>
    simp only [List.foldl_cons, List.mem_cons, forall_eq_or_imp]
    obtain ⟨hle, hmax, hfound⟩ := ih (newest acc entry)
    generalize entries.foldl newest (newest acc entry) = found at hle hmax hfound ⊢
    simp only [newest] at hle hfound
    split_ifs at hle hfound with hm hlt
    · refine ⟨hle, ⟨fun h => absurd h (by simp [hm]), hmax⟩, ?_⟩
      rcases hfound with h | h
      · exact .inl h
      · exact .inr ⟨.inr h.1, h.2⟩
    · simp only [Bool.not_eq_true] at hm
      refine ⟨by omega, ⟨fun _ => hle, hmax⟩, .inr ?_⟩
      rcases hfound with h | h
      · rw [h]; exact ⟨.inl rfl, hm, hlt⟩
      · exact ⟨.inr h.1, h.2.1, by omega⟩
    · refine ⟨hle, ⟨fun _ => by omega, hmax⟩, ?_⟩
      rcases hfound with h | h
      · exact .inl h
      · exact .inr ⟨.inr h.1, h.2⟩

theorem deleteKey_find? {this : Hemiola} {ord : KeyOrder} {key : Nat} {stamp : Int}
    (h : (this.deleteKey ord).mCaptured.find? key = some stamp) :
    this.mCaptured.find? key = some stamp := by
  simp only [deleteKey] at h
  split_ifs at h with h0 hall
  · exact h
  · cases h
  · rw [UnorderedMap.find?_erase] at h
    split_ifs at h
    exact h

/-! ## The sweep -/

/-- The entry was at least the threshold old when it was examined. -/
def isExpired (now : Nat → Int) (entry : Nat × Int) : Bool :=
  now entry.1 - entry.2 ≥ mTimeThreshold

theorem foldl_sweepEntry (now : Nat → Int) (entries : List (Nat × Int))
    (acc : Str × UnorderedMap Nat Int) :
    entries.foldl (sweepEntry now) acc =
      (acc.1 ++ (entries.filter (isExpired now)).flatMap fun e => charKeys e.1,
       entries.foldl (fun m e => if isExpired now e then m.erase e.1 else m) acc.2) := by
  induction entries generalizing acc with
  | nil => simp
  | cons entry entries ih =>
    rw [List.foldl_cons, ih, List.foldl_cons]
    by_cases h : isExpired now entry = true
    · have h' : now entry.1 - entry.2 ≥ mTimeThreshold := of_decide_eq_true h
      simp [sweepEntry, h, h']
    · have h' : ¬ now entry.1 - entry.2 ≥ mTimeThreshold := fun hge => h (decide_eq_true hge)
      simp [sweepEntry, h, h']

/-- The chord string is made of the expired keys, in the order of the loop. -/
theorem sweep_chord (this : Hemiola) (ord : KeyOrder) (now : Nat → Int) :
    (this.sweep ord now).1 =
      ((ord.list this.mCaptured).filter (isExpired now)).flatMap fun e => charKeys e.1 := by
  simp only [sweep, foldl_sweepEntry, List.nil_append]

@[simp] theorem sweep_mModSequence (this : Hemiola) (ord : KeyOrder) (now : Nat → Int) :
    (this.sweep ord now).2.mModSequence = this.mModSequence := rfl

theorem sweep_find? (this : Hemiola) (ord : KeyOrder) (now : Nat → Int) (key : Nat) :
    (this.sweep ord now).2.mCaptured.find? key =
      (this.mCaptured.find? key).filter fun stamp => !isExpired now (key, stamp) := by
  simp only [sweep, foldl_sweepEntry, UnorderedMap.find?_foldl_erase]
  cases hf : this.mCaptured.find? key with
  | none => simp
  | some stamp =>
    have hmem := (ord.mem_list this.mCaptured).mpr (UnorderedMap.find?_eq_some_iff.mp hf)
    have huniq : ∀ e ∈ ord.list this.mCaptured, e.1 = key → e = (key, stamp) := by
      intro e he hk
      obtain ⟨k, t⟩ := e
      have hk : k = key := hk
      subst hk
      have ht := UnorderedMap.find?_eq_some_iff.mpr ((ord.mem_list this.mCaptured).mp he)
      rw [hf] at ht
      cases ht; rfl
    cases hx : isExpired now (key, stamp) with
    | true =>
      rw [if_pos ⟨(key, stamp), hmem, rfl, hx⟩, Option.filter_some, hx]
      rfl
    | false =>
      rw [if_neg, Option.filter_some, hx]
      · rfl
      · intro h
        obtain ⟨e, he, hk, hp⟩ := h
        rw [huniq e he hk, hx] at hp
        cases hp

theorem sweep_find?_eq_some {this : Hemiola} {ord : KeyOrder} {now : Nat → Int} {key : Nat}
    {stamp : Int} :
    (this.sweep ord now).2.mCaptured.find? key = some stamp ↔
      this.mCaptured.find? key = some stamp ∧ isExpired now (key, stamp) = false := by
  rw [sweep_find?, Option.filter_eq_some_iff, Bool.not_eq_true']

/-! ## Runs -/

/-- One call of `addKey`, or one round of the timer loop. -/
inductive Op where
  | addKey (ord : KeyOrder) (now : Int) (key : Nat)
  | sweep (ord : KeyOrder) (now : Nat → Int)

def step (this : Hemiola) : Op → Hemiola
  | .addKey ord now key => this.addKey ord now key
  | .sweep ord now => (this.sweep ord now).2

/-- Of a round of the timer loop only the sweep touches the captured keys and the modifiers. -/
theorem round_eq_step (this : Hemiola) (chords : KeyChords) (ord : KeyOrder) (now : Nat → Int)
    (memory : Nat → UInt8) :
    (this.round chords ord now memory).1 = this.step (.sweep ord now) := rfl

/-- The state after a series of calls and rounds. -/
def run (this : Hemiola) (ops : List Op) : Hemiola := ops.foldl step this

@[simp] theorem run_nil (this : Hemiola) : this.run [] = this := rfl

@[simp] theorem run_cons (this : Hemiola) (op : Op) (ops : List Op) :
    this.run (op :: ops) = (this.step op).run ops := rfl

end Hemiola
end Hemiola

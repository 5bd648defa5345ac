import Hemiola.Lib.Ledger
import Hemiola.Wiring

/-!
# Hemiola.Conservation

What becomes of the keys that are captured. In a run of the program a key is entered in
`m_Captured` by `addKey`, and leaves it when `addKey` gets SPACE, ENTER or BACKSPACE, or when a
round of the timer loop writes a report for it. The reports tell which key they are for if its
representation is a character of its own, which no other representation contains (`OwnChar`).

* `reportsOf_outputLoop`, `count_flatMap_charKeys`: the reports of a key are its representations.
* `booked_addKey`, `booked_round`: the books of one input balance.
* `keys_conserved`: and so do those of a run.
-/

set_option linter.dupNamespace false

namespace Hemiola

open Lib KeyTable KeyChords

/-! ## Reports -/

/-- The representation of `k` is `c`, which is in no other representation. -/
def OwnChar (k : Nat) (c : Char) : Prop :=
  charKeys k = [c] ∧ ∀ e ∈ mCharKeys.entries, c ∈ e.2 → e.1 = k

instance (k : Nat) (c : Char) : Decidable (OwnChar k c) := inferInstanceAs (Decidable (_ ∧ _))

/-- The slash is the only character that is a representation and in the name of another key. -/
theorem ownChar_of_single {k : Nat} {c : Char} (h : charKeys k = [c]) (hslash : k ≠ keySlash) :
    OwnChar k c := by
  have htable : ∀ e ∈ mCharKeys.entries, ∀ e' ∈ mCharKeys.entries,
      e.2.length = 1 → e.1 ≠ keySlash → e.2.head? ∈ e'.2.map some → e'.1 = e.1 := by
    decide +kernel
  have hkey : isCharKey k = true := by
    by_contra hnot
    rw [charKeys_of_not_charKey (Bool.eq_false_of_not_eq_true hnot)] at h
    cases h
  refine ⟨h, fun e he hc => htable _ (charKeys_mem hkey) e he ?_ hslash ?_⟩
  · rw [h]
    rfl
  · rw [h]
    exact List.mem_map_of_mem hc

theorem OwnChar.isCharKey {k : Nat} {c : Char} (h : OwnChar k c) : isCharKey k = true := by
  by_contra hnot
  have hnone := charKeys_of_not_charKey (Bool.eq_false_of_not_eq_true hnot)
  rw [h.1] at hnone
  cases hnone

/-- How many of the reports have the key in one of their slots. -/
def reportsOf (k : Nat) (reports : List KeyReport) : Nat :=
  reports.countP fun report => scanToHex k ∈ report.keys.slots

/-- Only the report of the character of a key has the key in it. -/
theorem mem_charReport {k : Nat} {c : Char} (h : OwnChar k c) (memory : UInt8) (d : Char) :
    scanToHex k ∈ (Hemiola.charReport memory d).keys.slots ↔ d = c := by
  have hsingle : IsSingle c := ⟨k, h.isCharKey, h.1⟩
  have husage : scanToHex k = charUsage c := by
    rw [charUsage, ← h.1, getKeyCode_charKeys h.isCharKey]
  have hne := hsingle.usage_ne_zero
  rw [charReport_slots, husage]
  simp only [List.mem_cons, hne, List.not_mem_nil, or_false]
  by_cases hd : IsSingle d
  · rw [hsingle.usage_inj hd, eq_comm]
  · refine iff_of_false ?_ fun heq => hd (heq ▸ hsingle)
    rw [charUsage.eq_def d, getKeyCode_of_not_single hd]
    exact hne

theorem reportsOf_outputLoop {k : Nat} {c : Char} (h : OwnChar k c) (memory : Nat → UInt8)
    (i : Nat) (word : Str) :
    reportsOf k (Hemiola.outputLoop memory i word) = word.count c := by
  induction word generalizing i with
  | nil => rfl
  | cons d word ih =>
    rw [Hemiola.outputLoop, reportsOf, List.countP_cons, ← reportsOf, ih, List.count_cons]
    simp only [mem_charReport h, decide_eq_true_eq, beq_iff_eq]

theorem count_flatMap_charKeys {k : Nat} {c : Char} (h : OwnChar k c) (keys : List Nat) :
    (keys.flatMap charKeys).count c = keys.count k := by
  induction keys with
  | nil => rfl
  | cons key keys ih =>
    rw [List.flatMap_cons, List.count_append, ih, List.count_cons, Nat.add_comm]
    congr 1
    by_cases hkey : key = k
    · rw [hkey, h.1, if_pos (beq_self_eq_true k), List.count_singleton_self]
    · rw [if_neg (by simpa using hkey), List.count_eq_zero]
      intro hc
      have hchar : isCharKey key = true := by
        by_contra hnot
        rw [charKeys_of_not_charKey (Bool.eq_false_of_not_eq_true hnot)] at hc
        cases hc
      exact hkey (h.2 _ (charKeys_mem hchar) hc)

namespace Hemiola

/-! ## The books -/

def stock (k : Nat) (this : Hemiola) : Nat := if k ∈ this.mCaptured.keys then 1 else 0

/-- `addKey` enters the key with the time of this call. -/
def enters (k : Nat) (this : Hemiola) (key : Nat) : Nat :=
  if key = k ∧ this.mModSequence = [] ∧ isCapturable k = true then 1 else 0

/-- The key is entered anew while its last capture is still there. -/
def reenters (k : Nat) (this : Hemiola) (key : Nat) : Nat :=
  if k ∈ this.mCaptured.keys then this.enters k key else 0

/-- The key goes with a SPACE, ENTER or BACKSPACE; `this'` is the state after the call. -/
def deletes (k : Nat) (this this' : Hemiola) (key : Nat) : Nat :=
  if (key = keySpace ∨ key = keyEnter ∨ key = keyBackspace) ∧ k ∈ this.mCaptured.keys ∧
    k ∉ this'.mCaptured.keys then 1 else 0

/-- The books of a call balance. -/
def Booked (k : Nat) (this this' : Hemiola) (key : Nat) : Prop :=
  this.stock k + this.enters k key =
    this'.stock k + (this.reenters k key + deletes k this this' key)

section Books

variable {this this' : Hemiola} {k key : Nat}

theorem enters_eq_zero
    (h : key = k → this.mModSequence = [] → isCapturable k = false) : this.enters k key = 0 := by
  rw [enters, if_neg]
  rintro ⟨hkey, hmods, hcap⟩
  rw [h hkey hmods] at hcap
  cases hcap

/-- A call that leaves the captured keys as they are. -/
theorem booked_same (hmap : this'.mCaptured = this.mCaptured)
    (h : key = k → this.mModSequence = [] → isCapturable k = false) : Booked k this this' key := by
  have hdeletes : deletes k this this' key = 0 := if_neg fun hdel => hdel.2.2 (hmap ▸ hdel.2.1)
  rw [Booked, reenters, enters_eq_zero h, hdeletes, stock, stock, hmap, ite_self]

/-- A call that takes some of the captured keys away. -/
theorem booked_fewer (hkey : key = keySpace ∨ key = keyEnter ∨ key = keyBackspace)
    (hsub : k ∈ this'.mCaptured.keys → k ∈ this.mCaptured.keys) : Booked k this this' key := by
  have hzero : this.enters k key = 0 := enters_eq_zero fun hk _ => by
    subst hk
    rcases hkey with rfl | rfl | rfl <;> rfl
  rw [Booked, reenters, hzero, deletes, stock, stock, ite_self]
  by_cases hin : k ∈ this.mCaptured.keys
  · by_cases hin' : k ∈ this'.mCaptured.keys
    · simp [hin, hin']
    · simp [hin, hin', hkey]
  · simp [hin, mt hsub hin]

theorem booked_capture (now : Int) (hmods : this.mModSequence = [])
    (hcap : isCapturable key = true) :
    Booked k this { this with mCaptured := this.mCaptured.set key now } key := by
  obtain ⟨_, _, hspace, henter, hback⟩ := isCapturable_iff.mp hcap
  have hdeletes : deletes k this { this with mCaptured := this.mCaptured.set key now } key = 0 :=
    if_neg fun hdel => by
      rcases hdel.1 with h | h | h
      · exact hspace h
      · exact henter h
      · exact hback h
  rw [Booked, hdeletes, reenters, stock, stock]
  simp only [UnorderedMap.mem_keys_set]
  by_cases hk : key = k
  · subst hk
    have hone : this.enters key key = 1 := if_pos ⟨rfl, hmods, hcap⟩
    by_cases hin : key ∈ this.mCaptured.keys
    · simp [hone, hin]
    · simp [hone, hin]
  · have hzero : this.enters k key = 0 := if_neg fun h => hk h.1
    rw [hzero, ite_self]
    simp [Ne.symm hk]

theorem booked_addKey (this : Hemiola) (ord : KeyOrder) (now : Int) (k key : Nat) :
    Booked k this (this.addKey ord now key) key := by
  have hspec := addKey_spec this ord now key
  generalize this.addKey ord now key = this' at hspec ⊢
  cases hspec with
  | release hkey =>
    refine booked_same rfl fun hk _ => ?_
    rw [← hk, hkey]
    rfl
  | toggle htracked => exact booked_same rfl fun hk _ => by simp [isCapturable, ← hk, htracked]
  | suspended _ hmods => exact booked_same rfl fun _ hnil => absurd hnil hmods
  | clear _ hkey => exact booked_fewer (hkey.imp_right .inl) fun hin => absurd hin (by simp)
  | delete _ hkey =>
    refine booked_fewer (.inr (.inr hkey)) fun hin => ?_
    obtain ⟨stamp, hstamp⟩ := UnorderedMap.mem_keys_iff.mp hin
    exact UnorderedMap.mem_keys_iff.mpr ⟨stamp, deleteKey_find? hstamp⟩
  | capture hmods hcap => exact booked_capture now hmods hcap

end Books

/-- A key that leaves with a sweep is in the chord string once. -/
theorem booked_sweep (this : Hemiola) (ord : KeyOrder) (now : Nat → Int) {k : Nat} {c : Char}
    (hk : OwnChar k c) :
    this.stock k = (this.sweep ord now).2.stock k + (this.sweep ord now).1.count c := by
  have hchord : (this.sweep ord now).1.count c =
      (((ord.list this.mCaptured).filter (isExpired now)).map Prod.fst).count k := by
    rw [sweep_chord, ← count_flatMap_charKeys hk, List.flatMap_map]
  have hnodup : (((ord.list this.mCaptured).filter (isExpired now)).map Prod.fst).Nodup :=
    (ord.nodup_list this.mCaptured).sublist (List.filter_sublist.map Prod.fst)
  have hmem : k ∈ ((ord.list this.mCaptured).filter (isExpired now)).map Prod.fst ↔
      ∃ stamp, this.mCaptured.find? k = some stamp ∧ isExpired now (k, stamp) = true := by
    simp [List.mem_map, UnorderedMap.Order.mem_list, UnorderedMap.find?_eq_some_iff]
  have hleft : k ∈ (this.sweep ord now).2.mCaptured.keys ↔
      ∃ stamp, this.mCaptured.find? k = some stamp ∧ isExpired now (k, stamp) = false := by
    simp only [UnorderedMap.mem_keys_iff, sweep_find?_eq_some]
  rw [hchord, hnodup.count, stock, stock]
  cases hfind : this.mCaptured.find? k with
  | none => simp [hmem, hleft, UnorderedMap.mem_keys_iff, hfind]
  | some stamp =>
    cases hexp : isExpired now (k, stamp) with
    | true => simp [hmem, hleft, UnorderedMap.mem_keys_iff, hfind, hexp]
    | false => simp [hmem, hleft, UnorderedMap.mem_keys_iff, hfind, hexp]

end Hemiola

namespace Program

/-- The key number that an input delivers to `addKey`. -/
def delivered (this : Program) : Input → Option Nat
  | .event event result _ _ _ =>
    if result ≤ 0 then none else some (this.main.eventHandler.updateKeyState event).mKeyRep
  | .round _ _ _ => none

def stock (k : Nat) (this : Program) : Nat := this.main.hemiola.stock k

def captures (k : Nat) (this : Program) (input : Input) : Nat :=
  match this.delivered input with
  | some key => this.main.hemiola.enters k key
  | none => 0

def recaptures (k : Nat) (this : Program) (input : Input) : Nat :=
  match this.delivered input with
  | some key => this.main.hemiola.reenters k key
  | none => 0

def deletes (k : Nat) (this : Program) (input : Input) : Nat :=
  match this.delivered input with
  | some key => Hemiola.deletes k this.main.hemiola (this.step input).main.hemiola key
  | none => 0

/-- How many reports with the key the timer loop writes in this round. -/
def types (k : Nat) (this : Program) : Input → Nat
  | .event _ _ _ _ _ => 0
  | .round ord now memory => reportsOf k (this.main.hemiola.round this.chords ord now memory).2.2

theorem booked_event (this : Program) (event : InputEvent) (result errno : Int) (ord : KeyOrder)
    (now : Int) (k : Nat) :
    let input := Input.event event result errno ord now
    this.stock k + this.captures k input =
      (this.step input).stock k + (this.recaptures k input + this.deletes k input) := by
  intro input
  simp only [captures, recaptures, deletes, delivered, input, stock, step]
  by_cases hresult : result ≤ 0
  · rw [if_pos hresult, Main.pass_of_failed this.main hresult]
    rfl
  · rw [if_neg hresult, Main.pass_eq_deliver this.main (not_le.mp hresult)]
    exact Hemiola.booked_addKey this.main.hemiola ord now k _

theorem booked_round {this : Program} {ord : KeyOrder} {now : Nat → Int}
    (htyped : this.typed ord now = this.chord ord now) (memory : Nat → UInt8) {k : Nat} {c : Char}
    (hk : OwnChar k c) :
    this.stock k = (this.step (.round ord now memory)).stock k +
      this.types k (.round ord now memory) := by
  rw [types, round_reports, reportsOf_outputLoop hk, htyped]
  exact this.main.hemiola.booked_sweep ord now hk

/-- **No key is lost.** In every run of the program each capture of a key with a character of its
own ends in one of three ways: a round of the timer loop writes a report with the key, another
capture of the key takes its place, or it goes with a SPACE, ENTER or BACKSPACE; or the key is
still captured. So no such key is typed more often than it was captured. -/
theorem keys_conserved (config : Config) (inputs : List Input) {k : Nat} {c : Char}
    (hk : OwnChar k c) :
    Trace.total step (captures k) (start config) inputs =
      ((start config).run inputs).stock k +
        (Trace.total step (types k) (start config) inputs +
          (Trace.total step (recaptures k) (start config) inputs +
            Trace.total step (deletes k) (start config) inputs)) := by
  have hinv : ∀ this input, (∃ inputs, this = (start config).run inputs) →
      ∃ inputs, step this input = (start config).run inputs := by
    rintro _ input ⟨inputs, rfl⟩
    exact ⟨inputs ++ [input], (List.foldl_concat ..).symm⟩
  have hstep : ∀ this input, (∃ inputs, this = (start config).run inputs) →
      stock k this + captures k this input = stock k (step this input) +
        (types k this input + (recaptures k this input + deletes k this input)) := by
    rintro _ input ⟨inputs, rfl⟩
    cases input with
    | event event result errno ord now =>
      have hevent := ((start config).run inputs).booked_event event result errno ord now k
      simp only [types]
      omega
    | round ord now memory =>
      exact booked_round (typed_eq_chord config inputs ord now) memory hk
  have hbooks := Trace.ledger hinv hstep (s := start config) inputs ⟨[], rfl⟩
  rw [Trace.total_add, Trace.total_add] at hbooks
  have hstart : (start config).stock k = 0 := rfl
  rw [hstart, Nat.zero_add] at hbooks
  exact hbooks

/-- `A` is pressed, typed by a round, and pressed again. -/
theorem keys_conserved_again :
    let config : Config := ⟨none, none, none, none⟩
    let ord := UnorderedMap.Order.stored Nat Int
    let inputs : List Input :=
      [.event (.make keyA) 8 0 ord 1, .event (.break keyA) 0 5 ord 2,
       .round ord (fun _ => 400 * 1000000) (fun _ => 0),
       .event (.make keyA) 8 0 ord (401 * 1000000)]
    Trace.total step (types keyA) (start config) inputs = 1 := by
  intro config ord inputs
  have hbooks := keys_conserved config inputs (k := keyA) (c := 'a') (by decide)
  have hcaptures : Trace.total step (captures keyA) (start config) inputs = 2 := by
    decide +kernel
  have hothers : ((start config).run inputs).stock keyA = 1 ∧
      Trace.total step (recaptures keyA) (start config) inputs = 0 ∧
      Trace.total step (deletes keyA) (start config) inputs = 0 := by
    decide +kernel
  omega

end Program
end Hemiola

import Mathlib.Data.List.Basic

/-!
# Lib.Flags

A byte of flags: raised with `|||`, lowered with `&&& ~~~`.

* `Up m b`: some bit of `b` is raised in `m`. Raising or lowering one flag leaves the flags
  disjoint from it alone (`up_raise_of_disjoint`, `up_lower_of_disjoint`).
* `join bit ks`: the flags of all keys in `ks` raised. `join_raise` and `join_lower` say that
  raising and lowering one flag of a byte follows a key joining and leaving the set.
-/

namespace Lib
namespace Flags

/-- Some bit of `b` is raised in `m`. -/
def Up (m b : UInt8) : Prop := m &&& b ≠ 0

instance (m b : UInt8) : Decidable (Up m b) := inferInstanceAs (Decidable (m &&& b ≠ 0))

theorem ext_bit {m b : UInt8} (h : ∀ i, m.toBitVec.getLsbD i = b.toBitVec.getLsbD i) : m = b :=
  UInt8.toBitVec_inj.mp (BitVec.eq_of_getLsbD_eq fun i _ => h i)

theorem not_both {m b : UInt8} (h : m &&& b = 0) (i : Nat) :
    m.toBitVec.getLsbD i = true → b.toBitVec.getLsbD i = false := by
  intro hm
  have := congrArg (fun x : UInt8 => x.toBitVec.getLsbD i) h
  simpa [hm] using this

theorem raise_and (m b c : UInt8) : (m ||| b) &&& c = (m &&& c) ||| (b &&& c) := by
  apply ext_bit
  intro i
  simp [Bool.and_or_distrib_right]

theorem up_raise_of_disjoint {m b c : UInt8} (h : b &&& c = 0) : Up (m ||| b) c ↔ Up m c := by
  rw [Up, raise_and, h, UInt8.or_zero, Up]

theorem up_raise_self {m b : UInt8} (hb : b ≠ 0) : Up (m ||| b) b := by
  rw [Up, raise_and, UInt8.and_self]
  intro h
  exact hb (UInt8.or_eq_zero_iff.mp h).2

theorem lower_and_of_disjoint {m b c : UInt8} (h : b &&& c = 0) : m &&& ~~~b &&& c = m &&& c := by
  apply ext_bit
  intro i
  have hd := not_both h i
  simp only [UInt8.toBitVec_and, UInt8.toBitVec_not, BitVec.getLsbD_and, BitVec.getLsbD_not]
  by_cases hi : i < 8
  · cases hb : b.toBitVec.getLsbD i with
    | false => simp only [hi, decide_true, Bool.not_false, Bool.and_true]
    | true => rw [hd hb, Bool.and_false, Bool.and_false]
  · rw [BitVec.getLsbD_of_ge m.toBitVec i (by omega)]
    simp

theorem up_lower_of_disjoint {m b c : UInt8} (h : b &&& c = 0) :
    Up (m &&& ~~~b) c ↔ Up m c := by
  rw [Up, lower_and_of_disjoint h, Up]

theorem not_up_lower_self (m b : UInt8) : ¬ Up (m &&& ~~~b) b := by
  rw [Up, not_not, UInt8.and_assoc, UInt8.not_and_self, UInt8.and_zero]

section Join

variable {κ : Type*} [DecidableEq κ] {bit : κ → UInt8} {ks : List κ}

/-- The flags of all the keys in `ks` raised. -/
def join (bit : κ → UInt8) (ks : List κ) : UInt8 := ks.foldr (fun k m => bit k ||| m) 0

omit [DecidableEq κ] in
theorem join_getLsbD (i : Nat) :
    (join bit ks).toBitVec.getLsbD i = ks.any fun k => (bit k).toBitVec.getLsbD i := by
  induction ks with
  | nil => simp [join]
  | cons k ks ih =>
    rw [List.any_cons, ← ih]
    simp [join]

omit [DecidableEq κ] in
theorem join_filter_none {p : κ → Bool} (h : ∀ k ∈ ks, p k = false) :
    join bit (ks.filter p) = 0 := by
  rw [List.filter_eq_nil_iff.mpr fun k hk => by simp [h k hk]]
  rfl

/-- Raising the flag of `k` follows `k` joining the keys. -/
theorem join_raise {k : κ} (hk : k ∈ ks) (p : κ → Bool) :
    join bit (ks.filter p) ||| bit k = join bit (ks.filter fun j => p j || j = k) := by
  apply ext_bit
  intro i
  rw [UInt8.toBitVec_or, BitVec.getLsbD_or, join_getLsbD, join_getLsbD, List.any_filter,
    List.any_filter, Bool.eq_iff_iff]
  simp only [Bool.or_eq_true, List.any_eq_true, Bool.and_eq_true, decide_eq_true_eq]
  constructor
  · rintro (⟨j, hj, hp, hb⟩ | hb)
    · exact ⟨j, hj, .inl hp, hb⟩
    · exact ⟨k, hk, .inr rfl, hb⟩
  · rintro ⟨j, hj, hp | rfl, hb⟩
    · exact .inl ⟨j, hj, hp, hb⟩
    · exact .inr hb

/-- Lowering the flag of `k`, disjoint from those of the others, follows `k` leaving the keys. -/
theorem join_lower {k : κ} (hd : ∀ j ∈ ks, j ≠ k → bit k &&& bit j = 0) (p : κ → Bool) :
    join bit (ks.filter p) &&& ~~~bit k = join bit (ks.filter fun j => p j && j ≠ k) := by
  apply ext_bit
  intro i
  by_cases hi : i < 8
  · rw [UInt8.toBitVec_and, BitVec.getLsbD_and, join_getLsbD, join_getLsbD, List.any_filter,
      List.any_filter, UInt8.toBitVec_not, BitVec.getLsbD_not, Bool.eq_iff_iff]
    simp only [hi, decide_true, Bool.true_and, Bool.and_eq_true, List.any_eq_true,
      Bool.not_eq_true', decide_eq_true_eq]
    constructor
    · rintro ⟨⟨j, hj, hp, hb⟩, hk⟩
      exact ⟨j, hj, ⟨hp, by rintro rfl; simp [hb] at hk⟩, hb⟩
    · rintro ⟨j, hj, ⟨hp, hne⟩, hb⟩
      refine ⟨⟨j, hj, hp, hb⟩, ?_⟩
      cases hk : (bit k).toBitVec.getLsbD i with
      | false => rfl
      | true => rw [not_both (hd j hj hne) i hk] at hb; exact absurd hb (by simp)
  · rw [BitVec.getLsbD_of_ge _ _ (by omega), BitVec.getLsbD_of_ge _ _ (by omega)]

end Join

end Flags
end Lib

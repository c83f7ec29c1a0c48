import Mathlib.Data.Int.Bitwise
import Mathlib.Data.Nat.Bitwise

/-! # Bits of integers

An integer is determined by its bits, which go on without end as its sign (`eq_of_testBit_eq`).  So
what holds of bits holds of masks over the integers, and masking 64-bit integers is masking what they
stand for (`toInt_and`). -/
namespace MemoryTrigger.IntegerBits

theorem not_forall_testBit_eq_not (m n : Nat) : ¬ ∀ i, m.testBit i = !n.testBit i := by
  intro h
  have hbelow (k : Nat) (hk : k ≤ m + n) : k.testBit (m + n) = false := by
    refine Nat.testBit_lt_two_pow (Nat.lt_of_lt_of_le Nat.lt_two_pow_self ?_)
    exact Nat.pow_le_pow_right (by decide) hk
  have hbit := h (m + n)
  rw [hbelow m (by omega), hbelow n (by omega)] at hbit
  cases hbit

/-- An integer is determined by its bits; those of a negative number do not end. -/
theorem eq_of_testBit_eq {a b : Int} (h : ∀ i, a.testBit i = b.testBit i) : a = b := by
  cases a with
  | ofNat m =>
    cases b with
    | ofNat n => exact congrArg Int.ofNat (Nat.eq_of_testBit_eq h)
    | negSucc n => exact absurd h (not_forall_testBit_eq_not m n)
  | negSucc m =>
    cases b with
    | ofNat n => exact absurd (fun i => (h i).symm) (not_forall_testBit_eq_not n m)
    | negSucc n => exact congrArg Int.negSucc (Nat.eq_of_testBit_eq fun i => Bool.not_inj (h i))

theorem land_assoc (a b c : Int) : (a.land b).land c = a.land (b.land c) := by
  refine eq_of_testBit_eq fun i => ?_
  rw [Int.testBit_land, Int.testBit_land, Int.testBit_land, Int.testBit_land, Bool.and_assoc]

theorem land_comm (a b : Int) : a.land b = b.land a := by
  refine eq_of_testBit_eq fun i => ?_
  rw [Int.testBit_land, Int.testBit_land, Bool.and_comm]

/-- The bits of a signed word go on as its sign. -/
theorem testBit_toInt {w : Nat} (x : BitVec w) (i : Nat) :
    x.toInt.testBit i = if i < w then x.getLsbD i else x.msb := by
  cases hsign : x.msb with
  | false =>
    have hvalue : x.toInt = Int.ofNat x.toNat := BitVec.toInt_eq_toNat_of_msb hsign
    rw [hvalue]
    change x.getLsbD i = _
    split
    · rfl
    · exact x.getLsbD_of_ge i (by omega)
  | true =>
    have hvalue : x.toInt = Int.negSucc (~~~x).toNat := by
      have hlt := x.isLt
      rw [BitVec.toInt_eq_msb_cond, if_pos hsign, BitVec.toNat_not, Int.negSucc_eq]
      omega
    rw [hvalue]
    change (!(~~~x).getLsbD i) = _
    rw [BitVec.getLsbD_not]
    split <;> simp_all

theorem toInt_and (a b : Int64) : (a &&& b).toInt = a.toInt.land b.toInt := by
  refine eq_of_testBit_eq fun i => ?_
  simp only [← Int64.toInt_toBitVec, Int.testBit_land, testBit_toInt, Int64.toBitVec_and,
    BitVec.getLsbD_and, BitVec.msb_and]
  split <;> rfl

end MemoryTrigger.IntegerBits

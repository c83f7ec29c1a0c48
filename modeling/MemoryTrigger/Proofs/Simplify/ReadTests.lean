import MemoryTrigger.Proofs.ReadValues
import MemoryTrigger.Proofs.Simplify.Settling
import Mathlib.Data.Nat.Find

/-! # Tests of one read

A row that compares a read with a literal is decided by the value of the read (`Row.holdsAt`).  Its
plainest form compares the read with a literal on its right (`Row.IsBoundOf`), and is settled if all
values of the read agree on it (`Row.IsAbout.normalize_eq_constant`).

Two comparisons of one value need not come down to one: a value may be above one literal and differ
from another.  But if the first excludes zero and the second excludes the least value of the first,
they do (`Relation.exists_holds_and`), since what the first allows is one value, or all values from
the least one on. -/
namespace MemoryTrigger

/-! ## Comparisons of a value -/

namespace Relation

/-- A comparison that excludes zero allows its least value only, or all values from there on. -/
theorem holds_iff_of_least {r : Relation} {a low : Nat} (hzero : r.holds 0 a = false)
    (hlow : r.holds low a = true) (hleast : ∀ x < low, r.holds x a = false) :
    (∀ x, r.holds x a = true ↔ x = low) ∨ ∀ x, r.holds x a = true ↔ low ≤ x := by
  have hbelow := hleast (low - 1)
  cases r <;> simp only [holds, decide_eq_true_iff, decide_eq_false_iff_not] at *
  case eq => exact .inl fun x => by omega
  case lt => omega
  case le => omega
  all_goals exact .inr fun x => by omega

theorem exists_least {r : Relation} {a x : UInt32} (h : r.holds x.toNat a.toNat = true) :
    ∃ low ≤ x, r.holds low.toNat a.toNat = true ∧ ∀ n < low.toNat, r.holds n a.toNat = false := by
  have hexists : ∃ n : Nat, r.holds n a.toNat = true := ⟨_, h⟩
  have hle : Nat.find hexists ≤ x.toNat := Nat.find_le h
  have hword : (UInt32.ofNat (Nat.find hexists)).toNat = Nat.find hexists :=
    UInt32.toNat_ofNat_of_lt' (Nat.lt_of_le_of_lt hle x.toNat_lt)
  refine ⟨.ofNat (Nat.find hexists), UInt32.le_iff_toNat_le.mpr (by rwa [hword]), ?_, ?_⟩
  · rw [hword]
    exact Nat.find_spec hexists
  · rw [hword]
    exact fun n hn => eq_false_of_ne_true (Nat.find_min hexists hn)

/-- What a comparison that excludes `low` allows from there on is nothing, or what one comparison
with the same literal allows. -/
theorem holds_above_of_excluded {s : Relation} {b low : Nat} (h : s.holds low b = false) :
    (∀ x, low ≤ x → s.holds x b = false) ∨
      ∃ relation : Relation, ∀ x, (low ≤ x ∧ s.holds x b = true) ↔ relation.holds x b = true := by
  cases s <;> simp only [holds, decide_eq_true_iff, decide_eq_false_iff_not] at *
  case lt => exact .inl fun x hx => by omega
  case le => exact .inl fun x hx => by omega
  case ne => exact .inr ⟨gt, fun x => by simp only [decide_eq_true_iff]; omega⟩
  case gt => exact .inr ⟨gt, fun x => by simp only [decide_eq_true_iff]; omega⟩
  case ge => exact .inr ⟨ge, fun x => by simp only [decide_eq_true_iff]; omega⟩
  case eq =>
    rcases Nat.lt_or_ge b low with hb | hb
    · exact .inl fun x hx => by omega
    · exact .inr ⟨eq, fun x => by simp only [decide_eq_true_iff]; omega⟩

/-- **A comparison that excludes zero, and another one that excludes its least value, come down to
one comparison.** -/
theorem exists_holds_and {r s : Relation} {a b : UInt32} {low : Nat}
    (hzero : r.holds 0 a.toNat = false) (hlow : r.holds low a.toNat = true)
    (hleast : ∀ x < low, r.holds x a.toNat = false) (hexcluded : s.holds low b.toNat = false) :
    ∃ (relation : Relation) (value : UInt32), ∀ x : Nat,
      (r.holds x a.toNat = true ∧ s.holds x b.toNat = true) ↔
        relation.holds x value.toNat = true := by
  by_cases hnone : ∀ x, r.holds x a.toNat = true → s.holds x b.toNat = false
  · refine ⟨.lt, 0, fun x => iff_of_false ?_ (by simp [holds])⟩
    rintro ⟨hr, hs⟩
    simp [hnone x hr] at hs
  rcases holds_iff_of_least hzero hlow hleast with hset | hset
  · refine absurd (fun x hx => ?_) hnone
    rwa [(hset x).mp hx]
  · simp only [hset] at hnone ⊢
    rcases holds_above_of_excluded hexcluded with habove | ⟨relation, habove⟩
    · exact absurd habove hnone
    · exact ⟨relation, b, habove⟩

end Relation

namespace RangeTest

/-- **A comparison that all values of the range pass alike is settled.** -/
theorem ofBit_ofRange_of_forall {max : UInt32} (hmax : 0 < max) {relation : Relation}
    {value : UInt32} {truth : Bool} (h : ∀ x ≤ max, relation.holds x value = truth) :
    ofBit max (ofRange max relation value) = always truth := by
  -- zero, the largest value and the literal itself tell
  have hlow := h 0 UInt32.zero_le
  have hhigh := h max (UInt32.le_refl _)
  have hvalue := h value
  cases truth <;> cases relation <;> simp only [ofRange, Relation.holds] at * <;> repeat' split
  all_goals simp only [ofBit]
  all_goals grind

/-- The row of a test of an operand, with the literal that it compares with on the right. -/
def toRow (o p : Operand) : RangeTest → Row
  | always truth => .constant truth
  | compare relation value => .comparing o relation { p with value }

end RangeTest

/-! ## Rows that test one read -/

namespace Operand

/-- The value of an operand where `o` reads as `x`. -/
def valueAt (o : Operand) (x : UInt32) (p : Operand) : UInt32 := if p = o then x else p.value

theorem valueAt_self (o : Operand) (x : UInt32) : o.valueAt x o = x := if_pos rfl

theorem valueAt_of_isLiteral {o p : Operand} (ho : o.isMemory = true) (hp : p.isLiteral = true)
    (x : UInt32) : o.valueAt x p = p.value := if_neg (ne_of_isLiteral ho hp)

end Operand

namespace Row

/-- Whether a row is a filter without hit target that compares the operand with a literal, on either
side. -/
def isTestOf (o : Operand) (r : Row) : Bool :=
  r.role == .plain && r.hits == 0 && r.isComparison &&
    (r.left == o && r.right.isLiteral || r.left.isLiteral && r.right == o)

/-- Whether the comparison of a row holds where `o` reads as `x`. -/
def holdsAt (o : Operand) (x : UInt32) (r : Row) : Bool :=
  (r.operator.test? (o.valueAt x r.left) (o.valueAt x r.right)).getD false

/-- A filter that compares and counts no hits. -/
structure IsFilter (r : Row) : Prop where
  role : r.role = .plain
  hits : r.hits = 0
  compares : r.isComparison = true

/-- A settled row, or a comparison of the operand with a literal on its right. -/
inductive IsBoundOf (o : Operand) : Row → Prop
  | constant (truth : Bool) : IsBoundOf o (.constant truth)
  | comparing (relation : Relation) (p : Operand) :
      p.isLiteral = true → IsBoundOf o (.comparing o relation p)

/-- A settled row, or a comparison of the operand with a literal. -/
inductive IsAbout (o : Operand) : Row → Prop
  | bound {r : Row} : r.IsBoundOf o → IsAbout o r
  | reversed (relation : Relation) (p : Operand) :
      p.isLiteral = true → IsAbout o (.comparing p relation o)

section About
variable {o p : Operand} {r : Row} {x : UInt32} {relation : Relation} {truth : Bool}

theorem isAbout_of_isTestOf (h : r.isTestOf o = true) : r.IsAbout o := by
  obtain ⟨left, operator, right, role, hits⟩ := r
  simp only [isTestOf, isComparison, Bool.and_eq_true, Bool.or_eq_true, beq_iff_eq] at h
  obtain ⟨⟨⟨rfl, rfl⟩, hop⟩, hsides⟩ := h
  cases operator with
  | absent => cases hop
  | arith => cases hop
  | compare relation =>
    rcases hsides with ⟨rfl, hright⟩ | ⟨hleft, rfl⟩
    · exact .bound (.comparing relation right hright)
    · exact .reversed relation left hleft

theorem IsBoundOf.isFilter (h : r.IsBoundOf o) : r.IsFilter := by
  cases h with
  | constant truth => cases truth <;> exact ⟨rfl, rfl, rfl⟩
  | comparing => exact ⟨rfl, rfl, rfl⟩

theorem IsBoundOf.left_eq (h : r.IsBoundOf o) (hleft : r.left.isMemory = true) : r.left = o := by
  cases h with
  | constant truth => cases truth <;> cases hleft
  | comparing => rfl

theorem IsAbout.isFilter (h : r.IsAbout o) : r.IsFilter := by
  cases h with
  | bound h => exact h.isFilter
  | reversed => exact ⟨rfl, rfl, rfl⟩

/-! ### Where the read has a value -/

theorem holdsAt_constant (ho : o.isMemory = true) : (constant truth).holdsAt o x = truth := by
  have hvalue (value : UInt32) : o.valueAt x (.literal value) = value :=
    Operand.valueAt_of_isLiteral ho rfl x
  cases truth <;>
    simp [holdsAt, constant, alwaysTrue, alwaysFalse, comparing, hvalue, Operator.test?,
      Relation.holds]

theorem holdsAt_comparing (ho : o.isMemory = true) (hp : p.isLiteral = true) :
    (comparing o relation p).holdsAt o x = relation.holds x p.value := by
  simp [holdsAt, comparing, Operand.valueAt_self, Operand.valueAt_of_isLiteral ho hp,
    Operator.test?]

theorem holdsAt_literalRight : r.literalRight.holdsAt o x = r.holdsAt o x := by
  unfold literalRight
  split
  · simp [holdsAt, Operator.test?_reverse]
  · rfl

/-- In a memory, a row holds as it does where the read has the value that memory gives it. -/
theorem IsAbout.testIn (ho : o.isMemory = true) (h : r.IsAbout o) (m : Memory) :
    r.testIn m 0 0 = r.holdsAt o (m.read o) := by
  have hvalue {p : Operand} (hp : p = o ∨ p.isLiteral = true) :
      p.valueIn m 0 = o.valueAt (m.read o) p := by
    rcases hp with rfl | hp
    · obtain ⟨kind, size, value⟩ := p
      cases kind <;> simp_all [Operand.valueIn, Operand.valueAt, Operand.isMemory]
    · rw [Operand.valueIn_of_isLiteral m 0 hp, Operand.valueAt_of_isLiteral ho hp]
  have hsides : (r.left = o ∨ r.left.isLiteral = true) ∧
      (r.right = o ∨ r.right.isLiteral = true) := by
    cases h with
    | reversed _ _ hp => exact ⟨.inr hp, .inl rfl⟩
    | bound h =>
      cases h with
      | constant truth => cases truth <;> exact ⟨.inr rfl, .inr rfl⟩
      | comparing _ _ hp => exact ⟨.inl rfl, .inr hp⟩
  rw [Row.testIn, holdsAt, UInt32.add_zero, hvalue hsides.1, hvalue hsides.2]

/-! ### Plainest forms -/

theorem normalize_literalRight (h : r.isComparison = true) :
    r.literalRight.normalize = r.normalize := by
  unfold normalize
  rw [isComparison_literalRight, literalRight_literalRight, h]
  rfl

theorem IsAbout.literalRight (ho : o.isMemory = true) (h : r.IsAbout o) :
    r.literalRight.IsBoundOf o := by
  have hliteral := Operand.isLiteral_of_isMemory ho
  cases h with
  | reversed relation p hp =>
    have hturned : (Row.comparing p relation o).literalRight = .comparing o relation.reverse p :=
      if_pos (by simp [Row.comparing, hp, hliteral])
    rw [hturned]
    exact .comparing relation.reverse p hp
  | bound h =>
    have hsame : r.literalRight = r := by
      refine if_neg ?_
      cases h with
      | constant truth => cases truth <;> decide
      | comparing => simp [Row.comparing, hliteral]
    rwa [hsame]

/-- The plainest form of a comparison with a literal on its right. -/
theorem normalize_comparing (ho : o.isMemory = true) (hp : p.isLiteral = true) :
    (comparing o relation p).normalize =
      (RangeTest.ofBit o.maxValue (.ofRange o.maxValue relation p.value)).toRow o p := by
  have hliteral := Operand.isLiteral_of_isMemory ho
  have hright : (comparing o relation p).literalRight = comparing o relation p :=
    if_neg (by simp [comparing, hliteral])
  have hopen : (comparing o relation p).evaluate? = none := by
    simp [evaluate?, comparing, hliteral, (Operand.ne_of_isLiteral ho hp).symm]
  unfold normalize
  simp only [hright, hopen]
  simp only [comparing, isComparison, Operator.isComparison, ho, hp]
  cases RangeTest.ofBit o.maxValue (.ofRange o.maxValue relation p.value) with
  | always truth => cases truth <;> rfl
  | compare => rfl

theorem normalize_constant (truth : Bool) : (constant truth).normalize = constant truth := by
  cases truth <;> rfl

theorem IsBoundOf.normalize (ho : o.isMemory = true) (h : r.IsBoundOf o) :
    r.normalize.IsBoundOf o := by
  cases h with
  | constant truth =>
    rw [normalize_constant]
    exact .constant truth
  | comparing relation p hp =>
    rw [normalize_comparing ho hp]
    cases RangeTest.ofBit o.maxValue (.ofRange o.maxValue relation p.value) with
    | always truth => exact .constant truth
    | compare relation' value => exact .comparing relation' _ hp

theorem IsBoundOf.normalize_eq_constant (ho : o.isMemory = true) (h : r.IsBoundOf o)
    (hall : ∀ x ≤ o.maxValue, r.holdsAt o x = truth) : r.normalize = .constant truth := by
  cases h with
  | constant truth' =>
    have hzero := hall 0 UInt32.zero_le
    rw [holdsAt_constant ho] at hzero
    rw [hzero, normalize_constant]
  | comparing relation p hp =>
    have hmax : 0 < o.maxValue := UInt32.lt_iff_toNat_lt.mpr (Operand.maxValue_pos ho)
    have hsettled := RangeTest.ofBit_ofRange_of_forall hmax fun x hx =>
      (holdsAt_comparing ho hp).symm.trans (hall x hx)
    rw [normalize_comparing ho hp, hsettled]
    rfl

theorem IsAbout.normalize (ho : o.isMemory = true) (h : r.IsAbout o) : r.normalize.IsBoundOf o := by
  rw [← normalize_literalRight h.isFilter.compares]
  exact (h.literalRight ho).normalize ho

/-- **A row on which all values of the read agree is settled.** -/
theorem IsAbout.normalize_eq_constant (ho : o.isMemory = true) (h : r.IsAbout o)
    (hall : ∀ x ≤ o.maxValue, r.holdsAt o x = truth) : r.normalize = .constant truth := by
  rw [← normalize_literalRight h.isFilter.compares]
  exact (h.literalRight ho).normalize_eq_constant ho fun x hx =>
    holdsAt_literalRight.trans (hall x hx)

end About
end Row
end MemoryTrigger

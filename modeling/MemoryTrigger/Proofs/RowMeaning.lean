import MemoryTrigger.Meaning.FirstFrame
import MemoryTrigger.Simplify.RowRange

/-! # What rewriting a row does to its truth

Negating a relation negates its truth, turning it around swaps its operands, and a row in its
plainest form (`Row.normalize`) tests the same as before wherever nothing is added to its left side
(`Row.testIn_normalize`).  The last fact is where the range of a read counts: a comparison with a
literal outside of it is settled, and one at its ends allows one value only. -/
namespace MemoryTrigger

namespace Relation

theorem holds_toNat (r : Relation) (a b : UInt32) : r.holds a.toNat b.toNat = r.holds a b := by
  cases r <;> simp [holds, UInt32.lt_iff_toNat_lt, UInt32.le_iff_toNat_le, UInt32.toNat_inj]

theorem holds_inverse (r : Relation) (a b : UInt32) : r.inverse.holds a b = !r.holds a b := by
  cases r <;> simp only [inverse, holds] <;> grind

theorem holds_reverse {α : Type} [DecidableEq α] [LT α] [DecidableLT α] [LE α] [DecidableLE α]
    (r : Relation) (a b : α) : r.reverse.holds b a = r.holds a b := by
  cases r <;> simp [reverse, holds, eq_comm]

/-- Whether equals stand in the relation does not depend on what they are. -/
theorem holds_self (r : Relation) (a b : UInt32) : r.holds a a = r.holds b b := by
  cases r <;> simp [holds]

end Relation

namespace Operator

theorem test?_inverse (op : Operator) (a b : UInt32) (h : op.isComparison = true) :
    (op.inverse.test? a b).getD false = !(op.test? a b).getD false := by
  cases op with
  | compare r => simp [inverse, test?, Relation.holds_inverse]
  | absent => cases h
  | arith => cases h

theorem test?_reverse (op : Operator) (a b : UInt32) : op.reverse.test? b a = op.test? a b := by
  cases op <;> simp [reverse, test?, Relation.holds_reverse]

end Operator

/-! ## Reads stay in range -/

namespace Operand

/-- A read that is moved keeps its range. -/
theorem valueIn_le (m : Memory) (base : UInt32) {o : Operand} (h : o.isMemory = true) :
    o.valueIn m base ≤ o.maxValue := by
  have hread := m.read_le { o with value := o.value + base }
  revert hread
  rcases o with ⟨kind, size, value⟩
  cases kind <;> simp_all [isMemory, valueIn, maxValue]

theorem valueIn_of_isLiteral (m : Memory) (base : UInt32) {o : Operand} (h : o.isLiteral = true) :
    o.valueIn m base = o.value := by
  rcases o with ⟨kind, size, value⟩
  cases kind <;> simp_all [isLiteral, valueIn]

end Operand

/-! ## Comparisons against a range -/

namespace RangeTest

/-- Whether a value passes the test. -/
def passes : RangeTest → UInt32 → Bool
  | always truth, _ => truth
  | compare relation value, x => relation.holds x value

/-- The plainest form of a comparison is passed by the same values of the range. -/
theorem passes_ofRange {max x : UInt32} (hx : x ≤ max) (relation : Relation) (value : UInt32) :
    (ofRange max relation value).passes x = relation.holds x value := by
  cases relation <;> simp only [ofRange] <;> repeat' split
  all_goals simp only [passes, Relation.holds]
  all_goals grind

/-- In a range of two values, differing from one is being the other. -/
theorem passes_ofBit {max x : UInt32} (hx : x ≤ max) (test : RangeTest) :
    (ofBit max test).passes x = test.passes x := by
  unfold ofBit
  split
  · split
    · simp only [passes, Relation.holds]
      grind
    · rfl
  · rfl

end RangeTest

/-! ## Rows in their plainest form -/

namespace Row

theorem testIn_withTruth (m : Memory) (base : UInt32) (r : Row) (truth : Bool) :
    (r.withTruth truth).testIn m base 0 = truth := by
  cases truth <;>
    simp [testIn, withTruth, constant, alwaysTrue, alwaysFalse, comparing, Operator.test?,
      Relation.holds, Operand.valueIn, Operand.literal]

/-- A row that does not depend on memory has its static truth, whatever its reads give. -/
theorem test?_of_evaluate? {value : Operand → UInt32}
    (hvalue : ∀ o, o.isLiteral = true → value o = o.value) {r : Row} {truth : Bool}
    (h : r.evaluate? = some truth) :
    (r.operator.test? (value r.left) (value r.right)).getD false = truth := by
  unfold evaluate? at h
  split at h
  · rename_i hlit
    obtain ⟨hleft, hright⟩ := Bool.and_eq_true_iff.mp hlit
    simp [hvalue _ hleft, hvalue _ hright, h]
  · split at h
    · rename_i hsame
      have heq : r.left = r.right := by simpa using (Bool.and_eq_true_iff.mp hsame).2
      rw [heq]
      cases hop : r.operator with
      | compare relation =>
        rw [hop, Operator.test?, Option.some.injEq] at h
        rw [Operator.test?, Option.getD_some, relation.holds_self _ 0, h]
      | absent => simp [hop, Operator.test?] at h
      | arith => simp [hop, Operator.test?] at h
    · cases h

theorem testIn_of_evaluate? (m : Memory) (base : UInt32) {r : Row} {truth : Bool}
    (h : r.evaluate? = some truth) : r.testIn m base 0 = truth := by
  rw [testIn, UInt32.add_zero]
  exact test?_of_evaluate? (fun _ ho => Operand.valueIn_of_isLiteral m base ho) h

theorem testIn_literalRight (m : Memory) (base : UInt32) (r : Row) :
    r.literalRight.testIn m base 0 = r.testIn m base 0 := by
  unfold literalRight
  split
  · simp [testIn, Operator.test?_reverse]
  · rfl

theorem role_literalRight (r : Row) : r.literalRight.role = r.role := by
  unfold literalRight
  split <;> rfl

theorem hits_literalRight (r : Row) : r.literalRight.hits = r.hits := by
  unfold literalRight
  split <;> rfl

theorem isComparison_literalRight (r : Row) :
    r.literalRight.isComparison = r.isComparison := by
  unfold literalRight
  split
  · cases hop : r.operator <;> simp [isComparison, hop, Operator.isComparison, Operator.reverse]
  · rfl

/-- What normalizing can make of a row: nothing else than the row with its literal on the right, a
settled row, or the row with another comparison of its read with a literal. -/
theorem normalize_cases (r : Row) :
    r.normalize = r ∨ r.normalize = r.literalRight ∨
    (∃ truth, r.normalize = r.literalRight.withTruth truth) ∨
    ∃ relation value, r.literalRight.left.isMemory = true ∧
      r.literalRight.right.isLiteral = true ∧
      r.normalize = { r.literalRight with
        operator := .compare relation, right := { r.literalRight.right with value } } := by
  unfold normalize
  split
  · exact .inl rfl
  · simp only
    split
    · exact .inr (.inr (.inl ⟨_, rfl⟩))
    · split
      · split
        · rename_i hsides
          obtain ⟨hleft, hright⟩ := Bool.and_eq_true_iff.mp hsides
          split
          · exact .inr (.inr (.inl ⟨_, rfl⟩))
          · exact .inr (.inr (.inr ⟨_, _, hleft, hright, rfl⟩))
        · exact .inr (.inl rfl)
      · exact .inr (.inl rfl)

@[simp] theorem role_normalize (r : Row) : r.normalize.role = r.role := by
  rcases r.normalize_cases with h | h | ⟨_, h⟩ | ⟨_, _, _, _, h⟩ <;>
    simp [h, withTruth, role_literalRight]

@[simp] theorem hits_normalize (r : Row) : r.normalize.hits = r.hits := by
  rcases r.normalize_cases with h | h | ⟨_, h⟩ | ⟨_, _, _, _, h⟩ <;>
    simp [h, withTruth, hits_literalRight]

@[simp] theorem isComparison_normalize (r : Row) :
    r.normalize.isComparison = r.isComparison := by
  cases hop : r.operator with
  | absent => simp [normalize, isComparison, hop, Operator.isComparison]
  | arith a => simp [normalize, isComparison, hop, Operator.isComparison]
  | compare relation =>
    rcases r.normalize_cases with h | h | ⟨truth, h⟩ | ⟨_, _, _, _, h⟩
    · rw [h]
    · rw [h, isComparison_literalRight]
    · rw [h, isComparison, isComparison, hop]
      cases truth <;> rfl
    · rw [h, isComparison, isComparison, hop]
      rfl

/-- **The plainest form of a row tests the same**, in every memory and wherever its reads are moved
to, as long as nothing is added to its left side. -/
theorem testIn_normalize (m : Memory) (base : UInt32) (r : Row) :
    r.normalize.testIn m base 0 = r.testIn m base 0 := by
  rw [← testIn_literalRight m base r]
  unfold normalize
  split
  · exact (testIn_literalRight m base r).symm
  · simp only
    split
    · rename_i truth htruth
      rw [testIn_withTruth, testIn_of_evaluate? m base htruth]
    · split
      · rename_i relation hop
        split
        · rename_i hsides
          obtain ⟨hleft, hright⟩ := Bool.and_eq_true_iff.mp hsides
          have hrange := Operand.valueIn_le m base hleft
          have htest := RangeTest.passes_ofRange hrange relation r.literalRight.right.value
          rw [← RangeTest.passes_ofBit hrange] at htest
          have hmeaning : r.literalRight.testIn m base 0 =
              relation.holds (r.literalRight.left.valueIn m base) r.literalRight.right.value := by
            simp [testIn, hop, Operator.test?, Operand.valueIn_of_isLiteral m base hright]
          rw [hmeaning, ← htest]
          split
          · rename_i truth heq
            rw [testIn_withTruth, heq, RangeTest.passes]
          · rename_i relation' value' heq
            have hlit : ({ r.literalRight.right with value := value' } : Operand).isLiteral =
                true := hright
            simp [testIn, Operator.test?, heq, RangeTest.passes,
              Operand.valueIn_of_isLiteral m base hlit]
        · rfl
      · rfl

end Row
end MemoryTrigger

import MemoryTrigger.Row

/-! # Comparisons against the range of a read

A read of a known size lies in `[0, max]`, so that a comparison with a literal may always hold, never
hold, or hold for one value only.  `Row.normalize` moves a literal to the right side, settles rows
that do not depend on memory and writes the others in their plainest form. -/
namespace MemoryTrigger

/-- A comparison of a read with a literal, once the range of the read is known. -/
inductive RangeTest where
  | always (truth : Bool)
  | compare (relation : Relation) (value : UInt32)
  deriving DecidableEq, Repr

namespace RangeTest

/-- Plainest form of `x relation value` for `x` in `[0, max]`. -/
def ofRange (max : UInt32) (relation : Relation) (value : UInt32) : RangeTest :=
  match relation with
  | .lt =>
      if value = 0 then always false
      else if value > max then always true
      else if value = 1 then compare .eq 0
      else compare .lt value
  | .le =>
      if value ≥ max then always true
      else if value = 0 then compare .eq 0
      else compare .le value
  | .gt =>
      if value ≥ max then always false
      else if value = 0 then compare .ne 0
      else if value = max - 1 then compare .eq max
      else compare .gt value
  | .ge =>
      if value = 0 then always true
      else if value > max then always false
      else if value = max then compare .eq max
      else compare .ge value
  | .eq => if value > max then always false else compare .eq value
  | .ne => if value > max then always true else compare .ne value

/-- On a single bit, differing from one value is being the other. -/
def ofBit (max : UInt32) : RangeTest → RangeTest
  | compare .ne value =>
      if max = 1 ∧ value ≤ 1 then compare .eq (1 - value) else compare .ne value
  | test => test

end RangeTest

namespace Row

/-- The row with a constant comparison, keeping its role and hit target. -/
def withTruth (r : Row) (truth : Bool) : Row :=
  { constant truth with role := r.role, hits := r.hits }

/-- A comparison with its literal on the right side. -/
def literalRight (r : Row) : Row :=
  if r.left.isLiteral && !r.right.isLiteral then
    { r with left := r.right, operator := r.operator.reverse, right := r.left }
  else r

/-- The plainest row with the same meaning. -/
def normalize (r : Row) : Row :=
  if !r.isComparison then r
  else
    let r := r.literalRight
    match r.evaluate? with
    | some truth => r.withTruth truth
    | none =>
        match r.operator with
        | .compare relation =>
            if r.left.isMemory && r.right.isLiteral then
              let max := r.left.maxValue
              match RangeTest.ofBit max (.ofRange max relation r.right.value) with
              | .always truth => r.withTruth truth
              | .compare relation value =>
                  { r with operator := .compare relation, right := { r.right with value } }
            else r
        | _ => r

end Row
end MemoryTrigger

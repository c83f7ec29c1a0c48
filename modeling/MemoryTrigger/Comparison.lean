import MemoryTrigger.LinearForm

/-! # Comparisons as rows

A comparison of two values is brought to `sum of terms ⋈ bound` and then written as rows: all terms
but one feed the accumulator, and the last row compares.  The accumulator holds 32 bits and wraps, so
that a difference must not fall below zero where an order is tested.  It is kept from doing so in one
of two ways: the subtracted side moves across (`rearranged?`), or both sides are raised by the most
that can be subtracted (`compensated`). -/
namespace MemoryTrigger

/-- A comparison written as rows, or its truth where it does not depend on memory. -/
inductive Comparison where
  | rows (rows : List Row)
  | constant (truth : Bool)
  deriving DecidableEq, Repr

/-- The last element with a property, and those before and behind it. -/
def splitLast? {α : Type} (p : α → Bool) : List α → Option (List α × α × List α)
  | [] => none
  | x :: rest =>
      match splitLast? p rest with
      | some (before, y, behind) => some (x :: before, y, behind)
      | none => if p x then some ([], x, rest) else none

namespace Checked

/-- The nearest 64-bit integer. -/
def saturate (n : Int) : Int := max Int64.minValue.toInt (min Int64.maxValue.toInt n)

end Checked

/-- A literal operand for a number, which has to fit 32 bits. -/
def Operand.ofNumber (n : Int) : Lowered Operand := Operand.ofInt (Int64.ofInt n)

namespace Term

/-- The row that feeds a modified read into the accumulator. -/
def modifiedRow (role : Role) (operand : Operand) (m : Modifier) : Row :=
  { Row.modifier role operand with operator := .arith m.arithmetic, right := m.right }

/-- The row that feeds a term into the accumulator, without regard to its sign. -/
def fedRow (role : Role) (t : Term) : Lowered Row :=
  let scale := t.coefficient.abs
  match t.modifier with
  | none =>
      if scale = 1 then .ok (Row.modifier role t.cell.operand)
      else do
        let right ← Operand.ofInt scale
        pure (modifiedRow role t.cell.operand ⟨.mul, right⟩)
  | some m =>
      if scale = 1 then .ok (modifiedRow role t.cell.operand m)
      else Lowered.reject .cannotEliminateMultiplication

/-- The rows that feed a term into the accumulator, its pointer included. -/
def accumulate (role : Role) (t : Term) : Lowered (List Row) := do
  let row ← t.fedRow role
  pure (t.cell.pointer ++ [row])

/-- The accumulator role that the sign of a term calls for. -/
def signRole (t : Term) : Role := if 0 < t.coefficient then .addSource else .subSource

/-- The most a term can contribute, without regard to its sign. -/
def maxValue (t : Term) : Int :=
  let most := if t.modifier.isNone then t.cell.operand.maxValue.toNat else UInt32.size - 1
  Checked.saturate (most * t.coefficient.abs.toInt)

end Term

namespace Comparison

/-- A row that adds a constant to the accumulator, unless there is nothing to add. -/
def offsetRows (offset : Int) : Lowered (List Row) :=
  if 0 < offset then do
    let value ← Operand.ofNumber offset
    pure [Row.modifier .addSource value]
  else pure []

/-- Rows for a sum of terms: an offset, the accumulated terms in order, then the comparison.  It
reads the last plain term that is added, or zero where every term is accumulated. -/
def assemble (offset : Int) (terms : List Term) (relation : Relation) (right : Operand) :
    Lowered (List Row) := do
  let start ← offsetRows offset
  match splitLast? (fun t => t.isPlain && decide (0 < t.coefficient)) terms with
  | some (before, last, behind) =>
      let chains ← (before ++ behind).mapM fun t => t.accumulate t.signRole
      pure (start ++ chains.flatten ++ last.cell.pointer ++
        [.comparing last.cell.operand relation right])
  | none =>
      let chains ← terms.mapM fun t => t.accumulate t.signRole
      pure (start ++ chains.flatten ++ [.comparing (.literal 0) relation right])

/-- The bound on a term alone, for a bound on `scale` times the term: rounded the way that the
relation needs.  `none` where an equality has no solution. -/
def solvedBound? (relation : Relation) (bound scale : Int) : Option Int :=
  match relation with
  | .eq | .ne => if bound % scale = 0 then some (bound / scale) else none
  | .gt | .le => some (bound / scale)
  | .ge | .lt => some (-(-bound / scale))

/-- Whether the relation holds for every value above its bound. -/
def holdsAbove : Relation → Bool
  | .ne | .gt | .ge => true
  | _ => false

/-- Whether the relation holds for every value below its bound. -/
def holdsBelow : Relation → Bool
  | .ne | .lt | .le => true
  | _ => false

/-- Rows for `term relation bound`, where the bound need not fit 32 bits. -/
def ofTerm (t : Term) (relation : Relation) (bound : Int) : Lowered Comparison :=
  if bound < 0 then .ok (.constant (holdsAbove relation))
  else if UInt32.size ≤ bound then .ok (.constant (holdsBelow relation))
  else do
    let right ← Operand.ofNumber bound
    match t.modifier with
    | none => pure (.rows (t.cell.pointer ++ [.comparing t.cell.operand relation right]))
    | some m =>
        pure (.rows (t.cell.pointer ++
          [Term.modifiedRow .addSource t.cell.operand m, .comparing (.literal 0) relation right]))

/-- Rows for `coefficient * term relation bound`, solved for the term. -/
def ofScaledTerm (t : Term) (relation : Relation) (bound : Int) : Lowered Comparison :=
  let negative := decide (t.coefficient < 0)
  let scale := if negative then -t.coefficient else t.coefficient
  let relation := if negative then relation.reverse else relation
  let bound := if negative then -bound else bound
  if 1 < scale then
    match solvedBound? relation bound scale.toInt with
    | some bound => ofTerm t relation bound
    | none => .ok (.constant (decide (relation = .ne)))
  else ofTerm t relation bound

/-- Rows for `sum + offset ⋈ other`, so that everything accumulated is added.  `none` unless the
other side is one plain term, behind the pointer of a plain term of the sum. -/
def balanced? (sum other : List Term) (offset : Int) (relation : Relation) :
    Lowered (Option (List Row)) :=
  match other, splitLast? Term.isPlain sum with
  | [compared], some (before, last, behind) =>
      if compared.isPlain && last.cell.pointer == compared.cell.pointer then do
        let start ← offsetRows offset
        let chains ← (before ++ behind).mapM (Term.accumulate .addSource)
        pure (some (start ++ chains.flatten ++ last.cell.pointer ++
          [.comparing last.cell.operand relation compared.cell.operand]))
      else pure none
  | _, _ => pure none

/-- Rows with the subtracted side moved across: `P + |bound| ⋈ Q` for a bound that is not positive,
and `Q + bound ⋈ P` turned around otherwise. -/
def rearranged? (terms : List Term) (relation : Relation) (bound : Int) :
    Lowered (Option (List Row)) :=
  let added := terms.filter fun t => 0 < t.coefficient
  let subtracted := terms.filter fun t => t.coefficient < 0
  if bound ≤ 0 then balanced? added subtracted (-bound) relation
  else balanced? subtracted added bound relation.reverse

/-- Whether the left side subtracts a read. -/
def subtractsRead (left : LinearForm) : Bool := left.terms.any fun t => t.coefficient < 0

/-- Whether the offset written on the left side is to be kept as it is: the left side subtracts a
read and adds a constant, and the right side is a literal. -/
def keepsOffset (left right : LinearForm) : Bool :=
  subtractsRead left && 0 < left.constant && right.isConstant && 0 ≤ right.constant

/-- Rows with both sides raised, so that the accumulator cannot fall below zero: by the offset
written on the left side, or by the most that the subtracted terms can take away. -/
def compensated (left right : LinearForm) (terms : List Term) (relation : Relation) (bound : Int) :
    Lowered Comparison :=
  let (offset, right) :=
    if keepsOffset left right then (left.constant.toInt, right.constant.toInt)
    else
      let most := (terms.filter fun t => t.coefficient < 0).foldl
        (fun sum t => Checked.saturate (sum + t.maxValue)) 0
      (most, Checked.saturate (bound + most))
  if right < 0 then .ok (.constant (relation == .gt || relation == .ge))
  else if UInt32.size ≤ offset || UInt32.size ≤ right then
    Lowered.reject .cannotCompensateSubtraction
  else do
    let right ← Operand.ofNumber right
    let rows ← assemble offset terms relation right
    pure (.rows rows)

/-- Rows for an equality of a sum: a negative bound is added to the sum instead. -/
def equality (terms : List Term) (relation : Relation) (bound : Int) : Lowered Comparison := do
  let right ← Operand.ofNumber (if bound < 0 then 0 else bound)
  let rows ← assemble (if bound < 0 then -bound else 0) terms relation right
  pure (.rows rows)

/-- Rows for an order between two sums. -/
def ordering (left right : LinearForm) (terms : List Term) (relation : Relation) (bound : Int) :
    Lowered Comparison := do
  let kept := (relation == .lt || relation == .le) && subtractsRead left
  let rows ← if kept then pure none else rearranged? terms relation bound
  match rows with
  | some rows => pure (.rows rows)
  | none => compensated left right terms relation bound

/-- The comparison of two linear forms. -/
def ofForms (left : LinearForm) (relation : Relation) (right : LinearForm) :
    Lowered Comparison := do
  let negated ← right.scaled (-1)
  let difference ← left.plus negated
  if difference.constant = Int64.minValue then
    Lowered.reject (.valueOutOfRange difference.constant)
  else
    let bound := -difference.constant.toInt
    match difference.terms, left.cells? right with
    | [], _ => pure (.constant (relation.holds 0 bound))
    | _, some (a, b) => pure (.rows (a.pointer ++ [.comparing a.operand relation b.operand]))
    | [t], none => ofScaledTerm t relation bound
    | terms, none =>
        if relation = .eq ∨ relation = .ne then equality terms relation bound
        else ordering left right terms relation bound

/-- The comparison of two values; `resolve` gives the sizes of accessors. -/
def ofValues (resolve : String → Option Size) (left : Value) (relation : Relation)
    (right : Value) : Lowered Comparison := do
  let left ← LinearForm.ofValue resolve left
  let right ← LinearForm.ofValue resolve right
  ofForms left relation right

end Comparison
end MemoryTrigger

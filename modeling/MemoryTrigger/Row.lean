import MemoryTrigger.Relation
import MemoryTrigger.Operand

/-! # Rows

A row is one line of a compiled trigger: two operands joined by an operator, a role that says what
the row is for, and a hit target.  Modifier rows feed a value into the row after them and carry an
arithmetic operator or none; all other rows compare. -/
namespace MemoryTrigger

/-- What a row is for. -/
inductive Role where
  | plain
  | resetIf
  | pauseIf
  | trigger
  | addSource
  | subSource
  | addAddress
  | andNext
  | orNext
  | addHits
  | subHits
  | resetNextIf
  | measured
  | measuredIf
  | measuredPercent
  deriving DecidableEq, Repr

namespace Role

/-- Every role, in listing order. -/
def all : List Role :=
  [plain, resetIf, pauseIf, trigger, addSource, subSource, addAddress, andNext, orNext, addHits,
    subHits, resetNextIf, measured, measuredIf, measuredPercent]

/-- Rows that feed a value into the next row instead of comparing. -/
def isModifier : Role → Bool
  | addSource | subSource | addAddress => true
  | _ => false

/-- Rows that chain into the next row, and so cannot end a clause. -/
def isCombining : Role → Bool
  | addSource | subSource | addAddress | andNext | orNext | addHits | subHits | resetNextIf => true
  | _ => false

/-- Rows whose progress is shown to the player. -/
def isMeasured : Role → Bool
  | measured | measuredPercent => true
  | _ => false

/-- Rows that must hold for their group to hold. -/
def isTruthy : Role → Bool
  | plain | trigger | measured | measuredPercent => true
  | _ => false

/-- Rows that reset hit counts or pause their group. -/
def isGuard : Role → Bool
  | resetIf | pauseIf => true
  | _ => false

end Role

/-- Arithmetic a modifier row applies to its left operand. -/
inductive Arithmetic where
  | mul
  | div
  | mask
  deriving DecidableEq, Repr

/-- What stands between the operands of a row. -/
inductive Operator where
  | absent
  | compare (relation : Relation)
  | arith (arithmetic : Arithmetic)
  deriving DecidableEq, Repr

namespace Operator

def isComparison : Operator → Bool
  | compare _ => true
  | _ => false

def isArithmetic : Operator → Bool
  | arith _ => true
  | _ => false

/-- The negated comparison; other operators stay as they are. -/
def inverse : Operator → Operator
  | compare r => compare r.inverse
  | op => op

/-- The comparison with its operands swapped; other operators stay as they are. -/
def reverse : Operator → Operator
  | compare r => compare r.reverse
  | op => op

/-- Apply a comparison to two values; `none` for other operators. -/
def test? (op : Operator) (left right : UInt32) : Option Bool :=
  match op with
  | compare r => some (r.holds left right)
  | _ => none

end Operator

/-- One row of a trigger.  A hit target of zero means that no hits are counted. -/
structure Row where
  left : Operand
  operator : Operator := .absent
  right : Operand := .missing
  role : Role := .plain
  hits : UInt32 := 0
  deriving DecidableEq, Repr

namespace Row

/-- A plain comparison without a hit target. -/
def comparing (left : Operand) (relation : Relation) (right : Operand) : Row :=
  { left, operator := .compare relation, right }

/-- A modifier row without arithmetic. -/
def modifier (role : Role) (left : Operand) : Row := { left, role }

/-- `1=1` -/
def alwaysTrue : Row := comparing (.literal 1) .eq (.literal 1)

/-- `0=1` -/
def alwaysFalse : Row := comparing (.literal 0) .eq (.literal 1)

/-- The canonical row of a truth value. -/
def constant : Bool → Row
  | true => alwaysTrue
  | false => alwaysFalse

def isComparison (r : Row) : Bool := r.operator.isComparison

/-- Truth of the comparison where it does not depend on memory: between two literals, or between
two reads of the same memory.  Role and hit target play no part. -/
def evaluate? (r : Row) : Option Bool :=
  if r.left.isLiteral && r.right.isLiteral then r.operator.test? r.left.value r.right.value
  else if r.left.isMemory && r.left == r.right then r.operator.test? 0 0
  else none

/-- The target of a measured row: its hit target, else the literal it is compared with. -/
def target? (r : Row) : Option UInt32 :=
  if r.hits > 0 then some r.hits
  else if r.right.isLiteral then some r.right.value
  else none

end Row
end MemoryTrigger

import MemoryTrigger.Condition.Text

/-! # Why a condition is refused

A condition is refused for a cause, at the innermost location around the part that caused it.  Apart
from that stands an overflow of the 64-bit arithmetic, which no cause describes: the quotient of the
smallest integer by minus one. -/
namespace MemoryTrigger

/-- Conditions and values that may not stand everywhere. -/
inductive Construct where
  | resetIf
  | pauseIf
  | measured
  | triggerWhen
  | compoundMask
  deriving DecidableEq, Repr

def Construct.text : Construct → String
  | resetIf => "never()"
  | pauseIf => "unless()"
  | measured => "measured()"
  | triggerWhen => "trigger_when()"
  | compoundMask => "masking a compound value"

/-- Why a condition cannot be compiled. -/
inductive Cause where
  | unknownAccessor (name : String)
  | zeroRepeatCount
  | divisionByZero
  | addressOutOfRange (address : Int64)
  | nestedView (view : View)
  | viewWithoutMemory (view : View)
  | cannotEliminateMultiplication
  | cannotNormalizeDivision
  | negativeOffset (offset : Int64)
  | cannotCompensateSubtraction
  | complexAddress
  | mismatchedTargets (first second : UInt32)
  | chainTooComplex
  | unsupportedNesting (construct : Construct)
  | noCountedTallyItem
  | valueOutOfRange (value : Int64)
  | neverTrue
  | alwaysTrue
  | emptyTally
  | noTruthyConditions
  deriving DecidableEq, Repr

/-- Broad class of a cause. -/
inductive CauseKind where
  /-- The condition is malformed. -/
  | structural
  /-- Well-formed, but rows cannot express it. -/
  | unsupported
  /-- A comparison does not depend on memory. -/
  | impossible
  /-- Nothing is left that could hold. -/
  | degenerate
  deriving DecidableEq, Repr

namespace Cause

def kind : Cause → CauseKind
  | unknownAccessor _ | zeroRepeatCount | divisionByZero | addressOutOfRange _ | nestedView _
  | viewWithoutMemory _ => .structural
  | cannotEliminateMultiplication | cannotNormalizeDivision | negativeOffset _
  | cannotCompensateSubtraction | complexAddress | mismatchedTargets _ _ | chainTooComplex
  | unsupportedNesting _ | noCountedTallyItem | valueOutOfRange _ => .unsupported
  | neverTrue | alwaysTrue => .impossible
  | emptyTally | noTruthyConditions => .degenerate

def message : Cause → String
  | unknownAccessor name => "unknown memory accessor '" ++ name ++ "'"
  | zeroRepeatCount => "repeat count must be greater than zero"
  | divisionByZero => "division by zero"
  | addressOutOfRange address =>
      "address " ++ Numeral.signed address.toInt ++ " is outside the 32-bit address space"
  | nestedView view => view.name ++ "() cannot wrap another prev/prior/bcd"
  | viewWithoutMemory view => view.name ++ "() requires a memory read"
  | cannotEliminateMultiplication => "cannot normalize expression to eliminate multiplication"
  | cannotNormalizeDivision => "cannot normalize expression containing division"
  | negativeOffset offset => "negative pointer offset " ++ Numeral.signed offset.toInt
  | cannotCompensateSubtraction =>
      "cannot compensate subtraction: offset exceeds the 32-bit range"
  | complexAddress => "address must be a constant or a pointer read plus a constant offset"
  | mismatchedTargets first second =>
      "measured target " ++ Numeral.decimal second.toNat ++ " does not match earlier target " ++
        Numeral.decimal first.toNat
  | chainTooComplex => "condition chain mixes && and || too deeply"
  | unsupportedNesting construct => construct.text ++ " is not supported here"
  | noCountedTallyItem => "tally requires at least one non-deducted condition"
  | valueOutOfRange value =>
      "value " ++ Numeral.signed value.toInt ++
        " cannot be represented as an unsigned 32-bit value"
  | neverTrue => "expression can never be true"
  | alwaysTrue => "expression is always true"
  | emptyTally => "tally requires at least one condition"
  | noTruthyConditions => "trigger has no truthy conditions"

end Cause

/-- A cause and where it lies. -/
structure CompileError where
  cause : Cause
  location : Option Location := none
  deriving DecidableEq, Repr

/-- How compiling can fail. -/
inductive Failure where
  | rejected (error : CompileError)
  | overflow
  deriving DecidableEq, Repr

/-- A location for a failure that has none yet. -/
def Failure.located (l : Location) : Failure → Failure
  | rejected e => rejected { e with location := e.location.or (some l) }
  | overflow => overflow

/-- The result of a step of compiling. -/
abbrev Lowered (α : Type) : Type := Except Failure α

namespace Lowered
variable {α : Type}

/-- Refuse for a cause. -/
def reject (cause : Cause) : Lowered α := .error (.rejected { cause })

/-- The value, or refuse for a cause where there is none. -/
def require (x : Option α) (cause : Cause) : Lowered α :=
  match x with
  | some a => .ok a
  | none => reject cause

/-- Failures of this step lie inside the location. -/
def located (l : Location) (x : Lowered α) : Lowered α := x.mapError (Failure.located l)

end Lowered
end MemoryTrigger

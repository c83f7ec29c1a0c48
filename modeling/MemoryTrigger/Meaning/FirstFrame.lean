import MemoryTrigger.Condition.Basic
import MemoryTrigger.Trigger

/-! # The first frame of a trigger

What rows, clauses, groups and triggers mean in the first frame that they see, when no row has
counted a hit before.  A `Memory` gives every read a value; what follows from it is computed row by
row, the way a runtime does it:

* modifier rows feed the row behind them: `addSource` and `subSource` add to and take from its left
  side, modulo `2 ^ 32`, and `addAddress` moves its reads;
* `andNext` and `orNext` rows hand their truth to the next comparison, strictly in order;
* `addHits` and `subHits` rows add to and take from the hits of the terminal row, which holds once
  they reach its target.

A group in which a pause holds is paused: it does not hold, and its resets are ignored.  A reset
that holds in a group that is not paused makes the whole trigger false (`Trigger.firesIn`).
`resetNextIf` rows only matter once hits have been counted, and do nothing here. -/
namespace MemoryTrigger

/-- **What every read gives in one frame.**  A read stays in the range of its operand, and reads of
bits and nibbles are the parts of the byte read of the same kind at the same address.  Decimal reads
do not fall into parts. -/
structure Memory where
  read : Operand → UInt32
  read_le : ∀ o, o.isMemory → read o ≤ o.maxValue
  read_bit : ∀ kind i address, kind ≠ .bcd →
    (read ⟨kind, .bit i, address⟩).toNat = ((read ⟨kind, .byte, address⟩).toNat >>> i.val) % 2
  read_lowNibble : ∀ kind address, kind ≠ .bcd →
    (read ⟨kind, .lowNibble, address⟩).toNat = (read ⟨kind, .byte, address⟩).toNat % 16
  read_highNibble : ∀ kind address, kind ≠ .bcd →
    (read ⟨kind, .highNibble, address⟩).toNat = (read ⟨kind, .byte, address⟩).toNat / 16

/-- Memory that is zero everywhere. -/
def Memory.zero : Memory where
  read _ := 0
  read_le _ _ := Nat.zero_le _
  read_bit _ _ _ _ := by simp
  read_lowNibble _ _ _ := by simp
  read_highNibble _ _ _ := by simp

/-! ## Rows -/

/-- The value of an operand whose reads are moved by `base`. -/
def Operand.valueIn (m : Memory) (base : UInt32) (o : Operand) : UInt32 :=
  match o.kind with
  | .literal => o.value
  | .unused => 0
  | _ => m.read { o with value := o.value + base }

/-- The 32-bit result of the arithmetic of a modifier row; a quotient by zero is zero. -/
def Arithmetic.apply : Arithmetic → UInt32 → UInt32 → UInt32
  | mul, a, b => a * b
  | div, a, b => a / b
  | mask, a, b => a &&& b

namespace Row

/-- The value that a modifier row feeds into the row behind it. -/
def fedValue (m : Memory) (base : UInt32) (r : Row) : UInt32 :=
  match r.operator with
  | .arith a => a.apply (r.left.valueIn m base) (r.right.valueIn m base)
  | _ => r.left.valueIn m base

/-- Whether the comparison of a row holds, with `sum` added to its left side.  A row that does not
compare does not hold. -/
def testIn (m : Memory) (base sum : UInt32) (r : Row) : Bool :=
  (r.operator.test? (r.left.valueIn m base + sum) (r.right.valueIn m base)).getD false

end Row

/-! ## Clauses -/

/-- What the rows of a clause have prepared for the next one. -/
structure ChainState where
  /-- How far the reads of the next row are moved. -/
  base : UInt32 := 0
  /-- What is added to the left side of the next comparison. -/
  sum : UInt32 := 0
  /-- The truth of the comparisons so far that the next one is joined to. -/
  pending : Option (Junction × Bool) := none
  /-- Hits that the rows so far lend to the terminal row. -/
  hits : Int := 0
  deriving DecidableEq, Repr

namespace ChainState

/-- The truth of a comparison, joined to that of the comparisons before it. -/
def joined (s : ChainState) (truth : Bool) : Bool :=
  match s.pending with
  | some (.and, previous) => truth && previous
  | some (.or, previous) => truth || previous
  | none => truth

/-- The truth of a comparing row behind the rows so far. -/
def truthOf (m : Memory) (s : ChainState) (r : Row) : Bool :=
  s.joined (r.testIn m s.base s.sum)

/-- What a combining row prepares for the next one. -/
def step (m : Memory) (s : ChainState) (r : Row) : ChainState :=
  match r.role with
  | .addAddress => { s with base := r.fedValue m s.base }
  | .addSource => { s with base := 0, sum := s.sum + r.fedValue m s.base }
  | .subSource => { s with base := 0, sum := s.sum - r.fedValue m s.base }
  | .andNext => { hits := s.hits, pending := some (.and, s.truthOf m r) }
  | .orNext => { hits := s.hits, pending := some (.or, s.truthOf m r) }
  | .addHits => { hits := s.hits + (s.truthOf m r).toInt }
  | .subHits => { hits := s.hits - (s.truthOf m r).toInt }
  | _ => { hits := s.hits }

end ChainState

namespace Clause

/-- Whether a clause holds in its first frame. -/
def holdsIn (m : Memory) (c : Clause) : Bool :=
  let s := c.lead.foldl (ChainState.step m) {}
  let truth := s.truthOf m c.terminal
  if c.terminal.hits = 0 then truth else decide (c.terminal.hits.toNat ≤ s.hits + truth.toInt)

/-! ## Groups -/

/-- Whether some clause of the role holds. -/
def someHolds (m : Memory) (role : Role) (group : List Clause) : Bool :=
  group.any fun c => c.role == role && c.holdsIn m

/-- Whether a pause of the group holds. -/
def isPausedIn (m : Memory) (group : List Clause) : Bool := someHolds m .pauseIf group

/-- Whether the group is not paused and a reset of it holds. -/
def resetsIn (m : Memory) (group : List Clause) : Bool :=
  !isPausedIn m group && someHolds m .resetIf group

/-- Whether the group is not paused and everything in it holds that has to. -/
def allHoldIn (m : Memory) (group : List Clause) : Bool :=
  !isPausedIn m group && group.all fun c => !c.role.isTruthy || c.holdsIn m

end Clause

/-! ## Triggers -/

namespace Trigger

/-- Whether some group that is not paused resets. -/
def resetsIn (m : Memory) (t : Trigger) : Bool :=
  t.groups.any fun rows => Clause.resetsIn m (Clause.split rows)

/-- **Whether a trigger fires in its first frame**: nothing resets, the core holds, and so does one
of the alternates if there are any. -/
def firesIn (m : Memory) (t : Trigger) : Bool :=
  !t.resetsIn m && Clause.allHoldIn m (Clause.split t.core) &&
    (t.alternates.isEmpty || t.alternates.any fun rows => Clause.allHoldIn m (Clause.split rows))

end Trigger
end MemoryTrigger

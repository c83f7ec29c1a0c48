import MemoryTrigger.Simplify.ClauseGroups

/-! # Bit tests

Equality tests of all four bits of a nibble make one test of the nibble, and tests of both nibbles
of a byte make one test of the byte. -/
namespace MemoryTrigger

/-- A filter that compares one read with a literal for equality. -/
structure EqualityTest where
  kind : OperandKind
  address : UInt32
  size : Size
  value : UInt32
  deriving DecidableEq, Repr

namespace EqualityTest

/-- The equality test a clause makes, if it makes one.  Decimal reads do not fall into parts. -/
def ofClause? (c : Clause) : Option EqualityTest :=
  let r := c.terminal
  if c.lead.isEmpty && r.role == .plain && r.hits == 0 && r.operator == .compare .eq &&
      r.right.isLiteral && r.left.isMemory && r.left.kind != .bcd then
    some ⟨r.left.kind, r.left.value, r.left.size, r.right.value⟩
  else none

/-- The row of a test. -/
def row (t : EqualityTest) : Row :=
  .comparing ⟨t.kind, t.size, t.address⟩ .eq (.literal t.value)

/-- Whether two tests read the same memory in the same frame. -/
def sameMemory (t u : EqualityTest) : Bool := t.kind == u.kind && t.address == u.address

/-- Tests of a group with the places of their clauses. -/
def ofGroup (group : List Clause) : List (EqualityTest × Nat) :=
  group.zipIdx.filterMap fun (c, i) => (ofClause? c).map fun t => (t, i)

/-- The one test of a size of the same memory, if there is exactly one. -/
def part? (tests : List (EqualityTest × Nat)) (like : EqualityTest) (size : Size) :
    Option (EqualityTest × Nat) :=
  match tests.filter fun (t, _) => t.size == size && t.sameMemory like with
  | [entry] => some entry
  | _ => none

/-- Tests of parts that make one test of the whole: the places of the parts, and the whole. -/
abbrev Found : Type := List Nat × EqualityTest

/-- A place put among rising places. -/
def insertPlace (place : Nat) : List Nat → List Nat
  | [] => [place]
  | other :: rest =>
      if place ≤ other then place :: other :: rest else other :: insertPlace place rest

/-- The parts in rising places, and the test of the whole with the parts' values shifted into
place. -/
def combine (like : EqualityTest) (size : Size) (parts : List ((EqualityTest × Nat) × UInt32)) :
    Found :=
  (parts.map (·.1.2) |>.foldr insertPlace [],
    { like with
      size, value := parts.foldl (fun value (part, shift) => value ||| part.1.value <<< shift) 0 })

/-- The four bits of one nibble. -/
def nibbleBits (high : Bool) : List (Fin 8) :=
  (List.finRange 8).filter fun i => decide (4 ≤ i.val) == high

/-- The nibble of the bit that one test looks at, where all its bits are tested once. -/
def nibbleOf? (tests : List (EqualityTest × Nat)) (like : EqualityTest) : Option Found := do
  let index ← like.size.bitIndex?
  let high := decide (4 ≤ index.val)
  let parts ← (nibbleBits high).mapM fun i => part? tests like (.bit i)
  pure (combine like (if high then .highNibble else .lowNibble) (parts.zip [0, 1, 2, 3]))

/-- The first nibble of a group all whose bits are tested once against zero or one. -/
def findNibble? (group : List Clause) : Option Found :=
  let tests := (ofGroup group).filter fun (t, _) => t.size.bitIndex?.isSome && t.value ≤ 1
  tests.findSome? fun (t, _) => nibbleOf? tests t

/-- The byte of the low nibble that one test looks at, where both nibbles are tested once. -/
def byteOf? (tests : List (EqualityTest × Nat)) (like : EqualityTest) : Option Found := do
  guard (like.size == .lowNibble)
  let low ← part? tests like .lowNibble
  let high ← part? tests like .highNibble
  pure (combine like .byte [(low, 0), (high, 4)])

/-- The first byte of a group both whose nibbles are tested once. -/
def findByte? (group : List Clause) : Option Found :=
  let tests := (ofGroup group).filter fun (t, _) =>
    (t.size == .lowNibble || t.size == .highNibble) && t.value ≤ 0xF
  tests.findSome? fun (t, _) => byteOf? tests t

end EqualityTest

namespace Clause

/-- Put a clause in the first of some rising places and remove the others. -/
def replaceAt (group : List Clause) (places : List Nat) (c : Clause) : List Clause :=
  match places with
  | [] => group
  | first :: others => others.reverse.foldl List.eraseIdx (group.set first c)

/-- Merge the tests of one nibble, or else of one byte. -/
def bitStep (group : List Clause) : Option (List Clause × Event) :=
  ((EqualityTest.findNibble? group).or (EqualityTest.findByte? group)).map fun (places, test) =>
    (replaceAt group places (single test.row), .bitsMerged places.length test.row)

/-- Merge bit tests until none are left to merge; each merge leaves fewer clauses. -/
def mergeBitTests (group : List Clause) : Logged (List Clause) :=
  Logged.exhaust bitStep group.length group

end Clause

/-- Merge tests of bits into tests of nibbles and bytes. -/
def mergeBits : Pass := .onClauses "merge bits" (ClauseGroups.eachGroup Clause.mergeBitTests)

end MemoryTrigger

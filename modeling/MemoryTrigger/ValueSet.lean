import MemoryTrigger.Trigger

/-! # Value sets

The values of one quantity that a comparison with a literal allows, as a subset of `[0, limit]`.  A
set is a list of inclusive ranges in rising order with a gap between neighbours, so that two sets
with the same members are the same list (`ValueSet.ofRanges` brings any list of ranges into this
form).  Sets intersect and unite, and a set that one comparison describes can be turned back into
that comparison (`ValueSet.bound?`). -/
namespace MemoryTrigger

/-- A subset of `[0, limit]`, as inclusive ranges. -/
structure ValueSet where
  ranges : List (Nat × Nat)
  limit : Nat
  deriving DecidableEq, Repr

/-- A value set as a comparison with one literal. -/
inductive Bound where
  | empty
  | full
  | compare (relation : Relation) (value : UInt32)
  deriving DecidableEq, Repr

namespace ValueSet

/-- Put a range into a list of separate rising ranges, joining it with those it touches. -/
def insertRange : Nat × Nat → List (Nat × Nat) → List (Nat × Nat)
  | range, [] => [range]
  | (low, high), (a, b) :: rest =>
      if high + 1 < a then (low, high) :: (a, b) :: rest
      else if b + 1 < low then (a, b) :: insertRange (low, high) rest
      else insertRange (min low a, max high b) rest

/-- The part of a range up to `limit`, if any. -/
def clip (limit : Nat) (range : Nat × Nat) : Option (Nat × Nat) :=
  if range.1 ≤ range.2 ∧ range.1 ≤ limit then some (range.1, min range.2 limit) else none

/-- The set of the values of some ranges that are at most `limit`. -/
def ofRanges (ranges : List (Nat × Nat)) (limit : Nat) : ValueSet :=
  { ranges := (ranges.filterMap (clip limit)).foldr insertRange [], limit }

/-- Ranges of the values that stand in the relation to `value`. -/
def rangesOf (relation : Relation) (value limit : Nat) : List (Nat × Nat) :=
  match relation with
  | .eq => [(value, value)]
  | .ne => if value = 0 then [(1, limit)] else [(0, value - 1), (value + 1, limit)]
  | .lt => if value = 0 then [] else [(0, value - 1)]
  | .le => [(0, value)]
  | .gt => [(value + 1, limit)]
  | .ge => [(value, limit)]

/-- The values in `[0, limit]` that stand in the relation to `value`. -/
def ofComparison (relation : Relation) (value : UInt32) (limit : Nat) : ValueSet :=
  ofRanges (rangesOf relation value.toNat limit) limit

/-- The common part of two ranges, if any. -/
def meet (r s : Nat × Nat) : Option (Nat × Nat) :=
  if max r.1 s.1 ≤ min r.2 s.2 then some (max r.1 s.1, min r.2 s.2) else none

def intersect (s t : ValueSet) : ValueSet :=
  ofRanges (s.ranges.flatMap fun r => t.ranges.filterMap (meet r)) (min s.limit t.limit)

def union (s t : ValueSet) : ValueSet :=
  ofRanges (s.ranges ++ t.ranges) (max s.limit t.limit)

def isSubset (s t : ValueSet) : Bool := s.intersect t == s

/-- The comparison with a literal of 32 bits. -/
def boundAt? (relation : Relation) (value : Nat) : Option Bound :=
  if value < UInt32.size then some (.compare relation value.toUInt32) else none

/-- The one comparison that describes the set, if there is one. -/
def bound? (s : ValueSet) : Option Bound :=
  match s.ranges with
  | [] => some .empty
  | [(low, high)] =>
      if low = 0 ∧ high = s.limit then some .full
      else if low = high then boundAt? .eq low
      else if low = 0 then boundAt? .le high
      else if high = s.limit then boundAt? .ge low
      else none
  | [(low, below), (above, high)] =>
      if low = 0 ∧ high = s.limit ∧ below + 2 = above then boundAt? .ne (below + 1) else none
  | _ => none

end ValueSet

namespace Clause

/-- Largest value of the quantity that a lead of modifier rows and an operand make up: whatever 32
bits hold where values are accumulated, else the range of the read.  `none` where other rows lead,
or where there is no read. -/
def quantityMax? (lead : List Row) (left : Operand) : Option Nat :=
  if !lead.all (·.role.isModifier) then none
  else if lead.any (·.role != .addAddress) then some (UInt32.size - 1)
  else if left.isMemory then some left.maxValue.toNat
  else none

/-- The values of its quantity that let a clause hold, where it compares with a literal. -/
def valueSet? (c : Clause) : Option ValueSet :=
  match c.terminal.operator, quantityMax? c.lead c.terminal.left with
  | .compare relation, some max =>
      if c.terminal.right.isLiteral then
        some (ValueSet.ofComparison relation c.terminal.right.value max)
      else none
  | _, _ => none

/-- The clause with its terminal comparison replaced by one that describes the set.  `none` where no
single comparison does, and for the empty and the full set. -/
def withSet? (c : Clause) (s : ValueSet) : Option Clause :=
  match s.bound? with
  | some (.compare relation value) =>
      let t := c.terminal
      some { c with
        terminal := { t with operator := .compare relation, right := { t.right with value } } }
  | _ => none

end Clause
end MemoryTrigger

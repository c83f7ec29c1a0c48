import MemoryTrigger.Row

/-! # Triggers

A trigger is a core group of rows and a list of alternate groups.  It fires when the core holds and,
if there are alternates, at least one of them holds.

A group of rows falls into clauses: runs of combining rows that end in a terminal row.  Clauses are
what the simplifier compares, merges and moves.  `Clause.split` and `Clause.join` go back and forth
between the two views. -/
namespace MemoryTrigger

/-! ## Clauses -/

/-- Rows chained together, ending in a terminal row. -/
structure Clause where
  lead : List Row
  terminal : Row
  deriving DecidableEq, Repr

namespace Clause

/-- The clause of one row. -/
def single (r : Row) : Clause := ⟨[], r⟩

/-- All rows of the clause, the terminal row last. -/
def rows (c : Clause) : List Row := c.lead ++ [c.terminal]

/-- The clauses of a group.  Combining rows at the end, with no terminal row after them, form a
last clause that ends in the last of them. -/
def split : List Row → List Clause
  | [] => []
  | r :: rest =>
      if r.role.isCombining then
        match split rest with
        | [] => [single r]
        | c :: cs => ⟨r :: c.lead, c.terminal⟩ :: cs
      else single r :: split rest

/-- The rows of a list of clauses. -/
def join (cs : List Clause) : List Row := cs.flatMap rows

/-- **Splitting loses nothing**: the rows of the clauses are the rows of the group. -/
theorem join_split (rows : List Row) : join (split rows) = rows := by
  induction rows with
  | nil => rfl
  | cons r rest ih =>
      unfold split
      split
      · split
        · rename_i hnil
          rw [hnil] at ih
          simp only [join, List.flatMap_nil] at ih
          simp [join, single, Clause.rows, ← ih]
        · rename_i c cs hcons
          rw [hcons] at ih
          simp only [join, List.flatMap_cons, Clause.rows] at ih
          simp [join, Clause.rows, ← ih]
      · simp only [join, List.flatMap_cons] at ih ⊢
        simp [single, Clause.rows, ih]

/-- Role of the terminal row. -/
def role (c : Clause) : Role := c.terminal.role

/-- Whether some row of the clause counts hits. -/
def hasHits (c : Clause) : Bool := c.rows.any fun r => r.hits > 0

/-- Whether some row of the clause has the role. -/
def hasRole (c : Clause) (role : Role) : Bool := c.rows.any fun r => r.role == role

/-- Truth of the clause where it does not depend on memory: decided for single rows only. -/
def constant? (c : Clause) : Option Bool :=
  if c.lead.isEmpty then c.terminal.evaluate? else none

/-- Whether two clauses constrain one quantity: the same lead and the same left operand. -/
def sameQuantity (c d : Clause) : Bool :=
  c.lead == d.lead && c.terminal.left == d.terminal.left

/-- A filter without hit targets. -/
def isPlain (c : Clause) : Bool := c.role == .plain && !c.hasHits

/-- A reset or a pause. -/
def isGuard (c : Clause) : Bool := c.role.isGuard

end Clause

/-! ## Groups -/

/-- A conjunction of core rows, and a disjunction of alternate conjunctions. -/
structure Trigger where
  core : List Row := []
  alternates : List (List Row) := []
  deriving DecidableEq, Repr

namespace Trigger

/-- The core, then the alternates. -/
def groups (t : Trigger) : List (List Row) := t.core :: t.alternates

/-- Every row, core first. -/
def rows (t : Trigger) : List Row := t.groups.flatten

/-- Whether some row counts hits. -/
def hasHits (t : Trigger) : Bool := t.rows.any fun r => r.hits > 0

/-- Whether some row has the role. -/
def hasRole (t : Trigger) (role : Role) : Bool := t.rows.any fun r => r.role == role

/-- The core is exactly `1=1` and there are no alternates. -/
def isAlwaysTrue (t : Trigger) : Bool := t.alternates.isEmpty && t.core == [Row.alwaysTrue]

/-- The core is exactly `0=1`. -/
def isAlwaysFalse (t : Trigger) : Bool := t.core == [Row.alwaysFalse]

end Trigger
end MemoryTrigger

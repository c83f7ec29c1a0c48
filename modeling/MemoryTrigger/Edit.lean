import MemoryTrigger.Trigger

/-! # Combining and editing triggers

Triggers are joined by `and` and `or`, and changed in one group or in one row.  In an edit, group
zero is the core and the others are the alternates in order.  An edit of a place that is not there
does not apply. -/
namespace MemoryTrigger.Trigger

/-- The same change to every row. -/
def mapRows (f : Row → Row) (t : Trigger) : Trigger :=
  { core := t.core.map f, alternates := t.alternates.map (·.map f) }

/-- The alternates as full conjunctions, the core included. -/
def conjunctions (t : Trigger) : List (List Row) :=
  if t.alternates.isEmpty then [t.core] else t.alternates.map (t.core ++ ·)

/-- Both triggers hold.  Alternates multiply out, left before right; a core that meets alternates
is put in front of each of them. -/
def and (a b : Trigger) : Trigger :=
  match a.alternates.isEmpty, b.alternates.isEmpty with
  | true, true => { core := a.core ++ b.core }
  | true, false => { alternates := b.conjunctions.map (a.core ++ ·) }
  | false, true => { alternates := a.conjunctions.map (b.core ++ ·) }
  | false, false =>
      { alternates := a.conjunctions.flatMap fun left => b.conjunctions.map (left ++ ·) }

/-- One of the triggers holds: the alternates of both. -/
def or (a b : Trigger) : Trigger := { alternates := a.conjunctions ++ b.conjunctions }

/-! ## Edits -/

/-- Add rows to the core. -/
def appendCore (t : Trigger) (rows : List Row) : Trigger := { t with core := t.core ++ rows }

/-- Add an alternate. -/
def appendAlternate (t : Trigger) (rows : List Row) : Trigger :=
  { t with alternates := t.alternates ++ [rows] }

/-- Add rows to an alternate. -/
def extendAlternate? (t : Trigger) (index : Nat) (rows : List Row) : Option Trigger :=
  if index < t.alternates.length then
    some { t with alternates := t.alternates.modify index (· ++ rows) }
  else none

/-- Remove an alternate. -/
def dropAlternate? (t : Trigger) (index : Nat) : Option Trigger :=
  if index < t.alternates.length then some { t with alternates := t.alternates.eraseIdx index }
  else none

/-- Change one row of a group. -/
def modifyRow? (t : Trigger) (group row : Nat) (f : Row → Row) : Option Trigger := do
  let rows ← t.groups[group]?
  guard (row < rows.length)
  match group with
  | 0 => pure { t with core := rows.modify row f }
  | index + 1 => pure { t with alternates := t.alternates.set index (rows.modify row f) }

end MemoryTrigger.Trigger

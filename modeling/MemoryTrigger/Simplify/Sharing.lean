import MemoryTrigger.Simplify.ClauseGroups

/-! # Shared and repeated clauses

A clause that every alternate holds belongs into the core, and a clause need not be said twice. -/
namespace MemoryTrigger

namespace ClauseGroups

/-- Whether some group can pause. -/
def canPause (g : ClauseGroups) : Bool := g.groups.any fun group => Clause.anyRole group .pauseIf

/-- Whether a clause may move from all alternates to the core.  A pause in one alternate would
suspend a counter that the others go on advancing, so that counted filters and resets only move
where nothing pauses; pauses themselves never move. -/
def isPromotable (pausing : Bool) (c : Clause) : Bool :=
  match c.role with
  | .plain => !c.hasHits || !pausing
  | .resetIf => !pausing
  | _ => false

/-- Move one clause to the core if it may move and every alternate holds it. -/
def promote (pausing : Bool) (g : ClauseGroups) (c : Clause) : Logged ClauseGroups :=
  if isPromotable pausing c && g.alternates.all (·.contains c) then do
    Logged.note .clausePromoted
    pure {
      core := if g.core.contains c then g.core else g.core ++ [c]
      alternates := g.alternates.map (·.erase c) }
  else pure g

/-- Move clauses to the core one after another. -/
def promoteAll (pausing : Bool) : List Clause → ClauseGroups → Logged ClauseGroups
  | [], g => pure g
  | c :: rest, g => do
      let g ← promote pausing g c
      promoteAll pausing rest g

/-- A group without clauses becomes `1=1`. -/
def fillEmpty (group : List Clause) : List Clause :=
  if group.isEmpty then Clause.alwaysTrueGroup else group

/-- Move the clauses that at least two alternates share to the core. -/
def promoteShared (g : ClauseGroups) : Logged ClauseGroups :=
  match g.alternates with
  | first :: _ :: _ => do
      let g ← promoteAll g.canPause first g
      pure { g with alternates := g.alternates.map fillEmpty }
  | _ => pure g

/-- A core of exactly `1=1` says nothing beside alternates. -/
def dropTrueCore (g : ClauseGroups) : ClauseGroups :=
  if !g.alternates.isEmpty && g.core == Clause.alwaysTrueGroup then { g with core := [] } else g

/-- Every group without repeated clauses, and every alternate without filters of the core. -/
def dropRepeated (g : ClauseGroups) : ClauseGroups :=
  let core := g.core.eraseDups
  { core
    alternates := g.alternates.map fun group =>
      fillEmpty (group.eraseDups.filter fun c => !(c.isPlain && core.contains c)) }

end ClauseGroups

/-- Move what all alternates share to the core. -/
def promoteCommonClauses : Pass :=
  .onClauses "promote common alternates to core" fun g => do
    let g ← g.promoteShared
    pure g.dropTrueCore

/-- Drop clauses that are said twice. -/
def removeDuplicates : Pass :=
  .onClauses "remove duplicates" fun g => pure g.dropRepeated

end MemoryTrigger

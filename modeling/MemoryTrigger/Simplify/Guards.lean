import MemoryTrigger.Simplify.ClauseGroups

/-! # Resets and pauses that guard nothing

Where no hits are counted, a reset that fires only makes the trigger false for that frame, which a
filter with the inverted comparison says directly.  The same is true of a pause in a group that
holds nothing a pause would suspend. -/
namespace MemoryTrigger

/-- The plain row that holds exactly when the comparison does not. -/
def Row.inverted (r : Row) : Row := { r with role := .plain, operator := r.operator.inverse }

namespace Clause

/-- Filters that hold together exactly when the clause does not.  A row behind modifier rows inverts
its comparison, and a disjunction inverts link by link; a conjunction has no such filters. -/
def inverted? (c : Clause) : Option (List Clause) :=
  if c.hasHits || !c.terminal.isComparison then none
  else if c.lead.all (·.role.isModifier) then some [⟨c.lead, c.terminal.inverted⟩]
  else if c.lead.all fun r => r.role == .orNext && r.isComparison then
    some (c.rows.map fun r => single r.inverted)
  else none

/-- The filters that may stand for a clause of the role. -/
def filtersFor? (role : Role) (c : Clause) : Option (List Clause) :=
  if c.role == role then c.inverted? else none

/-- A group with its clauses of one role turned into filters where possible. -/
def invertRole (role : Role) (group : List Clause) : List Clause :=
  group.flatMap fun c => (c.filtersFor? role).getD [c]

/-- The filters that the resets of a group turn into. -/
def resetFilters (group : List Clause) : List Clause :=
  group.flatMap fun c => (c.filtersFor? .resetIf).getD []

/-- The clauses of a group that are not turned into filters of the core. -/
def withoutResetFilters (group : List Clause) : List Clause :=
  let kept := group.filter fun c => (c.filtersFor? .resetIf).isNone
  if kept.isEmpty then alwaysTrueGroup else kept

end Clause

namespace ClauseGroups

/-- Resets become filters.  A reset of an alternate fails the whole trigger, so that its filters
move to the core; an alternate that can pause keeps its resets. -/
def filterResets (g : ClauseGroups) : ClauseGroups :=
  let movable := g.alternates.filter fun group => !Clause.anyRole group .pauseIf
  { core := Clause.invertRole .resetIf g.core ++ movable.flatMap Clause.resetFilters
    alternates := g.alternates.map fun group =>
      if Clause.anyRole group .pauseIf then group else Clause.withoutResetFilters group }

/-- Pauses become filters in a group with nothing to suspend. -/
def filterPauses (group : List Clause) : List Clause :=
  if Clause.isPauseSensitive group then group else Clause.invertRole .pauseIf group

/-- Whether some clause counts hits. -/
def anyHits (g : ClauseGroups) : Bool := g.groups.any Clause.anyHits

/-- Resets and pauses that guard nothing become filters. -/
def filterGuards (g : ClauseGroups) : ClauseGroups :=
  let g := if g.anyHits then g else g.filterResets
  { core := filterPauses g.core, alternates := g.alternates.map filterPauses }

end ClauseGroups

/-- Turn resets and pauses that guard nothing into filters. -/
def normalizeGuards : Pass :=
  .onClauses "normalize non-hit-count resets and pauses" fun g => pure g.filterGuards

end MemoryTrigger

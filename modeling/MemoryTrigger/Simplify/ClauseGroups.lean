import MemoryTrigger.Simplify.Log

/-! # Triggers by clauses

Most passes look at a trigger as groups of clauses.  `Pass.onClauses` runs such a pass on a trigger:
the groups are split, simplified and joined again, and the pass reports a change when the rows came
out different. -/
namespace MemoryTrigger

/-- The groups of a trigger, split into clauses. -/
structure ClauseGroups where
  core : List Clause
  alternates : List (List Clause)
  deriving DecidableEq, Repr

namespace ClauseGroups

def ofTrigger (t : Trigger) : ClauseGroups :=
  { core := Clause.split t.core, alternates := t.alternates.map Clause.split }

def toTrigger (g : ClauseGroups) : Trigger :=
  { core := Clause.join g.core, alternates := g.alternates.map Clause.join }

theorem toTrigger_ofTrigger (t : Trigger) : (ofTrigger t).toTrigger = t := by
  simp [ofTrigger, toTrigger, Clause.join_split, Function.comp_def]

/-- The core, then the alternates. -/
def groups (g : ClauseGroups) : List (List Clause) := g.core :: g.alternates

/-- The same logged step on every group. -/
def eachGroup (f : List Clause → Logged (List Clause)) (g : ClauseGroups) :
    Logged ClauseGroups := do
  let core ← f g.core
  let alternates ← Logged.each f g.alternates
  pure { core, alternates }

end ClauseGroups

namespace Clause

/-- Whether some clause of a group counts hits. -/
def anyHits (group : List Clause) : Bool := group.any hasHits

/-- Whether some row of a group has the role. -/
def anyRole (group : List Clause) (role : Role) : Bool := group.any (·.hasRole role)

/-- Whether a group measures anything. -/
def anyMeasured (group : List Clause) : Bool :=
  group.any fun c => c.hasRole .measured || c.hasRole .measuredPercent

/-- Whether a group holds anything that a pause would suspend: hit counts, resets, measurements. -/
def isPauseSensitive (group : List Clause) : Bool :=
  anyHits group || anyRole group .resetIf || anyMeasured group

/-- The group whose only clause is `1=1`. -/
def alwaysTrueGroup : List Clause := [single .alwaysTrue]

end Clause

/-- What a pass made of a trigger. -/
structure PassResult where
  trigger : Trigger
  changed : Bool
  events : List Event
  deriving Repr

/-- A named step on triggers. -/
structure Pass where
  name : String
  run : Trigger → PassResult

/-- The pass that works on a trigger clause by clause. -/
def Pass.onClauses (name : String) (f : ClauseGroups → Logged ClauseGroups) : Pass where
  name
  run t :=
    let out := f (.ofTrigger t)
    let trigger := out.value.toTrigger
    { trigger, changed := trigger != t, events := out.events }

end MemoryTrigger

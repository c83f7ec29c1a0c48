import MemoryTrigger.Simplify.ClauseGroups
import MemoryTrigger.Simplify.RowRange

/-! # Settled comparisons

The first pass writes every comparison in its plainest form and removes what is settled: links that
cannot change the outcome of their chain, resets and pauses that never fire, filters that always
hold.  A filter that never holds makes its whole group false, of which only the resets and pauses
remain to be kept.

Rows that feed on an accumulated value, and measured rows, are left as they are. -/
namespace MemoryTrigger

namespace Row

/-- Whether a row in its place may be changed: not right behind a modifier row, and not measured. -/
def isFree (afterModifier : Bool) (r : Row) : Bool := !afterModifier && !r.role.isMeasured

/-- Every free row of a group in its plainest form. -/
def normalizeRows (afterModifier : Bool) : List Row → Logged (List Row)
  | [] => pure []
  | r :: rest => do
      let s := if r.isFree afterModifier then r.normalize else r
      if s ≠ r then Logged.note (.normalized r s)
      let rest ← normalizeRows r.role.isModifier rest
      pure (s :: rest)

/-- Links that cannot change the outcome of their chain: a false `addHits`, `subHits`, `orNext` or
`resetNextIf`, and a true `andNext` without a hit target. -/
def isIdentityLink (r : Row) : Bool :=
  match r.role with
  | .addHits | .subHits | .resetNextIf | .orNext => r.evaluate? == some false
  | .andNext => r.hits == 0 && r.evaluate? == some true
  | _ => false

/-- Whether a link behind the kept row may be dropped: it has to start its chain or continue a chain
of its own kind. -/
def linkIsDroppable (previous : Option Row) (r : Row) : Bool :=
  match previous with
  | none => true
  | some p =>
      match p.role with
      | .addSource | .subSource | .addAddress => false
      | .andNext | .orNext => p.role == r.role
      | _ => true

/-- The rows of a group without its identity links; `previous` is the last row that was kept. -/
def removeIdentityLinks (previous : Option Row) : List Row → Logged (List Row)
  | [] => pure []
  | r :: rest =>
      if linkIsDroppable previous r && r.isIdentityLink then do
        Logged.note (.linkRemoved r)
        removeIdentityLinks previous rest
      else do
        let rest ← removeIdentityLinks (some r) rest
        pure (r :: rest)

end Row

namespace Clause

/-- A filter that always holds and counts nothing. -/
def isFiller (c : Clause) : Bool := c.isPlain && c.constant? == some true

/-- A filter that never holds. -/
def neverHolds (c : Clause) : Bool := c.role == .plain && c.constant? == some false

/-- A reset or pause that never fires. -/
def neverFires (c : Clause) : Bool := c.isGuard && c.constant? == some false

/-- The clauses without fillers, except the first one unless `settled`. -/
def dropFillers (settled : Bool) : List Clause → List Clause
  | [] => []
  | c :: rest =>
      if c.isFiller then
        if settled then dropFillers settled rest else c :: dropFillers true rest
      else c :: dropFillers settled rest

/-- A group without clauses that are settled.  A filler stays where nothing else has to hold. -/
def foldConstants (group : List Clause) : List Clause :=
  let group := group.filter fun c => !c.neverFires
  if group.any neverHolds then group.filter isGuard ++ [single .alwaysFalse]
  else dropFillers (group.any fun c => c.role.isTruthy && !c.isFiller) group

end Clause

/-- One group of the first pass, and whether any of its steps changed it. -/
def Row.normalizeGroup (rows : List Row) : Logged (List Row × Bool) := do
  let normalized ← Row.normalizeRows false rows
  let linked ← Row.removeIdentityLinks none normalized
  let folded := Clause.join (Clause.foldConstants (Clause.split linked))
  pure (folded, normalized != rows || linked != normalized || folded != linked)

/-- Write comparisons in their plainest form and remove what is settled. -/
def normalizeComparisons : Pass where
  name := "normalize comparisons"
  run t :=
    let core := Row.normalizeGroup t.core
    let alternates := Logged.each Row.normalizeGroup t.alternates
    { trigger := { core := core.value.1, alternates := alternates.value.map Prod.fst }
      changed := core.value.2 || alternates.value.any Prod.snd
      events := core.events ++ alternates.events }

end MemoryTrigger

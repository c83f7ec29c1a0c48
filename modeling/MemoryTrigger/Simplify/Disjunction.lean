import MemoryTrigger.Simplify.ClauseGroups
import MemoryTrigger.Simplify.Constants
import MemoryTrigger.ValueSet

/-! # Alternates as a disjunction

A trigger needs only one of its alternates to hold.  So equal alternates collapse, two alternates
that differ in one comparison become one with the union, alternates that never hold go, one that
always holds makes most others useless, and an alternate that implies another adds nothing.

A single alternate is a conjunction with the core and moves there, unless a pause on one side would
then suspend something on the other. -/
namespace MemoryTrigger

namespace Clause

/-- Whether two groups of the same length hold the same clauses. -/
def sameClauses (a b : List Clause) : Bool := a.length == b.length && a.all b.contains

/-- The alternates that repeat no earlier one, and those that do. -/
def splitRepeated : List (List Clause) → List (List Clause) → List (List Clause) × List (List Clause)
  | kept, [] => (kept, [])
  | kept, group :: rest =>
      if kept.any (sameClauses · group) then
        let (kept, dropped) := splitRepeated kept rest
        (kept, group :: dropped)
      else splitRepeated (kept ++ [group]) rest

/-- The only element of a list with exactly one. -/
def only? {α : Type} : List α → Option α
  | [x] => some x
  | _ => none

/-- The union of two groups of filters that differ in one comparison of the same quantity.  A full
union leaves no comparison at all. -/
def union? (a b : List Clause) : Option (List Clause) := do
  guard (a.length == b.length && (a ++ b).all isPlain)
  let (ca, position) ← only? (a.zipIdx.filter fun entry => !b.contains entry.1)
  let cb ← only? (b.filter fun c => !a.contains c)
  guard (ca.sameQuantity cb)
  let s ← ca.valueSet?
  let t ← cb.valueSet?
  let either := s.union t
  if either.bound? = some .full then
    let rest := a.eraseIdx position
    pure (if rest.isEmpty then alwaysTrueGroup else rest)
  else
    let merged ← ca.withSet? either
    pure (a.set position merged)

/-- The first two alternates that have a union, and the union. -/
def findUnion? (alternates : List (List Clause)) : Option (Nat × Nat × List Clause) :=
  alternates.zipIdx.findSome? fun (a, i) => alternates.zipIdx.findSome? fun (b, j) =>
    if i < j then (union? a b).map fun merged => (i, j, merged) else none

/-- Whether a group never holds. -/
def groupNeverHolds (group : List Clause) : Bool := group.any neverHolds

/-- Whether a group never holds and resets nothing either. -/
def isImpossible (group : List Clause) : Bool :=
  groupNeverHolds group && !anyRole group .resetIf

/-- Whether a group has to stay beside an alternate that always holds. -/
def hasEffect (group : List Clause) : Bool :=
  anyRole group .resetIf || anyRole group .pauseIf || anyMeasured group

end Clause

/-- Alternates, and the last one that was dropped, which may have to come back. -/
structure Alternates where
  kept : List (List Clause)
  dropped : Option (List Clause) := none
  deriving DecidableEq, Repr

namespace Alternates
open Clause

/-- Drop `group`s, in order, remembering the last. -/
def drop (a : Alternates) (kept groups : List (List Clause)) : Alternates :=
  { kept, dropped := groups.getLast?.or a.dropped }

/-- Equal alternates collapse to the first of them. -/
def ofDistinct (groups : List (List Clause)) : Alternates :=
  let (kept, dropped) := splitRepeated [] groups
  drop ⟨[], none⟩ kept dropped

/-- Put the union of two alternates in the place of the first. -/
def uniteStep (a : Alternates) : Option (Alternates × Event) :=
  (findUnion? a.kept).map fun (i, j, merged) =>
    let kept := a.kept.set i merged
    (a.drop (kept.eraseIdx j) kept[j]?.toList, .alternatesMerged i j)

/-- Unite alternates until no two have a union; each union leaves one alternate fewer. -/
def unite (a : Alternates) : Logged Alternates := Logged.exhaust uniteStep a.kept.length a

/-- Drop the alternates that never hold, except the first where nothing else is left. -/
def dropImpossible (a : Alternates) : Alternates :=
  let impossible := a.kept.filter isImpossible
  let possible := a.kept.filter fun group => !isImpossible group
  if possible.isEmpty then { a with kept := impossible.take 1 }
  else a.drop possible impossible

/-- The alternates that stay beside one that always holds, and the others; `found` says that it was
met already. -/
def splitBesideTrue (found : Bool) :
    List (List Clause) → List (List Clause) × List (List Clause)
  | [] => ([], [])
  | group :: rest =>
      let isTrue := group == alwaysTrueGroup
      let (kept, dropped) := splitBesideTrue (found || isTrue) rest
      if (if isTrue then !found else hasEffect group) then (group :: kept, dropped)
      else (kept, group :: dropped)

/-- One alternate that always holds makes those useless that have no other effect. -/
def keepBesideTrue (a : Alternates) : Alternates :=
  if a.kept.contains alwaysTrueGroup then
    let (kept, dropped) := splitBesideTrue false a.kept
    a.drop kept dropped
  else a

/-- Whether a pause in one group would suspend something in the other. -/
def pausesClash (a b : List Clause) : Bool :=
  (anyRole a .pauseIf && isPauseSensitive b) || (anyRole b .pauseIf && isPauseSensitive a)

/-- A lone alternate joins the core.  Where pauses forbid that, the last dropped alternate comes
back, so that the trigger does not end with a single one. -/
def settle (core : List Clause) (a : Alternates) : ClauseGroups :=
  match a.kept with
  | [lone] =>
      if pausesClash lone core then ⟨core, lone :: a.dropped.toList⟩ else ⟨core ++ lone, []⟩
  | kept => ⟨core, kept⟩

end Alternates

namespace ClauseGroups

/-- Collapse alternates that are equal, united, impossible or useless. -/
def collapseAlternates (g : ClauseGroups) : Logged ClauseGroups :=
  if g.alternates.isEmpty then pure g
  else do
    let united ← (Alternates.ofDistinct g.alternates).unite
    pure (united.dropImpossible.keepBesideTrue.settle g.core)

end ClauseGroups

/-- Collapse duplicate, impossible and trivially true alternates. -/
def mergeDuplicateAlternates : Pass :=
  .onClauses "merge duplicate alternates" ClauseGroups.collapseAlternates

/-! ### Implication between alternates -/

namespace Clause

/-- Whether a group consists of filters alone: nothing is counted, measured, reset or paused. -/
def isSimpleGroup (group : List Clause) : Bool :=
  !anyHits group && !anyMeasured group && !anyRole group .resetIf && !anyRole group .pauseIf &&
    !anyRole group .measuredIf

/-- Whether a clause that holds makes another one hold: the same clause, or a tighter bound on the
same quantity. -/
def implies (held needed : Clause) : Bool :=
  if held = needed then true
  else if !held.isPlain || !needed.isPlain || !held.sameQuantity needed then false
  else
    match held.valueSet?, needed.valueSet? with
    | some s, some t => s.isSubset t
    | _, _ => false

/-- Whether every clause of `b` always holds or is implied by a clause of `a`. -/
def groupImplies (a b : List Clause) : Bool :=
  b.all fun needed =>
    (needed.constant? == some true && needed.role == .plain) || a.any (·.implies needed)

/-- Whether the group at a place is made of filters and implies another alternate. -/
def impliesSibling (alternates : List (List Clause)) (group : List Clause) (i : Nat) : Bool :=
  isSimpleGroup group &&
    alternates.zipIdx.any fun (other, j) => j != i && groupImplies group other

/-- Drop the first alternate that implies another one. -/
def dropImplied (alternates : List (List Clause)) : Option (List (List Clause) × Event) :=
  (alternates.zipIdx.find? fun (group, i) => impliesSibling alternates group i).map fun (_, i) =>
    (alternates.eraseIdx i, .alternateImplied i)

end Clause

/-- Drop alternates that imply a sibling. -/
def mergeRequirementGroups : Pass :=
  .onClauses "merge requirement groups" fun g => do
    let alternates ← Logged.exhaust Clause.dropImplied g.alternates.length g.alternates
    pure { g with alternates }

end MemoryTrigger

import MemoryTrigger.Simplify.ClauseGroups
import MemoryTrigger.ValueSet

/-! # Overlapping clauses

Two clauses of one group that constrain the same quantity often come down to one: the tighter of two
filters, the wider of two resets, or one comparison that says what both do together. -/
namespace MemoryTrigger

/-- What becomes of two clauses of one group. -/
inductive Merge where
  | keepFirst
  | keepSecond
  | replace (c : Clause)
  deriving DecidableEq, Repr

def Merge.kind : Merge → MergeKind
  | keepFirst => .keepFirst
  | keepSecond => .keepSecond
  | replace _ => .replace

namespace Clause

/-- Two filters that hold together allow the values that both allow. -/
def mergeFilters (a : Clause) (s t : ValueSet) : Option Merge :=
  let both := s.intersect t
  if both = s then some .keepFirst
  else if both = t then some .keepSecond
  else if both.bound? = some .empty then some (.replace (single .alwaysFalse))
  else (a.withSet? both).map .replace

/-- Two resets, or two pauses, fire on the values that one of them fires on. -/
def mergeGuards (a : Clause) (s t : ValueSet) : Option Merge :=
  let either := s.union t
  if either = s then some .keepFirst
  else if either = t then some .keepSecond
  else (a.withSet? either).map .replace

/-- Merge two clauses of one role that constrain the same quantity. -/
def mergeByValues (a b : Clause) : Option Merge :=
  if a.role != b.role || !a.sameQuantity b then none
  else
    match a.valueSet?, b.valueSet? with
    | some s, some t =>
        match a.role with
        | .plain => mergeFilters a s t
        | .resetIf | .pauseIf => mergeGuards a s t
        | _ => none
    | _, _ => none

/-- The same condition with two hit targets: the larger target implies the smaller. -/
def hasLargerTarget (a b : Clause) : Bool :=
  a.role == .plain && { a.terminal with hits := 0 } == { b.terminal with hits := 0 } &&
    a.terminal.hits > b.terminal.hits

/-- A reset beside the filter that negates it. -/
def isResetOfFilter (a b : Clause) : Bool :=
  a.role == .resetIf && b.role == .plain && a.terminal.left == b.terminal.left &&
    a.terminal.right == b.terminal.right && a.terminal.operator.inverse == b.terminal.operator

/-- What becomes of a clause and another one of its group.  A reset beside its own negation as a
filter is kept where hits are counted; else the filter is, in the core only, because the reset of an
alternate clears the whole trigger. -/
def merge? (anyHits inCore : Bool) (a b : Clause) : Option Merge :=
  if a = b then some .keepFirst
  else if a.lead ≠ b.lead then none
  else if a.hasLargerTarget b then some .keepFirst
  else if a.hasHits || b.hasHits then none
  else if a.isResetOfFilter b then
    if anyHits then some .keepFirst else if inCore then some .keepSecond else none
  else mergeByValues a b

/-- The first two places of a group whose clauses can be merged. -/
def findMerge? (anyHits inCore : Bool) (group : List Clause) : Option (Nat × Nat × Merge) :=
  group.zipIdx.findSome? fun (a, i) => group.zipIdx.findSome? fun (b, j) =>
    if i = j then none else (merge? anyHits inCore a b).map fun m => (i, j, m)

/-- Merge the clauses at two places of a group. -/
def applyMerge (group : List Clause) (i j : Nat) : Merge → List Clause
  | .keepFirst => group.eraseIdx j
  | .keepSecond => group.eraseIdx i
  | .replace c => (group.set i c).eraseIdx j

/-- One merge in a group. -/
def mergeStep (anyHits inCore : Bool) (group : List Clause) : Option (List Clause × Event) :=
  (findMerge? anyHits inCore group).map fun (i, j, m) =>
    (applyMerge group i j m, .clausesMerged i j m.kind)

/-- Merge the clauses of a group until none can be merged; each merge leaves one clause fewer. -/
def mergeOverlaps (anyHits inCore : Bool) (group : List Clause) : Logged (List Clause) :=
  Logged.exhaust (mergeStep anyHits inCore) group.length group

end Clause

/-- Merge clauses that constrain the same quantity. -/
def removeRedundancies : Pass :=
  .onClauses "remove redundancies" fun g => do
    let anyHits := g.groups.any Clause.anyHits
    let core ← Clause.mergeOverlaps anyHits true g.core
    let alternates ← Logged.each (Clause.mergeOverlaps anyHits false) g.alternates
    pure { core, alternates }

end MemoryTrigger

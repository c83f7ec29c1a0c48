import MemoryTrigger.Comparison
import MemoryTrigger.Meaning.FirstFrame

/-! # The truth of a condition

What a condition says about one frame, read off its tree and not off the trigger it compiles to:
conjunctions and disjunctions are boolean, and a reset or a pause demands that its body is false.
Only the leaves refer to rows: a comparison is as true as the rows that it is lowered to.

Conditions that count beyond the first frame have no such reading.  `Condition.isGuarded` marks the
ones that do: a tree of comparisons in which parts may have to hold once, beside resets and pauses. -/
namespace MemoryTrigger

/-- Whether a lowered comparison holds. -/
def Comparison.truthIn (m : Memory) : Comparison → Bool
  | rows rs => (Clause.split rs).all (·.holdsIn m)
  | constant truth => truth

namespace Condition

/-- Comparisons and literals joined in any way. -/
def isTree : Condition → Bool
  | compare _ _ _ | literal _ => true
  | and a b | or a b => a.isTree && b.isTree
  | located _ c => c.isTree
  | _ => false

/-- Comparisons, literals and trees that have to hold once, joined in any way. -/
def isBody : Condition → Bool
  | compare _ _ _ | literal _ => true
  | repeated count c => count == 1 && c.isTree
  | and a b | or a b => a.isBody && b.isBody
  | located _ c => c.isBody
  | _ => false

/-- A conjunction of bodies, resets on trees and pauses on trees. -/
def isGuarded : Condition → Bool
  | and a b => a.isGuarded && b.isGuarded
  | resetIf c | pauseIf c => c.isTree
  | located _ c => c.isGuarded
  | c => c.isBody

/-- Whether what a condition demands of its first frame is so; `resolve` gives the sizes of
accessors.  How often something has to hold is not looked at, and a tally counts as false. -/
def truthIn (resolve : String → Option Size) (m : Memory) : Condition → Bool
  | compare left relation right =>
      match Comparison.ofValues resolve left relation right with
      | .ok comparison => comparison.truthIn m
      | .error _ => false
  | literal truth => truth
  | and a b => a.truthIn resolve m && b.truthIn resolve m
  | or a b => a.truthIn resolve m || b.truthIn resolve m
  | repeated _ c | measured c _ _ | triggerWhen c | located _ c => c.truthIn resolve m
  | resetIf c | pauseIf c => !c.truthIn resolve m
  | tally _ _ => false

end Condition
end MemoryTrigger

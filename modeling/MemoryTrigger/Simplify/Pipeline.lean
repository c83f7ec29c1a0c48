import MemoryTrigger.Simplify.BitTests
import MemoryTrigger.Simplify.Constants
import MemoryTrigger.Simplify.Disjunction
import MemoryTrigger.Simplify.Guards
import MemoryTrigger.Simplify.Overlap
import MemoryTrigger.Simplify.Sharing

/-! # The simplifier

Eight passes run one after another, and the round is repeated until it changes nothing.  No pass can
fail; a step that is not known to keep the meaning is left out. -/
namespace MemoryTrigger

/-- The passes of one round, in order. -/
def Pass.pipeline : List Pass :=
  [normalizeComparisons, normalizeGuards, promoteCommonClauses, removeDuplicates,
    removeRedundancies, mergeDuplicateAlternates, mergeRequirementGroups, mergeBits]

/-- Rounds after which the simplifier gives up. -/
def Pass.maxRounds : Nat := 32

/-- Run passes one after another. -/
def Pass.runAll : List Pass → Trigger → PassResult
  | [], t => { trigger := t, changed := false, events := [] }
  | pass :: rest, t =>
      let first := pass.run t
      let note := if first.changed then [Event.passChanged pass.name] else []
      let others := Pass.runAll rest first.trigger
      { trigger := others.trigger
        changed := first.changed || others.changed
        events := first.events ++ note ++ others.events }

namespace Trigger

/-- Repeat the pipeline until a round changes nothing, at most `limit` times; `round` is the number
of the next round. -/
def simplifyRounds : Nat → Nat → Trigger → Logged Trigger
  | 0, round, t => { value := t, events := [.stopped (round - 1)] }
  | limit + 1, round, t =>
      let out := Pass.runAll Pass.pipeline t
      if out.changed then
        let rest := simplifyRounds limit (round + 1) out.trigger
        { value := rest.value, events := out.events ++ rest.events }
      else { value := out.trigger, events := out.events ++ [.converged round] }

/-- One round, and the others if it changed anything. -/
theorem value_simplifyRounds_succ (limit round : Nat) (t : Trigger) :
    (t.simplifyRounds (limit + 1) round).value =
      let out := Pass.runAll Pass.pipeline t
      if out.changed then (out.trigger.simplifyRounds limit (round + 1)).value
      else out.trigger := by
  rw [simplifyRounds]
  simp only
  split
  · rfl
  · rfl

/-- The simplified trigger and the log of its simplification. -/
def simplifyLogged (t : Trigger) : Logged Trigger := t.simplifyRounds Pass.maxRounds 1

/-- The simplified trigger. -/
def simplify (t : Trigger) : Trigger := t.simplifyLogged.value

end Trigger
end MemoryTrigger

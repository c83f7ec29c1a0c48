import MemoryTrigger.Proofs.Simplify.Misjudged
import MemoryTrigger.Proofs.Simplify.Soundness
import Mathlib.Data.List.Forall2

/-! # What single passes keep

The simplifier as a whole is only sound for triggers without hits.  Three of its passes are sound by
themselves, whatever chains the clauses have and whatever they count: settling comparisons keeps all
that is observed of each group, turning guards into filters keeps when the trigger fires, and
collapsing alternates keeps when it fires and when it resets. -/
namespace MemoryTrigger
namespace Trigger
open Clause ClauseGroups
variable {t : Trigger}

/-! ## Settling comparisons -/

theorem groups_normalizeComparisons (t : Trigger) :
    (normalizeComparisons.run t).trigger.groups =
      t.groups.map fun rows => join (settledClauses rows) := by
  rw [trigger_normalizeComparisons]
  simp [groups, toTrigger, Function.comp_def]

/-- **Settling comparisons keeps what is observed of each group**: whether it is paused, whether it
resets, and whether everything in it holds that has to. -/
theorem agreeIn_normalizeComparisons (h : t.IsChained) (m : Memory) :
    List.Forall₂ (fun after before => AgreeIn m (split after) (split before))
      (normalizeComparisons.run t).trigger.groups t.groups := by
  have hclauses : (ofTrigger t).All Clause.IsChained := h.chainedClauses
  have hterminated : (ofTrigger t).All IsTerminated := hclauses.imp fun _ hc => hc.isTerminated
  have hsettled : t.settledGroups.All IsTerminated :=
    all_settledGroups kept_isTerminated hterminated hterminated
  rw [groups_normalizeComparisons, List.forall₂_map_left_iff, List.forall₂_same]
  intro rows hrows
  -- stored as rows, the settled clauses are told apart again
  rw [split_join (hsettled (settledClauses rows) (List.mem_map_of_mem hrows))]
  exact agreeIn_settledClauses_of_hasPlainModifiers m fun c hc =>
    (hclauses (split rows) (List.mem_map_of_mem hrows) c hc).hasPlainModifiers

/-- Constant links behind a link of their own kind and of the other kind, a tally with a row that never
hits, a link behind a modifier, and a pause that never fires. -/
def idleLinks : Trigger where
  core := [{ Row.comparing (.memory .byte 0x10) .eq (.literal 1) with role := .andNext },
    { Row.alwaysTrue with role := .andNext },
    { Row.alwaysFalse with role := .orNext },
    .comparing (.memory .byte 0x11) .lt (.literal 0x100),
    { Row.alwaysFalse with role := .addHits },
    { Row.comparing (.memory .byte 0x12) .ge (.literal 5) with role := .subHits },
    { Row.comparing (.literal 3) .le (.memory .byte 0x13) with role := .measured, hits := 3 }]
  alternates := [
    [.modifier .addSource (.memory .byte 0x14),
      { Row.comparing (.memory .byte 0x15) .lt (.literal 0) with role := .orNext },
      { Row.comparing (.memory .byte 0x16) .eq (.literal 2) with role := .resetIf }],
    [{ Row.comparing (.memory .bitCount 0x17) .gt (.literal 8) with role := .pauseIf },
      .comparing (.memory .byte 0x18) .ne (.literal 2)]]

theorem agreeIn_normalizeComparisons_idleLinks :
    idleLinks.IsChained ∧
      (normalizeComparisons.run idleLinks).trigger.groups.map List.length = [5, 3, 1] ∧
      ∀ m, List.Forall₂ (fun after before => AgreeIn m (split after) (split before))
        (normalizeComparisons.run idleLinks).trigger.groups idleLinks.groups := by
  have h : idleLinks.IsChained := ⟨by decide, by simp only [EndsClause]; decide⟩
  exact ⟨h, by decide +kernel, agreeIn_normalizeComparisons h⟩

/-! ## Guards as filters -/

/-- **Turning resets and pauses into filters keeps when the trigger fires.** -/
theorem firesIn_normalizeGuards (h : t.IsComparing) (m : Memory) :
    (normalizeGuards.run t).trigger.firesIn m = t.firesIn m := by
  have hstored : (ofTrigger t).filterGuards.All IsTerminated :=
    h.isTerminated.filterGuards closed_isTerminated
  rw [trigger_normalizeGuards, firesIn_toTrigger m hstored, firesIn_filterGuards,
    firesIn_ofTrigger]

/-- A reset by either of two comparisons, and three alternates: one with a reset that the core can
take over, one whose pause guards its reset, and one whose pause guards nothing. -/
def scatteredGuards : Trigger where
  core := [{ Row.comparing (.memory .byte 0x10) .eq (.literal 1) with role := .orNext },
    { Row.comparing (.memory .byte 0x11) .gt (.literal 2) with role := .resetIf },
    .comparing (.memory .byte 0x12) .ge (.literal 5)]
  alternates := [
    [.modifier .addSource (.memory .byte 0x13),
      { Row.comparing (.memory .byte 0x14) .lt (.literal 3) with role := .resetIf },
      .comparing (.memory .byte 0x15) .eq (.literal 1)],
    [{ Row.comparing (.memory .byte 0x16) .eq (.literal 1) with role := .pauseIf },
      { Row.comparing (.memory .byte 0x17) .eq (.literal 1) with role := .resetIf }],
    [{ Row.comparing (.memory .byte 0x18) .ne (.literal 0) with role := .pauseIf },
      { Row.comparing (.memory .byte 0x19) .eq (.literal 7) with role := .trigger }]]

theorem firesIn_normalizeGuards_scatteredGuards :
    scatteredGuards.IsComparing ∧
      (normalizeGuards.run scatteredGuards).trigger.groups.map List.length = [5, 1, 2, 2] ∧
      ∀ m, (normalizeGuards.run scatteredGuards).trigger.firesIn m = scatteredGuards.firesIn m := by
  have h : scatteredGuards.IsComparing := ⟨by decide, by simp only [EndsClause]; decide⟩
  exact ⟨h, by decide +kernel, firesIn_normalizeGuards h⟩

/-! ## Collapsing alternates -/

/-- **Collapsing alternates keeps when the trigger fires and when it resets**, where no alternate has
a clause twice. -/
theorem firesIn_and_resetsIn_mergeDuplicateAlternates (h : t.IsComparing)
    (hnodup : ∀ rows ∈ t.alternates, (split rows).Nodup) (m : Memory) :
    (mergeDuplicateAlternates.run t).trigger.firesIn m = t.firesIn m ∧
      (mergeDuplicateAlternates.run t).trigger.resetsIn m = t.resetsIn m := by
  have hstored : (ofTrigger t).collapseAlternates.value.All IsTerminated :=
    h.isTerminated.collapseAlternates closed_isTerminated
  have halternates : ∀ a ∈ (ofTrigger t).alternates, a.Nodup := List.forall_mem_map.mpr hnodup
  rw [trigger_mergeDuplicateAlternates]
  constructor
  · rw [firesIn_toTrigger m hstored, (observed_firesIn m).collapseAlternates halternates,
      firesIn_ofTrigger]
  · rw [resetsIn_toTrigger m hstored, (observed_resetsIn m).collapseAlternates halternates,
      resetsIn_ofTrigger]

/-- Alternates of which one resets, two are equal up to order and have a union with a third, and one
never holds, beside a core that resets what it counts. -/
def overlappingChoices : Trigger where
  core := [{ Row.comparing (.memory .byte 0x10) .eq (.literal 1) with role := .resetIf },
    { Row.comparing (.memory .byte 0x11) .ge (.literal 5) with hits := 3 }]
  alternates := [
    [.comparing (.memory .byte 0x12) .lt (.literal 4),
      { Row.comparing (.memory .byte 0x13) .eq (.literal 1) with role := .resetIf }],
    [.comparing (.memory .byte 0x14) .eq (.literal 2),
      .comparing (.memory .byte 0x12) .lt (.literal 4)],
    [.comparing (.memory .byte 0x12) .lt (.literal 4),
      .comparing (.memory .byte 0x14) .eq (.literal 2)],
    [.comparing (.memory .byte 0x14) .eq (.literal 2),
      .comparing (.memory .byte 0x12) .ge (.literal 4)],
    [.alwaysFalse, .comparing (.memory .byte 0x15) .eq (.literal 2)]]

theorem firesIn_and_resetsIn_mergeDuplicateAlternates_overlappingChoices :
    overlappingChoices.IsComparing ∧
      (∀ rows ∈ overlappingChoices.alternates, (split rows).Nodup) ∧
      (mergeDuplicateAlternates.run overlappingChoices).trigger.alternates =
        [[.comparing (.memory .byte 0x12) .lt (.literal 4),
            { Row.comparing (.memory .byte 0x13) .eq (.literal 1) with role := .resetIf }],
          [.comparing (.memory .byte 0x14) .eq (.literal 2)]] ∧
      ∀ m, (mergeDuplicateAlternates.run overlappingChoices).trigger.firesIn m =
          overlappingChoices.firesIn m ∧
        (mergeDuplicateAlternates.run overlappingChoices).trigger.resetsIn m =
          overlappingChoices.resetsIn m := by
  have h : overlappingChoices.IsComparing := ⟨by decide, by simp only [EndsClause]; decide⟩
  have hnodup : ∀ rows ∈ overlappingChoices.alternates, (split rows).Nodup := by decide +kernel
  exact ⟨h, hnodup, by decide +kernel, firesIn_and_resetsIn_mergeDuplicateAlternates h hnodup⟩

end Trigger
end MemoryTrigger

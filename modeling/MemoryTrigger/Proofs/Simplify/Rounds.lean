import MemoryTrigger.Proofs.Simplify.Collapsing
import MemoryTrigger.Simplify.Pipeline
import Mathlib.Logic.Function.Iterate

/-! # Rounds of the simplifier

A round runs the eight passes once.  Every round lowers the rank of a trigger that it changes
(`Trigger.isSettled_or_below`), so that rounds come to an end, for every trigger, and never come
back to a trigger that they changed.

The simplifier stops after `Pass.maxRounds` rounds, whether or not it came to the end.  Where it did,
simplifying again changes nothing; where it did not, it goes on lowering the rank.  So simplifying
twice is simplifying once for exactly those triggers that settle within the limit. -/
namespace MemoryTrigger

/-! ## Passes tell whether they change anything -/

namespace Pass
open Trigger

/-- The pass reports a change exactly when there is one. -/
def IsHonest (pass : Pass) : Prop := ∀ t, (pass.run t).changed = true ↔ (pass.run t).trigger ≠ t

theorem isHonest_onClauses (name : String) (f : ClauseGroups → Logged ClauseGroups) :
    (onClauses name f).IsHonest := by
  intro t
  simp [onClauses]

theorem isHonest_of_mem_pipeline {pass : Pass} (h : pass ∈ pipeline) : pass.IsHonest := by
  rcases List.mem_cons.mp h with rfl | h
  · exact changed_normalizeComparisons
  · have hclauses : ∃ name f, pass = onClauses name f := by
      simp only [List.mem_cons, List.not_mem_nil, or_false] at h
      rcases h with rfl | rfl | rfl | rfl | rfl | rfl | rfl <;> exact ⟨_, _, rfl⟩
    obtain ⟨name, f, rfl⟩ := hclauses
    exact isHonest_onClauses name f

theorem IsHonest.changed_eq_false {pass : Pass} (h : pass.IsHonest) {t : Trigger} :
    (pass.run t).changed = false ↔ (pass.run t).trigger = t := by
  rw [← Bool.not_eq_true, h t, not_not]

theorem trigger_runAll_cons (pass : Pass) (rest : List Pass) (t : Trigger) :
    (runAll (pass :: rest) t).trigger = (runAll rest (pass.run t).trigger).trigger := rfl

/-- A run of passes reports no change when none of them does. -/
theorem changed_runAll_eq_false {passes : List Pass} (h : ∀ pass ∈ passes, pass.IsHonest)
    (t : Trigger) :
    (runAll passes t).changed = false ↔ ∀ pass ∈ passes, (pass.run t).changed = false := by
  induction passes with
  | nil => simp [runAll]
  | cons pass rest ih =>
    obtain ⟨hpass, hrest⟩ := List.forall_mem_cons.mp h
    rw [runAll, Bool.or_eq_false_iff, List.forall_mem_cons]
    refine and_congr_right fun hsame => ?_
    rw [hpass.changed_eq_false.mp hsame]
    exact ih hrest

/-! ## Runs of passes that lower the rank -/

/-- Passes that, run one after another, each do nothing to a trigger or together lower its rank. -/
def Descend (passes : List Pass) : Prop :=
  ∀ t, (∀ pass ∈ passes, (pass.run t).trigger = t) ∨ Below (runAll passes t).trigger t

theorem trigger_runAll_of_forall {passes : List Pass} {t : Trigger}
    (h : ∀ pass ∈ passes, (pass.run t).trigger = t) : (runAll passes t).trigger = t := by
  induction passes with
  | nil => rfl
  | cons pass rest ih =>
    obtain ⟨hfirst, hothers⟩ := List.forall_mem_cons.mp h
    rw [trigger_runAll_cons, hfirst]
    exact ih hothers

theorem Descend.atMost {passes : List Pass} (h : Descend passes) (t : Trigger) :
    AtMost (runAll passes t).trigger t := by
  rcases h t with hsame | hbelow
  · exact .inl (trigger_runAll_of_forall hsame)
  · exact .inr hbelow

/-- A pass in front of others that lower the rank, at a trigger that it does not raise. -/
theorem Descend.cons_at {pass : Pass} {rest : List Pass} (hrest : Descend rest) {t : Trigger}
    (h : AtMost (pass.run t).trigger t) :
    (∀ p ∈ pass :: rest, (p.run t).trigger = t) ∨ Below (runAll (pass :: rest) t).trigger t := by
  rw [trigger_runAll_cons]
  rcases h with hsame | hbelow
  · rw [hsame]
    exact (hrest t).imp_left fun hothers => List.forall_mem_cons.mpr ⟨hsame, hothers⟩
  · rcases hrest.atMost (pass.run t).trigger with hsame | hbelow'
    · exact .inr (by rwa [hsame])
    · exact .inr (hbelow'.trans hbelow)

theorem Descend.cons {pass : Pass} {rest : List Pass}
    (hpass : ∀ t, AtMost (pass.run t).trigger t) (hrest : Descend rest) :
    Descend (pass :: rest) := fun t => hrest.cons_at (hpass t)

theorem descend_nil : Descend [] := fun _ => .inl (List.forall_mem_nil _)

/-- A pass on clauses does not raise a trigger when it does not raise its groups. -/
theorem atMost_of_toTrigger {f : ClauseGroups → ClauseGroups}
    (h : ∀ g : ClauseGroups, AtMost (f g).toTrigger g.toTrigger) (t : Trigger) :
    AtMost (f (.ofTrigger t)).toTrigger t := by
  have hatMost := h (.ofTrigger t)
  rwa [ClauseGroups.toTrigger_ofTrigger] at hatMost

theorem atMost_removeDuplicates (t : Trigger) : AtMost (removeDuplicates.run t).trigger t := by
  rw [ClauseGroups.trigger_removeDuplicates]
  exact atMost_of_toTrigger ClauseGroups.atMost_dropRepeated t

theorem atMost_removeRedundancies (t : Trigger) : AtMost (removeRedundancies.run t).trigger t := by
  rw [ClauseGroups.trigger_removeRedundancies]
  exact atMost_of_toTrigger ClauseGroups.atMost_withoutOverlaps t

theorem atMost_mergeBits (t : Trigger) : AtMost (mergeBits.run t).trigger t := by
  rw [ClauseGroups.trigger_mergeBits]
  exact atMost_of_toTrigger ClauseGroups.atMost_withWholes t

/-- The passes behind collapsing alternates. -/
theorem descend_trimming : Descend [mergeRequirementGroups, mergeBits] :=
  .cons (atMost_of_toTrigger ClauseGroups.atMost_withoutImplied) (.cons atMost_mergeBits descend_nil)

/-- Alternates that are all `1=1` are gone once the alternates collapsed. -/
theorem length_of_allTrue {t : Trigger} (h : t.AllTrue) :
    (runAll [removeDuplicates, removeRedundancies, mergeDuplicateAlternates,
      mergeRequirementGroups, mergeBits] t).trigger.alternates.length < t.alternates.length := by
  have hrepeated : (removeDuplicates.run t).trigger.AllTrue := by
    rw [ClauseGroups.trigger_removeDuplicates]
    exact ClauseGroups.allTrue_dropRepeated (by rwa [ClauseGroups.toTrigger_ofTrigger])
  have hmerged : (removeRedundancies.run (removeDuplicates.run t).trigger).trigger.AllTrue := by
    rw [ClauseGroups.trigger_removeRedundancies]
    exact ClauseGroups.allTrue_withoutOverlaps (by rwa [ClauseGroups.toTrigger_ofTrigger])
  have hcollapsed := ClauseGroups.length_collapseAlternates_of_allTrue hmerged
  rw [← ClauseGroups.trigger_mergeDuplicateAlternates] at hcollapsed
  have hmerge := ((atMost_removeRedundancies _).trans (atMost_removeDuplicates t)).length_le
  rw [trigger_runAll_cons, trigger_runAll_cons, trigger_runAll_cons]
  have htrim := (descend_trimming.atMost (mergeDuplicateAlternates.run (removeRedundancies.run
    (removeDuplicates.run t).trigger).trigger).trigger).length_le
  omega

/-- The passes from sharing clauses on.  Where all alternates are `1=1`, sharing makes the core
heavier, but then the alternates collapse. -/
theorem descend_sharing :
    Descend [promoteCommonClauses, removeDuplicates, removeRedundancies, mergeDuplicateAlternates,
      mergeRequirementGroups, mergeBits] := by
  intro t
  have hpromoted := ClauseGroups.atMost_or_allTrue_promoted (.ofTrigger t)
  rw [ClauseGroups.toTrigger_ofTrigger] at hpromoted
  rcases hpromoted with hatMost | ⟨hall, hlength⟩
  · refine Descend.cons_at ?_ hatMost
    exact .cons atMost_removeDuplicates (.cons atMost_removeRedundancies
      (.cons ClauseGroups.atMost_collapseAlternates descend_trimming))
  · have hlength : (promoteCommonClauses.run t).trigger.alternates.length =
        t.alternates.length := by
      rw [ClauseGroups.trigger_promoteCommonClauses]
      simpa [ClauseGroups.toTrigger, ClauseGroups.ofTrigger] using hlength
    rw [← ClauseGroups.trigger_promoteCommonClauses] at hall
    refine .inr (.inl ?_)
    rw [trigger_runAll_cons, ← hlength]
    exact length_of_allTrue hall

theorem descend_pipeline : Descend pipeline :=
  .cons atMost_normalizeComparisons
    (.cons (atMost_of_toTrigger ClauseGroups.atMost_filterGuards) descend_sharing)

end Pass

/-! ## Rounds -/

namespace Trigger

/-- One run of the pipeline. -/
def round (t : Trigger) : Trigger := (Pass.runAll Pass.pipeline t).trigger

/-- No pass has anything left to do. -/
def IsSettled (t : Trigger) : Prop := ∀ pass ∈ Pass.pipeline, (pass.run t).changed = false

theorem isSettled_iff {t : Trigger} :
    t.IsSettled ↔ (Pass.runAll Pass.pipeline t).changed = false :=
  (Pass.changed_runAll_eq_false (fun _ h => Pass.isHonest_of_mem_pipeline h) t).symm

theorem IsSettled.round_eq {t : Trigger} (h : t.IsSettled) : t.round = t :=
  Pass.trigger_runAll_of_forall fun pass hpass =>
    (Pass.isHonest_of_mem_pipeline hpass).changed_eq_false.mp (h pass hpass)

/-- **A round lowers the rank of every trigger that is not settled.** -/
theorem isSettled_or_below (t : Trigger) : t.IsSettled ∨ Below t.round t :=
  (Pass.descend_pipeline t).imp_left fun h pass hpass =>
    (Pass.isHonest_of_mem_pipeline hpass).changed_eq_false.mpr (h pass hpass)

theorem round_atMost (t : Trigger) : AtMost t.round t :=
  t.isSettled_or_below.imp_left IsSettled.round_eq

/-! ### Many rounds -/

theorem iterate_round_atMost (n : Nat) (t : Trigger) : AtMost (round^[n] t) t := by
  induction n with
  | zero => exact .refl t
  | succ n ih =>
    rw [Function.iterate_succ_apply']
    exact (round_atMost _).trans ih

/-- Rounds that come back to a trigger did not change it. -/
theorem isSettled_of_iterate_round_eq {t : Trigger} {n : Nat} (hn : 0 < n)
    (h : round^[n] t = t) : t.IsSettled := by
  obtain ⟨n, rfl⟩ := Nat.exists_eq_add_one.mpr hn
  refine t.isSettled_or_below.resolve_right fun hbelow => not_below_self t ?_
  rw [Function.iterate_succ_apply] at h
  rcases iterate_round_atMost n t.round with hsame | hbelow'
  · rwa [← hsame, h] at hbelow
  · rw [h] at hbelow'
    exact hbelow'.trans hbelow

theorem exists_isSettled_iterate (t : Trigger) : ∃ n, (round^[n] t).IsSettled := by
  induction t using wellFounded_below.induction with
  | _ t ih =>
    rcases t.isSettled_or_below with hsettled | hbelow
    · exact ⟨0, hsettled⟩
    · obtain ⟨n, hn⟩ := ih t.round hbelow
      exact ⟨n + 1, hn⟩

/-- **Repeating the pipeline comes to an end**: after finitely many rounds no pass reports a change.
No trigger comes back after rounds that changed it, and a pass reports a change exactly when it makes
one. -/
theorem rounds_terminate (t : Trigger) :
    (∃ n, ∀ pass ∈ Pass.pipeline, (pass.run (round^[n] t)).changed = false) ∧
    (∀ n, 0 < n → round^[n] t = t → ∀ pass ∈ Pass.pipeline, (pass.run t).changed = false) ∧
    ∀ pass ∈ Pass.pipeline, (pass.run t).changed = true ↔ (pass.run t).trigger ≠ t :=
  ⟨t.exists_isSettled_iterate, fun _ hn h => isSettled_of_iterate_round_eq hn h,
    fun _ hpass => Pass.isHonest_of_mem_pipeline hpass t⟩

/-- Two alternates `1=1` are shared and dropped, and what is left is settled. -/
theorem rounds_terminate_allTrue :
    (∃ n, ∀ pass ∈ Pass.pipeline,
      (pass.run (round^[n] ⟨[], [[.alwaysTrue], [.alwaysTrue]]⟩)).changed = false) ∧
    (0 < 1 ∧ round^[1] ⟨[.alwaysTrue], []⟩ = (⟨[.alwaysTrue], []⟩ : Trigger) ∧
      mergeBits ∈ Pass.pipeline ∧ (mergeBits.run ⟨[.alwaysTrue], []⟩).changed = false) ∧
    promoteCommonClauses ∈ Pass.pipeline ∧
      ((promoteCommonClauses.run ⟨[], [[.alwaysTrue], [.alwaysTrue]]⟩).changed = true ↔
        (promoteCommonClauses.run ⟨[], [[.alwaysTrue], [.alwaysTrue]]⟩).trigger ≠
          ⟨[], [[.alwaysTrue], [.alwaysTrue]]⟩) := by
  have hlast : mergeBits ∈ Pass.pipeline := by simp [Pass.pipeline]
  have hshare : promoteCommonClauses ∈ Pass.pipeline := by simp [Pass.pipeline]
  have hround : round^[1] ⟨[.alwaysTrue], []⟩ = (⟨[.alwaysTrue], []⟩ : Trigger) := by
    decide +kernel
  exact ⟨(rounds_terminate _).1,
    ⟨Nat.one_pos, hround, hlast, (rounds_terminate _).2.1 1 Nat.one_pos hround _ hlast⟩,
    hshare, (rounds_terminate _).2.2 _ hshare⟩

/-! ### The limit on rounds -/

/-- The bounded loop is as many rounds, since a trigger that is settled stays as it is. -/
theorem value_simplifyRounds (limit number : Nat) (t : Trigger) :
    (t.simplifyRounds limit number).value = round^[limit] t := by
  induction limit generalizing number t with
  | zero => rfl
  | succ limit ih =>
    rw [value_simplifyRounds_succ, Function.iterate_succ_apply]
    simp only
    split
    · exact ih (number + 1) _
    · rename_i hsame
      have hsettled : t.IsSettled := isSettled_iff.mpr (Bool.not_eq_true _ ▸ hsame)
      change t.round = round^[limit] t.round
      rw [hsettled.round_eq, Function.iterate_fixed hsettled.round_eq]

theorem simplify_eq_iterate (t : Trigger) : t.simplify = round^[Pass.maxRounds] t :=
  value_simplifyRounds _ _ t

/-- **Simplifying again changes nothing** for exactly the triggers that settle within the limit on
rounds. -/
theorem simplify_simplify_iff (t : Trigger) :
    t.simplify.simplify = t.simplify ↔ ∃ n ≤ Pass.maxRounds, (round^[n] t).IsSettled := by
  constructor
  · intro h
    refine ⟨Pass.maxRounds, Nat.le_refl _, ?_⟩
    rw [← simplify_eq_iterate]
    exact isSettled_of_iterate_round_eq (by decide) ((simplify_eq_iterate _).symm.trans h)
  · rintro ⟨n, hn, hsettled⟩
    obtain ⟨k, hk⟩ := Nat.exists_eq_add_of_le' hn
    have hsimplify : t.simplify = round^[n] t := by
      rw [simplify_eq_iterate, hk, Function.iterate_add_apply,
        Function.iterate_fixed hsettled.round_eq]
    rw [hsimplify, simplify_eq_iterate, Function.iterate_fixed hsettled.round_eq]

end Trigger
end MemoryTrigger

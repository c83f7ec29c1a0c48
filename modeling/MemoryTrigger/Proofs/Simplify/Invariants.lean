import MemoryTrigger.Proofs.Simplify.Links
import MemoryTrigger.Proofs.Simplify.Rounds

/-! # What simplifying keeps

Passes store their groups as rows, and the next pass finds the same clauses in them as long as no
group ends in a row that waits for another.  So a round is one composition of rewritings of groups
(`Trigger.ofTrigger_round`), and a property of clauses that all of them keep (`Clause.Kept`) holds
of a simplified trigger where it held of the trigger (`Trigger.all_simplify`).  For properties of
rows there is a form that does not mention clauses (`Trigger.forall_mem_rows_simplify`). -/
namespace MemoryTrigger

namespace Clause

/-- A property of clauses that passes keep, the first included, which settles comparisons and leaves
links out. -/
structure Kept (P : Clause → Prop) : Prop extends Closed P where
  settled : ∀ {c : Clause}, P c → P c.settled.unlinked

theorem kept_isTerminated : Kept IsTerminated :=
  ⟨closed_isTerminated, fun hc => (hc.settledFrom false).unlinked⟩

theorem Kept.congr {P Q : Clause → Prop} (hP : Kept P) (h : ∀ c, P c ↔ Q c) : Kept Q := by
  obtain rfl : P = Q := funext fun c => propext (h c)
  exact hP

/-- What the first pass makes of a clause are some of its rows, settled. -/
theorem forall_mem_rows_settled_unlinked {P : Row → Prop} {c : Clause}
    (hsettled : ∀ {r : Row} (after : Bool), P r → P (r.settled after)) (h : ∀ r ∈ c.rows, P r) :
    ∀ r ∈ c.settled.unlinked.rows, P r := by
  intro r hr
  have hr := c.settled.sublist_rows_unlinked.subset hr
  rw [settled, rows_settledFrom] at hr
  obtain ⟨s, hs, after, rfl⟩ := Row.exists_of_mem_normalizeRows hr
  exact hsettled after (h s hs)

theorem kept_of_preserved {P : Row → Prop} (hP : Row.Preserved P)
    (hsettled : ∀ {r : Row} (after : Bool), P r → P (r.settled after)) :
    Kept fun c => c.IsTerminated ∧ ∀ r ∈ c.rows, P r :=
  ⟨closed_of_preserved hP, fun hc => ⟨(hc.1.settledFrom false).unlinked,
    forall_mem_rows_settled_unlinked hsettled hc.2⟩⟩

end Clause

namespace ClauseGroups
open Clause

/-- What the first pass leaves of a group are clauses that it settled, and `0=1`. -/
theorem forall_mem_settledClauses {P : Clause → Prop} (hP : Kept P) {rows : List Row}
    (hterminated : ∀ c ∈ split rows, c.IsTerminated) (h : ∀ c ∈ split rows, P c) :
    ∀ c ∈ settledClauses rows, P c := by
  rw [settledClauses_of_isTerminated hterminated]
  intro c hc
  rcases mem_foldConstants hc with rfl | ⟨hc, -⟩
  · exact hP.alwaysFalse
  · obtain ⟨d, hd, rfl⟩ := List.mem_map.mp hc
    exact hP.settled (h d hd)

end ClauseGroups

/-! ## Rounds -/

namespace Trigger
open Clause ClauseGroups
variable {t : Trigger} {P : Clause → Prop}

/-- The groups of a trigger with their comparisons settled. -/
def settledGroups (t : Trigger) : ClauseGroups :=
  ⟨settledClauses t.core, t.alternates.map settledClauses⟩

/-- What a round has made of a trigger once shared clauses are in the core. -/
def shared (t : Trigger) : ClauseGroups := t.settledGroups.filterGuards.promoteShared.value

/-- What a round has made of a trigger once no clause is repeated. -/
def distinct (t : Trigger) : ClauseGroups := t.shared.dropTrueCore.dropRepeated

/-- What a round makes of a trigger depends on its settled groups only. -/
theorem round_congr {u : Trigger} (h : t.settledGroups = u.settledGroups) :
    t.round = u.round := by
  have hfirst : (normalizeComparisons.run t).trigger = (normalizeComparisons.run u).trigger := by
    rw [trigger_normalizeComparisons, trigger_normalizeComparisons]
    exact congrArg toTrigger h
  rw [round, round, Pass.pipeline, Pass.trigger_runAll_cons, hfirst]
  rfl

theorem all_settledGroups (hP : Kept P) (hterminated : (ofTrigger t).All IsTerminated)
    (h : (ofTrigger t).All P) : t.settledGroups.All P := by
  obtain ⟨hcore, halternates⟩ := all_iff.mp h
  obtain ⟨hcore', halternates'⟩ := all_iff.mp hterminated
  refine all_iff.mpr ⟨forall_mem_settledClauses hP hcore' hcore,
    List.forall_mem_map.mpr fun rows hrows => ?_⟩
  exact forall_mem_settledClauses hP (halternates' _ (List.mem_map_of_mem hrows))
    (halternates _ (List.mem_map_of_mem hrows))

theorem all_distinct (hP : Kept P) (hterminated : (ofTrigger t).All IsTerminated)
    (h : (ofTrigger t).All P) : t.distinct.All P :=
  ((((all_settledGroups hP hterminated h).filterGuards hP.toClosed).promoteShared
    hP.toClosed).dropTrueCore).dropRepeated hP.toClosed

theorem all_collapsed (hP : Kept P) (hterminated : (ofTrigger t).All IsTerminated)
    (h : (ofTrigger t).All P) : t.distinct.withoutOverlaps.collapseAlternates.value.All P :=
  ((all_distinct hP hterminated h).withoutOverlaps hP.toClosed).collapseAlternates hP.toClosed

/-- **A round in terms of groups of clauses**, where no group ends in a row that waits. -/
theorem ofTrigger_round (h : (ofTrigger t).All IsTerminated) :
    ofTrigger t.round =
      t.distinct.withoutOverlaps.collapseAlternates.value.withoutImplied.withWholes := by
  have hsettled := all_settledGroups kept_isTerminated h h
  have hguards := hsettled.filterGuards closed_isTerminated
  have hshared := (hguards.promoteShared closed_isTerminated).dropTrueCore
  have hdistinct := all_distinct kept_isTerminated h h
  have hmerged := hdistinct.withoutOverlaps closed_isTerminated
  have hcollapsed := all_collapsed kept_isTerminated h h
  have hfold : t.settledGroups.filterGuards.promoteShared.value.dropTrueCore.dropRepeated =
      t.distinct := rfl
  have hfirst : (normalizeComparisons.run t).trigger = t.settledGroups.toTrigger :=
    trigger_normalizeComparisons t
  show ofTrigger (mergeBits.run (mergeRequirementGroups.run (mergeDuplicateAlternates.run
    (removeRedundancies.run (removeDuplicates.run (promoteCommonClauses.run
      (normalizeGuards.run (normalizeComparisons.run t).trigger).trigger).trigger).trigger
      ).trigger).trigger).trigger).trigger = _
  rw [hfirst, trigger_normalizeGuards, ofTrigger_toTrigger hsettled, trigger_promoteCommonClauses,
    ofTrigger_toTrigger hguards, trigger_removeDuplicates, ofTrigger_toTrigger hshared, hfold,
    trigger_removeRedundancies, ofTrigger_toTrigger hdistinct, trigger_mergeDuplicateAlternates,
    ofTrigger_toTrigger hmerged, trigger_mergeRequirementGroups, ofTrigger_toTrigger hcollapsed,
    trigger_mergeBits, ofTrigger_toTrigger hcollapsed.withoutImplied,
    ofTrigger_toTrigger (hcollapsed.withoutImplied.withWholes closed_isTerminated)]

theorem all_round (hP : Kept P) (hterminated : (ofTrigger t).All IsTerminated)
    (h : (ofTrigger t).All P) : (ofTrigger t.round).All P := by
  rw [ofTrigger_round hterminated]
  exact (all_collapsed hP hterminated h).withoutImplied.withWholes hP.toClosed

/-- **A simplified trigger keeps what all passes keep.** -/
theorem all_simplify (hP : Kept P) (hterminated : (ofTrigger t).All IsTerminated)
    (h : (ofTrigger t).All P) : (ofTrigger t.simplify).All P := by
  rw [simplify_eq_iterate]
  induction Pass.maxRounds generalizing t with
  | zero => exact h
  | succ n ih =>
    rw [Function.iterate_succ_apply]
    exact ih (all_round kept_isTerminated hterminated hterminated) (all_round hP hterminated h)

/-- **Rows of a simplified trigger keep a property that settling and rewriting preserve**, and its
groups still end in terminal rows. -/
theorem forall_mem_rows_simplify {P : Row → Prop} (hP : Row.Preserved P)
    (hsettled : ∀ {r : Row} (after : Bool), P r → P (r.settled after))
    (hends : ∀ group ∈ t.groups, EndsClause group) (h : ∀ r ∈ t.rows, P r) :
    (∀ group ∈ t.simplify.groups, EndsClause group) ∧ ∀ r ∈ t.simplify.rows, P r := by
  have hall : (ofTrigger t.simplify).All fun c => c.IsTerminated ∧ ∀ r ∈ c.rows, P r :=
    all_simplify (kept_of_preserved hP hsettled) (all_isTerminated_ofTrigger hends)
      (all_ofTrigger_of_rows hends h)
  refine ⟨fun group hgroup => ?_, fun r hr => ?_⟩
  · rw [← join_split group]
    exact endsClause_join fun c hc => (all_ofTrigger_iff.mp hall group hgroup c hc).1
  · obtain ⟨group, hgroup, hr⟩ := List.mem_flatten.mp hr
    rw [← join_split group] at hr
    obtain ⟨c, hc, hr⟩ := List.mem_flatMap.mp hr
    exact (all_ofTrigger_iff.mp hall group hgroup c hc).2 r hr

end Trigger
end MemoryTrigger

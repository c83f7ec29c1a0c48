import MemoryTrigger.Proofs.Simplify.Disjunction
import MemoryTrigger.Proofs.Simplify.Implication
import MemoryTrigger.Proofs.Simplify.TrueCore
import MemoryTrigger.Proofs.Wire.Representable
import MemoryTrigger.Simplify.Pipeline

/-! # Simplified triggers can be written

A round of the simplifier makes a trigger that wire text can express out of any trigger whose rows
it can express (`Trigger.isRepresentable_round`).  Every pass keeps clauses orderly, which takes care
of the rows.  Dropping repeats leaves no alternate empty, and no later pass empties one.  That the core
is not a bare `1=1` in front of alternates is what the passes up to that one prepare.

Since this is true of every round, it does not matter whether the last one changed anything. -/
namespace MemoryTrigger

/-! ## Rows and clauses -/

namespace Row

theorem IsRepresentable.inverted {r : Row} (h : r.IsRepresentable) :
    r.inverted.IsRepresentable := by
  refine ⟨h.1, ?_⟩
  have hright := h.2
  rw [Row.inverted]
  cases hoperator : r.operator with
  | compare relation => simpa [hoperator, Operator.inverse] using hright
  | _ => simpa [hoperator, Operator.inverse] using hright

/-- Both sides of a comparison can be written. -/
theorem IsRepresentable.right {r : Row} (h : r.IsRepresentable)
    (hcompares : r.isComparison = true) : r.right.IsRepresentable := by
  have hright := h.2
  rwa [if_neg] at hright
  intro habsent
  simp [isComparison, habsent, Operator.isComparison] at hcompares

/-- Another comparison of the left side with a literal. -/
theorem IsRepresentable.withBound {r : Row} (h : r.IsRepresentable)
    (hcompares : r.isComparison = true) (relation : Relation) (value : UInt32) :
    IsRepresentable { r with operator := .compare relation, right := { r.right with value } } := by
  have hright : ({ r.right with value } : Operand).IsRepresentable := h.right hcompares
  exact ⟨h.1, by simpa using hright⟩

theorem IsRepresentable.literalRight {r : Row} (h : r.IsRepresentable)
    (hcompares : r.isComparison = true) : r.literalRight.IsRepresentable := by
  have hreverse : r.operator.reverse ≠ .absent := by
    revert hcompares
    rw [isComparison]
    cases r.operator <;> simp [Operator.isComparison, Operator.reverse]
  unfold Row.literalRight
  split
  · refine ⟨h.right hcompares, ?_⟩
    rw [if_neg hreverse]
    exact h.1
  · exact h

theorem IsRepresentable.normalize {r : Row} (h : r.IsRepresentable) :
    r.normalize.IsRepresentable := by
  by_cases hcompares : r.isComparison = true
  · have hliteral := h.literalRight hcompares
    rcases r.normalize_cases with heq | heq | ⟨truth, heq⟩ | ⟨relation, value, -, -, heq⟩
    · rwa [heq]
    · rwa [heq]
    · rw [heq]
      exact (isRepresentable_constant truth).of_eq rfl rfl rfl
    · rw [heq]
      exact hliteral.withBound (r.isComparison_literalRight.trans hcompares) relation value
  · simpa [Row.normalize, hcompares] using h

theorem IsRepresentable.settled {r : Row} (h : r.IsRepresentable) (afterModifier : Bool) :
    (r.settled afterModifier).IsRepresentable := by
  unfold Row.settled
  split
  · exact h.normalize
  · exact h

theorem mem_of_mem_removeIdentityLinks {previous : Option Row} {rows : List Row} {r : Row}
    (h : r ∈ (removeIdentityLinks previous rows).value) : r ∈ rows := by
  induction rows generalizing previous with
  | nil => cases h
  | cons s rest ih =>
    rw [removeIdentityLinks] at h
    split at h
    · exact List.mem_cons_of_mem _ (ih h)
    · rcases List.mem_cons.mp h with rfl | h
      · exact List.mem_cons_self
      · exact List.mem_cons_of_mem _ (ih h)

end Row

namespace Clause

/-- A clause that can be written, that chains on up to its last row, and that is not the reset on
`1!=1`. -/
structure IsOrderly (c : Clause) : Prop where
  rows : ∀ r ∈ c.rows, r.IsRepresentable
  lead : ∀ r ∈ c.lead, r.role.isCombining = true
  notVain : c ≠ vainReset

theorem isOrderly_single {r : Row} (h : r.IsRepresentable) (hne : single r ≠ vainReset) :
    (single r).IsOrderly :=
  ⟨by simpa [single, rows] using h, by simp [single], hne⟩

/-- Another terminal row that can be written. -/
theorem IsOrderly.withTerminal {c : Clause} (h : c.IsOrderly) {t : Row} (ht : t.IsRepresentable)
    (hne : (⟨c.lead, t⟩ : Clause) ≠ vainReset) : IsOrderly ⟨c.lead, t⟩ where
  rows := List.forall_mem_append.mpr
    ⟨(List.forall_mem_append.mp h.rows).1, List.forall_mem_singleton.mpr ht⟩
  lead := h.lead
  notVain := hne

/-- **Passes make orderly clauses of orderly clauses.** -/
theorem closed_isOrderly : Closed IsOrderly where
  alwaysTrue :=
    isOrderly_single (Row.isRepresentable_constant true) closed_ne_vainReset.alwaysTrue
  alwaysFalse :=
    isOrderly_single (Row.isRepresentable_constant false) closed_ne_vainReset.alwaysFalse
  inverted := by
    intro c d filters hc h hd
    have hne := closed_ne_vainReset.inverted hc.notVain h hd
    obtain ⟨-, -, ⟨-, rfl⟩ | ⟨-, -, rfl⟩⟩ := inverted?_cases h
    · rw [List.mem_singleton.mp hd] at hne ⊢
      exact hc.withTerminal (hc.rows _ c.terminal_mem_rows).inverted hne
    · obtain ⟨r, hr, rfl⟩ := List.mem_map.mp hd
      exact isOrderly_single (hc.rows r hr).inverted hne
  withSet := by
    intro c d s t hc hrole hs hd
    have hne := closed_ne_vainReset.withSet hc.notVain hrole hs hd
    obtain ⟨_, _, hoperator, -, -, -⟩ := valueSet?_eq_some.mp hs
    obtain ⟨relation, value, -, rfl⟩ := withSet?_eq_some.mp hd
    have hcompares : c.terminal.isComparison = true := by
      rw [Row.isComparison, hoperator]
      rfl
    exact hc.withTerminal ((hc.rows _ c.terminal_mem_rows).withBound hcompares relation value) hne
  equalityTest value hmemory := isOrderly_single
    (Row.isRepresentable_comparing (Operand.isRepresentable_of_isMemory hmemory) .eq
      (Operand.isRepresentable_literal value))
    (closed_ne_vainReset.equalityTest value hmemory)

/-- Joined and split again, orderly clauses are orderly. -/
theorem isOrderly_of_mem_split_join {cs : List Clause} (h : ∀ c ∈ cs, c.IsOrderly) :
    ∀ c ∈ split (join cs), c.IsOrderly := by
  intro c hc
  refine ⟨fun r hr => ?_, combining_of_mem_split hc, ?_⟩
  · obtain ⟨d, hd, hr⟩ := List.mem_flatMap.mp (mem_of_mem_split hc hr)
    exact (h d hd).rows r hr
  · rintro rfl
    have hcount := Nat.le_trans (List.count_pos_iff.mpr hc)
      (count_split_join_le (fun d hd => (h d hd).lead) _)
    exact (h vainReset (List.count_pos_iff.mp hcount)).notVain rfl

end Clause

/-! ## What passes prepare -/

namespace ClauseGroups
open Clause

/-- The clauses are orderly, and the core says `1=1` at most once. -/
structure IsSparing (g : ClauseGroups) : Prop where
  orderly : g.All IsOrderly
  once : g.core.count (single .alwaysTrue) ≤ 1

/-- Moreover, a core in front of alternates says more than `1=1`. -/
structure IsTrim (g : ClauseGroups) : Prop extends g.IsSparing where
  core : g.alternates ≠ [] → g.core ≠ alwaysTrueGroup

/-- The clauses are orderly, no alternate is empty, and a core in front of alternates says more than
`1=1`. -/
structure IsReduced (g : ClauseGroups) : Prop where
  orderly : g.All IsOrderly
  alternates : ∀ a ∈ g.alternates, a ≠ []
  core : g.alternates ≠ [] → g.core ≠ alwaysTrueGroup

section Splitting
variable {g : ClauseGroups}

/-- A group of a trigger that a pass has stored is split again by the next pass. -/
theorem mem_alternates_ofTrigger_toTrigger {group : List Clause}
    (h : group ∈ (ofTrigger g.toTrigger).alternates) :
    ∃ a ∈ g.alternates, group = split (join a) := by
  simp only [ofTrigger, toTrigger, List.map_map, List.mem_map] at h
  obtain ⟨a, ha, rfl⟩ := h
  exact ⟨a, ha, rfl⟩

theorem All.ofTrigger_toTrigger (h : g.All IsOrderly) : (ofTrigger g.toTrigger).All IsOrderly := by
  obtain ⟨hcore, halternates⟩ := all_iff.mp h
  refine all_iff.mpr ⟨isOrderly_of_mem_split_join hcore, fun group hgroup => ?_⟩
  obtain ⟨a, ha, rfl⟩ := mem_alternates_ofTrigger_toTrigger hgroup
  exact isOrderly_of_mem_split_join (halternates a ha)

theorem core_ofTrigger_toTrigger_ne (h : g.alternates ≠ [] → g.core ≠ alwaysTrueGroup) :
    (ofTrigger g.toTrigger).alternates ≠ [] → (ofTrigger g.toTrigger).core ≠ alwaysTrueGroup := by
  intro hne hcore
  exact h (by simpa [ofTrigger, toTrigger] using hne) (split_join_eq_alwaysTrueGroup hcore)

theorem alternates_ofTrigger_toTrigger_ne_nil (h : ∀ a ∈ g.alternates, a ≠ []) :
    ∀ a ∈ (ofTrigger g.toTrigger).alternates, a ≠ [] := by
  intro group hgroup hnil
  obtain ⟨a, ha, rfl⟩ := mem_alternates_ofTrigger_toTrigger hgroup
  exact h a ha (join_eq_nil.mp (split_eq_nil.mp hnil))

theorem IsSparing.ofTrigger_toTrigger (h : g.IsSparing) : (ofTrigger g.toTrigger).IsSparing where
  orderly := h.orderly.ofTrigger_toTrigger
  once := Nat.le_trans
    (count_split_join_le (fun c hc => ((all_iff.mp h.orderly).1 c hc).lead) _) h.once

theorem IsReduced.ofTrigger_toTrigger (h : g.IsReduced) : (ofTrigger g.toTrigger).IsReduced where
  orderly := h.orderly.ofTrigger_toTrigger
  alternates := alternates_ofTrigger_toTrigger_ne_nil h.alternates
  core := core_ofTrigger_toTrigger_ne h.core

end Splitting

/-! ## Settled comparisons -/

theorem isOrderly_of_mem_settledClauses {rows : List Row} (h : ∀ r ∈ rows, r.IsRepresentable) :
    ∀ c ∈ settledClauses rows, c.IsOrderly := by
  intro c hc
  rcases mem_foldConstants hc with rfl | ⟨hc, hfires⟩
  · exact closed_isOrderly.alwaysFalse
  refine ⟨fun r hr => ?_, combining_of_mem_split hc, ?_⟩
  · have hr := Row.mem_of_mem_removeIdentityLinks (mem_of_mem_split hc hr)
    obtain ⟨s, hs, after, rfl⟩ := Row.exists_of_mem_normalizeRows hr
    exact (h s hs).settled after
  · rintro rfl
    cases hfires

/-- No comparison that is left free is `1!=1`. -/
theorem forallFree_settledClauses (rows : List Row) :
    Row.ForallFree (·.inverted ≠ .alwaysTrue) false (join (settledClauses rows)) := by
  have hnormal : Row.ForallFree (·.inverted ≠ .alwaysTrue) false
      (Row.normalizeRows false rows).value :=
    .normalizeRows Row.inverted_normalize_ne false rows
  have hlinked := Row.ForallFree.removeIdentityLinks none hnormal
  refine .join fun c hc => ?_
  rcases mem_foldConstants hc with rfl | ⟨hc, -⟩
  · exact ⟨fun _ => by decide, trivial⟩
  · exact hlinked.of_mem_split hc

/-- **Settling comparisons** makes orderly clauses of rows that can be written, and leaves no guard
that would turn into `1=1`. -/
theorem isSparing_normalizeComparisons {t : Trigger} (h : ∀ r ∈ t.rows, r.IsRepresentable) :
    (ofTrigger (normalizeComparisons.run t).trigger).IsSparing ∧
      (ofTrigger (normalizeComparisons.run t).trigger).All NoTrueFilter := by
  have hgroup : ∀ rows ∈ t.groups, ∀ r ∈ rows, r.IsRepresentable := fun rows hrows r hr =>
    h r (List.mem_flatten.mpr ⟨rows, hrows, hr⟩)
  obtain ⟨hcore, halternates⟩ := List.forall_mem_cons.mp hgroup
  rw [trigger_normalizeComparisons]
  refine ⟨IsSparing.ofTrigger_toTrigger ⟨all_iff.mpr ⟨isOrderly_of_mem_settledClauses hcore, ?_⟩,
    count_foldConstants_le _⟩, all_iff.mpr ⟨fun c hc => ?_, fun group hgroup c hc => ?_⟩⟩
  · exact List.forall_mem_map.mpr fun rows hrows =>
      isOrderly_of_mem_settledClauses (halternates rows hrows)
  · exact noTrueFilter_of_forallFree ((forallFree_settledClauses t.core).of_mem_split hc)
  · obtain ⟨a, ha, rfl⟩ := mem_alternates_ofTrigger_toTrigger hgroup
    obtain ⟨rows, -, rfl⟩ := List.mem_map.mp ha
    exact noTrueFilter_of_forallFree ((forallFree_settledClauses rows).of_mem_split hc)

/-! ## The other passes -/

section Passes
variable {t : Trigger}

theorem IsSparing.normalizeGuards (h : (ofTrigger t).IsSparing)
    (hfilters : (ofTrigger t).All NoTrueFilter) :
    (ofTrigger (normalizeGuards.run t).trigger).IsSparing := by
  rw [trigger_normalizeGuards]
  refine IsSparing.ofTrigger_toTrigger ⟨h.orderly.filterGuards closed_isOrderly, ?_⟩
  exact Nat.le_trans (count_core_filterGuards_le hfilters) h.once

theorem IsSparing.promoteCommonClauses (h : (ofTrigger t).IsSparing) :
    (ofTrigger (promoteCommonClauses.run t).trigger).IsTrim := by
  rw [trigger_promoteCommonClauses]
  refine ⟨IsSparing.ofTrigger_toTrigger ⟨?_, ?_⟩, core_ofTrigger_toTrigger_ne core_dropTrueCore_ne⟩
  · exact (h.orderly.promoteShared closed_isOrderly).dropTrueCore
  · exact Nat.le_trans (count_core_dropTrueCore_le _) (count_core_promoteShared_le h.once)

theorem fillEmpty_ne_nil (group : List Clause) : fillEmpty group ≠ [] := by
  unfold fillEmpty
  split
  · simp [alwaysTrueGroup]
  · rename_i hne
    simpa [List.isEmpty_iff] using hne

/-- **Dropping repeats** brings a core down to `1=1` only where it was that before. -/
theorem IsTrim.removeDuplicates (h : (ofTrigger t).IsTrim) :
    (ofTrigger (removeDuplicates.run t).trigger).IsTrim ∧
      ∀ a ∈ (ofTrigger (removeDuplicates.run t).trigger).alternates, a ≠ [] := by
  rw [trigger_removeDuplicates]
  refine ⟨⟨IsSparing.ofTrigger_toTrigger ⟨h.orderly.dropRepeated closed_isOrderly,
    count_eraseDups_le _ _⟩, core_ofTrigger_toTrigger_ne fun hne heq => ?_⟩,
    alternates_ofTrigger_toTrigger_ne_nil (List.forall_mem_map.mpr fun _ _ => fillEmpty_ne_nil _)⟩
  have hne : (ofTrigger t).alternates ≠ [] := by simpa [dropRepeated] using hne
  exact h.core hne (eq_alwaysTrueGroup_of_eraseDups h.once heq)

theorem IsTrim.removeRedundancies (h : (ofTrigger t).IsTrim)
    (halternates : ∀ a ∈ (ofTrigger t).alternates, a ≠ []) :
    (ofTrigger (removeRedundancies.run t).trigger).IsReduced := by
  rw [trigger_removeRedundancies]
  refine IsReduced.ofTrigger_toTrigger ⟨h.orderly.withoutOverlaps closed_isOrderly, ?_,
    fun hne => ?_⟩
  · exact List.forall_mem_map.mpr fun group hgroup =>
      mergeOverlaps_ne_nil (halternates group hgroup)
  · have hne : (ofTrigger t).alternates ≠ [] := by simpa [withoutOverlaps] using hne
    have hmore : SaysMore (ofTrigger t).core :=
      ⟨h.once, fun c hc => ((all_iff.mp h.orderly).1 c hc).notVain, h.core hne⟩
    exact hmore.mergeOverlaps.ne

theorem union?_ne_nil {a b merged : List Clause} (h : union? a b = some merged) : merged ≠ [] := by
  obtain ⟨-, ca, cb, position, s, t, hget, -, -, -, -, -, hmerged⟩ := union?_cases h
  rcases hmerged with ⟨-, rfl⟩ | ⟨c, -, rfl⟩
  · exact fillEmpty_ne_nil _
  · have hne : a ≠ [] := List.ne_nil_of_mem (List.mem_of_getElem? hget)
    simpa using hne

theorem IsReduced.mergeDuplicateAlternates (h : (ofTrigger t).IsReduced) :
    (ofTrigger (mergeDuplicateAlternates.run t).trigger).IsReduced := by
  rw [trigger_mergeDuplicateAlternates]
  obtain ⟨halternates, hcore⟩ := forall_collapseAlternates (Q := (· ≠ []))
    (fun hunion _ => union?_ne_nil hunion) h.alternates
  refine IsReduced.ofTrigger_toTrigger ⟨h.orderly.collapseAlternates closed_isOrderly, halternates,
    fun hne => ?_⟩
  rcases hcore with heq | ⟨lone, -, heq⟩
  · rw [heq]
    refine h.core fun hnil => hne ?_
    simp [collapseAlternates, hnil]
  -- A lone alternate has joined the core, and none are left.
  · rw [heq] at hne
    exact absurd rfl hne

theorem IsReduced.mergeRequirementGroups (h : (ofTrigger t).IsReduced) :
    (ofTrigger (mergeRequirementGroups.run t).trigger).IsReduced := by
  rw [trigger_mergeRequirementGroups]
  refine IsReduced.ofTrigger_toTrigger ⟨h.orderly.withoutImplied,
    fun a ha => h.alternates a (mem_of_mem_withoutImplied ha), fun hne => ?_⟩
  obtain ⟨a, ha⟩ := List.exists_mem_of_ne_nil _ hne
  exact h.core (List.ne_nil_of_mem (mem_of_mem_withoutImplied ha))

theorem IsReduced.mergeBits (h : (ofTrigger t).IsReduced) :
    (ofTrigger (mergeBits.run t).trigger).IsReduced := by
  rw [trigger_mergeBits]
  refine IsReduced.ofTrigger_toTrigger ⟨h.orderly.withWholes closed_isOrderly, ?_, fun hne => ?_⟩
  · exact List.forall_mem_map.mpr fun group hgroup =>
      mergeBitTests_ne_nil (h.alternates group hgroup)
  · exact mergeBitTests_ne_alwaysTrueGroup (h.core (by simpa [withWholes] using hne))

end Passes

end ClauseGroups

/-! ## Rounds -/

namespace Trigger
open ClauseGroups
variable {t : Trigger}

theorem isRepresentable_of_isReduced (h : (ofTrigger t).IsReduced) : t.IsRepresentable := by
  refine ⟨fun r hr => ?_, fun rows hrows hnil => ?_, fun hne hcore => ?_⟩
  · obtain ⟨rows, hrows, hr⟩ := List.mem_flatten.mp hr
    have hgroup : Clause.split rows ∈ (ofTrigger t).groups := List.mem_map_of_mem hrows
    rw [← Clause.join_split rows] at hr
    obtain ⟨c, hc, hr⟩ := List.mem_flatMap.mp hr
    exact (h.orderly _ hgroup c hc).rows r hr
  · exact h.alternates (Clause.split rows) (List.mem_map_of_mem hrows)
      (Clause.split_eq_nil.mpr hnil)
  · refine h.core (by simpa [ofTrigger] using hne) ?_
    rw [ofTrigger, hcore]
    rfl

/-- **A round makes a trigger that can be written** of any trigger whose rows can be. -/
theorem isRepresentable_round (h : ∀ r ∈ t.rows, r.IsRepresentable) :
    (Pass.runAll Pass.pipeline t).trigger.IsRepresentable := by
  obtain ⟨hsparing, hfilters⟩ := isSparing_normalizeComparisons h
  have htrim := (hsparing.normalizeGuards hfilters).promoteCommonClauses
  obtain ⟨htrim, halternates⟩ := htrim.removeDuplicates
  have hreduced := (htrim.removeRedundancies halternates).mergeDuplicateAlternates
  exact isRepresentable_of_isReduced hreduced.mergeRequirementGroups.mergeBits

theorem IsRepresentable.simplifyRounds (h : t.IsRepresentable) (limit number : Nat) :
    (t.simplifyRounds limit number).value.IsRepresentable := by
  induction limit generalizing t number with
  | zero => exact h
  | succ limit ih =>
    have hround := isRepresentable_round h.rows
    rw [value_simplifyRounds_succ]
    simp only
    split
    · exact ih hround (number + 1)
    · exact hround

/-- **A simplified trigger can be written** if the rows of the trigger can be, whether or not the
last round still changed something. -/
theorem isRepresentable_simplify (h : ∀ r ∈ t.rows, r.IsRepresentable) :
    t.simplify.IsRepresentable := by
  have hround := isRepresentable_round h
  -- the first round makes the trigger representable, the others keep it so
  rw [simplify, simplifyLogged, Pass.maxRounds, value_simplifyRounds_succ]
  simp only
  split
  · exact hround.simplifyRounds 31 2
  · exact hround

end Trigger
end MemoryTrigger

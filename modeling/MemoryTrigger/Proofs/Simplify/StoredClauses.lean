import MemoryTrigger.Proofs.Simplify.Descent
import MemoryTrigger.Proofs.Simplify.Invariants

/-! # What passes store

A pass computes clauses and stores their rows, in which the end of a clause shows only by the role of
its last row.  The clauses are found again exactly where no clause but the last of a group dangles
(`Clause.split_join_iff`).  Every pass keeps this within a group (`Clause.Separated`).  Three of the
passes put clauses behind those of the core, and a core that dangles takes them in
(`Rewriting.Stores`). -/
namespace MemoryTrigger

theorem Role.isCombining_of_isGuard {role : Role} (h : role.isGuard = true) :
    role.isCombining = false := by
  revert h
  cases role <;> simp [isGuard, isCombining]

namespace Clause

/-! ## Clauses that are found again -/

/-- Leads chain on, and a clause with another one behind it ends in a terminal row. -/
structure Separated (cs : List Clause) : Prop where
  lead : ∀ c ∈ cs, ∀ r ∈ c.lead, r.role.isCombining = true
  ended : cs.Pairwise fun c _ => c.role.isCombining = false

theorem separated_cons {c : Clause} {cs : List Clause} :
    Separated (c :: cs) ↔ (∀ r ∈ c.lead, r.role.isCombining = true) ∧
      (cs = [] ∨ c.role.isCombining = false) ∧ Separated cs := by
  constructor
  · rintro ⟨hlead, hended⟩
    obtain ⟨hc, hcs⟩ := List.forall_mem_cons.mp hlead
    obtain ⟨hbehind, hended⟩ := List.pairwise_cons.mp hended
    refine ⟨hc, ?_, hcs, hended⟩
    cases cs with
    | nil => exact .inl rfl
    | cons d cs => exact .inr (hbehind d List.mem_cons_self)
  · rintro ⟨hc, hlast, hcs, hended⟩
    refine ⟨List.forall_mem_cons.mpr ⟨hc, hcs⟩, List.pairwise_cons.mpr ⟨fun d hd => ?_, hended⟩⟩
    rcases hlast with rfl | hlast
    · cases hd
    · exact hlast

theorem separated_nil : Separated [] := ⟨by simp, .nil⟩

theorem separated_of_isTerminated {cs : List Clause} (h : ∀ c ∈ cs, c.IsTerminated) :
    Separated cs :=
  ⟨fun c hc => (h c hc).lead, List.pairwise_of_forall_mem_list fun c hc _ _ => (h c hc).terminal⟩

/-- Clauses put behind others are separated from them where none of those dangles. -/
theorem separated_append {cs ds : List Clause} :
    Separated (cs ++ ds) ↔
      Separated cs ∧ Separated ds ∧ ((∀ c ∈ cs, c.IsTerminated) ∨ ds = []) := by
  constructor
  · rintro ⟨hlead, hended⟩
    obtain ⟨hcs, hds⟩ := List.forall_mem_append.mp hlead
    obtain ⟨hended, hended', hacross⟩ := List.pairwise_append.mp hended
    refine ⟨⟨hcs, hended⟩, ⟨hds, hended'⟩, ?_⟩
    cases ds with
    | nil => exact .inr rfl
    | cons d ds => exact .inl fun c hc => ⟨hcs c hc, hacross c hc d List.mem_cons_self⟩
  · rintro ⟨hcs, hds, hacross⟩
    refine ⟨List.forall_mem_append.mpr ⟨hcs.lead, hds.lead⟩,
      List.pairwise_append.mpr ⟨hcs.ended, hds.ended, fun c hc d hd => ?_⟩⟩
    rcases hacross with hcs | rfl
    · exact (hcs c hc).terminal
    · cases hd

theorem separated_split (rows : List Row) : Separated (split rows) := by
  induction rows with
  | nil => exact separated_nil
  | cons r rest ih =>
    rw [split]
    split
    · rename_i hr
      split
      · exact separated_cons.mpr ⟨by simp [single], .inl rfl, separated_nil⟩
      · rename_i c cs hsplit
        rw [hsplit] at ih
        obtain ⟨hlead, hlast, hcs⟩ := separated_cons.mp ih
        exact separated_cons.mpr ⟨List.forall_mem_cons.mpr ⟨hr, hlead⟩, hlast, hcs⟩
    · rename_i hr
      exact separated_cons.mpr ⟨by simp [single], .inr (Bool.not_eq_true _ ▸ hr), ih⟩

/-- The rows of one clause are split into that clause, also where it dangles. -/
theorem split_rows {c : Clause} (h : ∀ r ∈ c.lead, r.role.isCombining = true) :
    split c.rows = [c] := by
  obtain ⟨lead, terminal⟩ := c
  induction lead with
  | nil =>
    show split [terminal] = _
    rw [split]
    split <;> rfl
  | cons r lead ih =>
    obtain ⟨hr, hlead⟩ := List.forall_mem_cons.mp h
    show split (r :: Clause.rows ⟨lead, terminal⟩) = _
    rw [split, if_pos hr, ih hlead]

/-- **Joined clauses are found again exactly where no clause but the last dangles.** -/
theorem split_join_iff {cs : List Clause} : split (join cs) = cs ↔ Separated cs := by
  constructor
  · intro h
    rw [← h]
    exact separated_split _
  · intro h
    induction cs with
    | nil => rfl
    | cons c cs ih =>
      obtain ⟨hlead, hlast, hcs⟩ := separated_cons.mp h
      rw [join_cons]
      rcases hlast with rfl | hterminal
      · rw [join, List.flatMap_nil, List.append_nil, split_rows hlead]
      · rw [split_rows_append ⟨hlead, hterminal⟩, ih hcs]

theorem forall_isTerminated_split_iff {rows : List Row} :
    (∀ c ∈ split rows, c.IsTerminated) ↔ EndsClause rows := by
  refine ⟨fun h => ?_, isTerminated_of_mem_split⟩
  rw [← join_split rows]
  exact endsClause_join h

/-! ## Groups stay separated -/

/-- What two clauses are replaced by ends in a terminal row. -/
theorem isTerminated_of_merge? {anyHits inCore : Bool} {a b c : Clause}
    (hlead : ∀ r ∈ a.lead, r.role.isCombining = true)
    (h : merge? anyHits inCore a b = some (.replace c)) : c.IsTerminated := by
  rcases merge?_cases h with ⟨-, hkeep⟩ | ⟨-, ⟨-, hkeep⟩ |
    ⟨-, -, ⟨-, ⟨hkeep, -⟩ | ⟨hkeep, -⟩⟩ | hvalues⟩⟩
  · cases hkeep
  · cases hkeep
  · cases hkeep
  · cases hkeep
  · obtain ⟨-, -, s, t, hs, -, ⟨hplain, hmerge⟩ | ⟨hguard, hmerge⟩⟩ := mergeByValues_cases hvalues
    · rcases mergeFilters_cases hmerge with ⟨hkeep, -⟩ | ⟨hkeep, -⟩ | ⟨hfalse, -⟩ | ⟨d, heq, hd⟩
      · cases hkeep
      · cases hkeep
      · cases hfalse
        exact isTerminated_single rfl
      · cases heq
        exact closed_isTerminated.withSet ⟨hlead, congrArg Role.isCombining hplain⟩
          (congrArg Role.isMeasured hplain) hs hd
    · rcases mergeGuards_cases hmerge with ⟨hkeep, -⟩ | ⟨hkeep, -⟩ | ⟨d, heq, hd⟩
      · cases hkeep
      · cases hkeep
      · cases heq
        exact closed_isTerminated.withSet ⟨hlead, Role.isCombining_of_isGuard hguard⟩
          (Role.isMeasured_of_isGuard hguard) hs hd

theorem sublist_foldr_eraseIdx (places : List Nat) (group : List Clause) :
    (places.foldr (fun j cs => cs.eraseIdx j) group).Sublist group := by
  induction places with
  | nil => exact .refl _
  | cons j places ih => exact (List.eraseIdx_sublist _ j).trans ih

/-- A guard that becomes filters ends in a terminal row, and so do they. -/
theorem filtersFor?_getD_cases {role : Role} {c : Clause} (hrole : role.isGuard = true)
    (hlead : ∀ r ∈ c.lead, r.role.isCombining = true) :
    (c.filtersFor? role).getD [c] = [c] ∨
      c.IsTerminated ∧ ∀ d ∈ (c.filtersFor? role).getD [c], d.IsTerminated := by
  cases hfilters : c.filtersFor? role with
  | none => exact .inl rfl
  | some filters =>
    obtain ⟨rfl, hinverted⟩ := filtersFor?_eq_some.mp hfilters
    have hc : c.IsTerminated := ⟨hlead, Role.isCombining_of_isGuard hrole⟩
    exact .inr ⟨hc, fun d hd => closed_isTerminated.inverted hc hinverted hd⟩

namespace Separated
variable {group group' : List Clause}

theorem sublist (h : Separated group) (hsub : group'.Sublist group) : Separated group' :=
  ⟨fun c hc => h.lead c (hsub.subset hc), h.ended.sublist hsub⟩

/-- A clause may be replaced by one that ends in a terminal row. -/
theorem set (h : Separated group) {c : Clause} (hc : c.IsTerminated) (i : Nat) :
    Separated (group.set i c) := by
  induction group generalizing i with
  | nil => exact h
  | cons d group ih =>
    obtain ⟨hlead, hlast, hgroup⟩ := separated_cons.mp h
    cases i with
    | zero => exact separated_cons.mpr ⟨hc.lead, .inr hc.terminal, hgroup⟩
    | succ i =>
      refine separated_cons.mpr ⟨hlead, hlast.imp_left fun hnil => ?_, ih hgroup i⟩
      rw [hnil]
      rfl

theorem fillEmpty (h : Separated group) : Separated (ClauseGroups.fillEmpty group) := by
  unfold ClauseGroups.fillEmpty
  split
  · exact separated_of_isTerminated (ClauseGroups.forall_mem_alwaysTrueGroup closed_isTerminated)
  · exact h

theorem foldConstants (h : Separated group) : Separated (foldConstants group) := by
  rcases foldConstants_cases group with hsub | ⟨-, -, -, heq⟩
  · exact h.sublist hsub
  · -- what stays of a group that never holds are guards
    rw [heq]
    refine separated_of_isTerminated (List.forall_mem_append.mpr ⟨fun c hc => ?_,
      List.forall_mem_singleton.mpr (isTerminated_single rfl)⟩)
    obtain ⟨hc, hguard⟩ := List.mem_filter.mp hc
    exact ⟨h.lead c (List.mem_filter.mp hc).1, Role.isCombining_of_isGuard hguard⟩

theorem mergeOverlaps (anyHits inCore : Bool) (h : Separated group) :
    Separated (mergeOverlaps anyHits inCore group).value := by
  refine Logged.exhaust_keeps (fun before after event hstep hbefore => ?_) _ group h
  obtain ⟨i, j, a, b, e, -, hi, -, hmerge, rfl⟩ := mergeStep_places hstep
  cases e with
  | keepFirst => exact hbefore.sublist (List.eraseIdx_sublist _ _)
  | keepSecond => exact hbefore.sublist (List.eraseIdx_sublist _ _)
  | replace c =>
    have hc := isTerminated_of_merge? (hbefore.lead a (List.mem_of_getElem? hi)) hmerge
    exact (hbefore.set hc i).sublist (List.eraseIdx_sublist _ _)

theorem mergeBitTests (h : Separated group) : Separated (mergeBitTests group).value := by
  refine Logged.exhaust_keeps (fun before after event hstep hbefore => ?_) _ group h
  obtain ⟨found, parts, -, rfl⟩ := bitStep_eq_some hstep
  unfold replaceAt
  split
  · exact hbefore
  · rename_i first others _
    refine (hbefore.set (c := single found.2.row) (isTerminated_single rfl) first).sublist ?_
    rw [List.foldl_reverse]
    exact sublist_foldr_eraseIdx others _

theorem union? {merged : List Clause} (hunion : union? group group' = some merged)
    (h : Separated group) : Separated merged := by
  obtain ⟨hplain, -⟩ := union?_cases hunion
  refine separated_of_isTerminated (closed_isTerminated.union? (fun c hc => ⟨h.lead c hc, ?_⟩) hunion)
  exact congrArg Role.isCombining (role_of_isPlain (hplain c (List.mem_append_left _ hc)))

/-- A clause that dangles is no guard and stays in its place. -/
theorem invertRole {role : Role} (hrole : role.isGuard = true) (h : Separated group) :
    Separated (invertRole role group) := by
  induction group with
  | nil => exact separated_nil
  | cons c group ih =>
    obtain ⟨hlead, hlast, hgroup⟩ := separated_cons.mp h
    show Separated ((c.filtersFor? role).getD [c] ++ Clause.invertRole role group)
    rcases filtersFor?_getD_cases hrole hlead with heq | ⟨-, hfilters⟩
    · rw [heq]
      refine separated_cons.mpr ⟨hlead, hlast.imp_left fun hnil => ?_, ih hgroup⟩
      rw [hnil]
      rfl
    · exact separated_append.mpr ⟨separated_of_isTerminated hfilters, ih hgroup, .inl hfilters⟩

theorem forall_isTerminated_invertRole_iff {role : Role} (hrole : role.isGuard = true)
    (h : Separated group) :
    (∀ c ∈ Clause.invertRole role group, c.IsTerminated) ↔ ∀ c ∈ group, c.IsTerminated := by
  refine ⟨fun hall c hc => ?_, ClauseGroups.forall_mem_invertRole closed_isTerminated⟩
  rcases filtersFor?_getD_cases hrole (h.lead c hc) with heq | ⟨hterminated, -⟩
  · exact hall c (List.mem_flatMap.mpr ⟨c, hc, by rw [heq]; exact List.mem_singleton_self c⟩)
  · exact hterminated

theorem filterPauses (h : Separated group) : Separated (ClauseGroups.filterPauses group) := by
  unfold ClauseGroups.filterPauses
  split
  · exact h
  · exact h.invertRole rfl

theorem withoutResetFilters (h : Separated group) : Separated (withoutResetFilters group) :=
  (h.sublist List.filter_sublist).fillEmpty

end Separated

end Clause

/-! ## Passes -/

/-- What a pass computes of a trigger, and which of its clauses it puts behind those that the core
had. -/
structure Rewriting where
  pass : Pass
  groups : ClauseGroups
  moved : List Clause

namespace ClauseGroups
open Clause

/-- The filters that resets of alternates turn into, where nothing is counted. -/
def movedFilters (g : ClauseGroups) : List Clause :=
  if g.anyHits then []
  else (g.alternates.filter fun group => !anyRole group .pauseIf).flatMap resetFilters

end ClauseGroups

namespace Trigger
open Clause ClauseGroups

/-- What the passes of one round would each compute of the trigger. -/
def rewritings (t : Trigger) : List Rewriting :=
  let g := ofTrigger t
  let shared := g.promoteShared.value.dropTrueCore
  let collapsed := g.collapseAlternates.value
  [⟨normalizeComparisons, t.settledGroups, []⟩,
    ⟨normalizeGuards, g.filterGuards, g.movedFilters⟩,
    ⟨promoteCommonClauses, shared, shared.core.drop g.core.length⟩,
    ⟨removeDuplicates, g.dropRepeated, []⟩,
    ⟨removeRedundancies, g.withoutOverlaps, []⟩,
    ⟨mergeDuplicateAlternates, collapsed, collapsed.core.drop g.core.length⟩,
    ⟨mergeRequirementGroups, g.withoutImplied, []⟩,
    ⟨mergeBits, g.withWholes, []⟩]

end Trigger

/-- How the groups of a rewriting come out of a trigger when they are stored. -/
structure Rewriting.Stores (r : Rewriting) (t : Trigger) : Prop where
  trigger : (r.pass.run t).trigger = r.groups.toTrigger
  alternates : ∀ group ∈ r.groups.alternates, Clause.Separated group
  moved : r.moved <:+ r.groups.core
  core : Clause.Separated r.groups.core ↔ Clause.EndsClause t.core ∨ r.moved = []

namespace ClauseGroups
open Clause

variable {g : ClauseGroups}

/-- A pass that works within groups keeps their clauses apart. -/
theorem stores_of_separated {t : Trigger} {pass : Pass}
    (htrigger : (pass.run t).trigger = g.toTrigger) (h : ∀ group ∈ g.groups, Separated group) :
    Rewriting.Stores ⟨pass, g, []⟩ t where
  trigger := htrigger
  alternates group hgroup := h group (List.mem_cons_of_mem _ hgroup)
  moved := List.nil_suffix
  core := by simpa using h g.core List.mem_cons_self

theorem stores_of_append {t : Trigger} {pass : Pass} {own moved : List Clause}
    (htrigger : (pass.run t).trigger = g.toTrigger)
    (halternates : ∀ group ∈ g.alternates, Separated group) (hcore : g.core = own ++ moved)
    (hown : Separated own) (hmoved : Separated moved)
    (hended : (∀ c ∈ own, c.IsTerminated) ↔ EndsClause t.core) :
    Rewriting.Stores ⟨pass, g, moved⟩ t where
  trigger := htrigger
  alternates := halternates
  moved := ⟨own, hcore.symm⟩
  core := by
    rw [hcore, separated_append, hended]
    exact ⟨fun h => h.2.2, fun h => ⟨hown, hmoved, h⟩⟩

/-- What stands behind the clauses that the core had was put there. -/
theorem stores_of_core_append {t : Trigger} {pass : Pass} {moved : List Clause}
    (htrigger : (pass.run t).trigger = g.toTrigger)
    (halternates : ∀ group ∈ g.alternates, Separated group)
    (hcore : g.core = (ofTrigger t).core ++ moved) (hmoved : Separated moved) :
    Rewriting.Stores ⟨pass, g, g.core.drop (ofTrigger t).core.length⟩ t := by
  have hdrop : g.core.drop (ofTrigger t).core.length = moved := by rw [hcore, List.drop_left]
  rw [hdrop]
  exact stores_of_append htrigger halternates hcore (separated_split t.core) hmoved
    forall_isTerminated_split_iff

theorem separated_ofTrigger (t : Trigger) : ∀ group ∈ (ofTrigger t).groups, Separated group := by
  intro group hgroup
  rcases List.mem_cons.mp hgroup with rfl | hgroup
  · exact separated_split t.core
  · obtain ⟨rows, -, rfl⟩ := List.mem_map.mp hgroup
    exact separated_split rows

/-! ### Guards as filters -/

theorem role_of_mem_movedFilters {c : Clause} (h : c ∈ g.movedFilters) : c.role = .plain := by
  unfold movedFilters at h
  split at h
  · cases h
  · obtain ⟨a, -, hc⟩ := List.mem_flatMap.mp h
    obtain ⟨d, -, -, filters, hinverted, hc⟩ := mem_resetFilters hc
    exact role_of_isPlain (isPlain_of_mem_inverted? hinverted hc)

theorem isTerminated_of_mem_movedFilters (h : ∀ group ∈ g.groups, Separated group) {c : Clause}
    (hc : c ∈ g.movedFilters) : c.IsTerminated := by
  unfold movedFilters at hc
  split at hc
  · cases hc
  · obtain ⟨a, ha, hc⟩ := List.mem_flatMap.mp hc
    obtain ⟨d, hd, hrole, filters, hinverted, hc⟩ := mem_resetFilters hc
    have hgroup := h a (List.mem_cons_of_mem _ (List.mem_filter.mp ha).1)
    have hd : d.IsTerminated := ⟨hgroup.lead d hd, congrArg Role.isCombining hrole⟩
    exact closed_isTerminated.inverted hd hinverted hc

/-- Filters behind the clauses of a group stay behind what its pauses turn into. -/
theorem filterPauses_append {own moved : List Clause} (hown : Separated own)
    (hmoved : ∀ c ∈ moved, c.role = .plain) :
    ∃ own', filterPauses (own ++ moved) = own' ++ moved ∧ Separated own' ∧
      ((∀ c ∈ own', c.IsTerminated) ↔ ∀ c ∈ own, c.IsTerminated) := by
  unfold filterPauses
  split
  · exact ⟨own, rfl, hown, Iff.rfl⟩
  · refine ⟨invertRole .pauseIf own, ?_, hown.invertRole rfl,
      hown.forall_isTerminated_invertRole_iff rfl⟩
    rw [invertRole, List.flatMap_append]
    exact congrArg _ (invertRole_of_plain rfl hmoved)

theorem filterGuards_core (h : ∀ group ∈ g.groups, Separated group) :
    ∃ own, g.filterGuards.core = own ++ g.movedFilters ∧ Separated own ∧
      ((∀ c ∈ own, c.IsTerminated) ↔ ∀ c ∈ g.core, c.IsTerminated) := by
  have hcore := h g.core List.mem_cons_self
  by_cases hhits : g.anyHits = true
  · have hguards : g.filterGuards.core = filterPauses (g.core ++ []) := by
      simp [filterGuards, hhits]
    have hmoved : g.movedFilters = [] := if_pos hhits
    rw [hguards, hmoved]
    exact filterPauses_append hcore (by simp)
  · have hguards : g.filterGuards.core =
        filterPauses (invertRole .resetIf g.core ++ g.movedFilters) := by
      simp [filterGuards, filterResets, movedFilters, hhits]
    have hresets : Separated (invertRole .resetIf g.core) := hcore.invertRole rfl
    obtain ⟨own, hown, hseparated, hended⟩ :=
      filterPauses_append hresets fun c hc => role_of_mem_movedFilters hc
    exact ⟨own, hguards.trans hown, hseparated,
      hended.trans (hcore.forall_isTerminated_invertRole_iff rfl)⟩

theorem separated_filterGuards (h : ∀ group ∈ g.groups, Separated group) :
    ∀ group ∈ g.filterGuards.alternates, Separated group := by
  unfold filterGuards
  intro group hgroup
  obtain ⟨a, ha, rfl⟩ := List.mem_map.mp hgroup
  refine Separated.filterPauses ?_
  split at ha
  · exact h a (List.mem_cons_of_mem _ ha)
  · obtain ⟨b, hb, rfl⟩ := List.mem_map.mp ha
    have hb := h b (List.mem_cons_of_mem _ hb)
    split
    · exact hb
    · exact hb.withoutResetFilters

/-! ### Shared clauses -/

/-- Moving clauses to the core puts them behind its own. -/
theorem promoteAll_core (pausing : Bool) (cs : List Clause) (g : ClauseGroups) :
    ∃ moved, (promoteAll pausing cs g).value.core = g.core ++ moved ∧
      ∀ c ∈ moved, c ∈ cs ∧ c.role.isCombining = false := by
  induction cs generalizing g with
  | nil => exact ⟨[], by simp [promoteAll], by simp⟩
  | cons c rest ih =>
    obtain ⟨moved, hcore, hmoved⟩ := ih (promote pausing g c).value
    have hrest : (promoteAll pausing (c :: rest) g).value.core =
        (promote pausing g c).value.core ++ moved := hcore
    have hmoved : ∀ d ∈ moved, d ∈ c :: rest ∧ d.role.isCombining = false := fun d hd =>
      ⟨List.mem_cons_of_mem _ (hmoved d hd).1, (hmoved d hd).2⟩
    rw [hrest]
    unfold promote
    split
    · rename_i hpromotes
      have hrole : c.role.isCombining = false := by
        have hpromotable := (Bool.and_eq_true_iff.mp hpromotes).1
        cases hrole : c.role <;> simp [isPromotable, hrole] at hpromotable <;> rfl
      simp only [Logged.value_bind, Logged.value_pure]
      split
      · exact ⟨moved, rfl, hmoved⟩
      · exact ⟨c :: moved, by simp, List.forall_mem_cons.mpr ⟨⟨List.mem_cons_self, hrole⟩, hmoved⟩⟩
    · exact ⟨moved, rfl, hmoved⟩

theorem promoteShared_core (h : ∀ group ∈ g.groups, Separated group) :
    ∃ moved, g.promoteShared.value.core = g.core ++ moved ∧ ∀ c ∈ moved, c.IsTerminated := by
  unfold promoteShared
  split
  · rename_i first second rest halternates
    obtain ⟨moved, hcore, hmoved⟩ := promoteAll_core g.canPause first g
    have hfirst := h first (by simp [groups, halternates])
    exact ⟨moved, hcore, fun c hc => ⟨hfirst.lead c (hmoved c hc).1, (hmoved c hc).2⟩⟩
  · exact ⟨[], (List.append_nil _).symm, by simp⟩

theorem separated_promoteShared (h : ∀ group ∈ g.groups, Separated group) :
    ∀ group ∈ g.promoteShared.value.alternates, Separated group := by
  unfold promoteShared
  split
  · rename_i first second rest halternates
    obtain ⟨promoted, hpromoted, -⟩ := promoteAll_spec g.canPause first g
    intro group hgroup
    obtain ⟨a, ha, rfl⟩ := List.mem_map.mp hgroup
    have ha : a ∈ g.alternates.map (·.diff promoted) := hpromoted ▸ ha
    obtain ⟨b, hb, rfl⟩ := List.mem_map.mp ha
    exact ((h b (List.mem_cons_of_mem _ hb)).sublist (List.diff_sublist b promoted)).fillEmpty
  · exact fun group hgroup => h group (List.mem_cons_of_mem _ hgroup)

theorem dropTrueCore_cases (g : ClauseGroups) :
    g.dropTrueCore = g ∨ g.dropTrueCore = ⟨[], g.alternates⟩ := by
  unfold dropTrueCore
  split
  · exact .inr rfl
  · exact .inl rfl

end ClauseGroups

namespace Trigger
open Clause ClauseGroups
variable (t : Trigger)

theorem stores_normalizeComparisons :
    Rewriting.Stores ⟨normalizeComparisons, t.settledGroups, []⟩ t := by
  refine stores_of_separated (trigger_normalizeComparisons t) fun group hgroup => ?_
  have hsettled (rows : List Row) : Separated (settledClauses rows) :=
    (separated_split _).foldConstants
  rcases List.mem_cons.mp hgroup with rfl | hgroup
  · exact hsettled t.core
  · obtain ⟨rows, -, rfl⟩ := List.mem_map.mp hgroup
    exact hsettled rows

theorem stores_normalizeGuards :
    Rewriting.Stores ⟨normalizeGuards, (ofTrigger t).filterGuards, (ofTrigger t).movedFilters⟩ t := by
  have hgroups := separated_ofTrigger t
  obtain ⟨own, hcore, hown, hended⟩ := filterGuards_core hgroups
  exact stores_of_append (trigger_normalizeGuards t) (separated_filterGuards hgroups) hcore hown
    (separated_of_isTerminated fun c hc => isTerminated_of_mem_movedFilters hgroups hc)
    (hended.trans forall_isTerminated_split_iff)

theorem stores_promoteCommonClauses :
    let shared := (ofTrigger t).promoteShared.value.dropTrueCore
    Rewriting.Stores ⟨promoteCommonClauses, shared, shared.core.drop (ofTrigger t).core.length⟩ t := by
  intro shared
  have hgroups := separated_ofTrigger t
  obtain ⟨moved, hcore, hmoved⟩ := promoteShared_core hgroups
  have halternates := separated_promoteShared hgroups
  have htrigger : (promoteCommonClauses.run t).trigger = shared.toTrigger := rfl
  rcases dropTrueCore_cases (ofTrigger t).promoteShared.value with hsame | hdropped
  · have hshared : shared = (ofTrigger t).promoteShared.value := hsame
    rw [hshared] at htrigger ⊢
    exact stores_of_core_append htrigger halternates hcore (separated_of_isTerminated hmoved)
  · have hshared : shared = ⟨[], (ofTrigger t).promoteShared.value.alternates⟩ := hdropped
    rw [hshared] at htrigger ⊢
    rw [List.drop_nil]
    exact stores_of_separated htrigger (List.forall_mem_cons.mpr ⟨separated_nil, halternates⟩)

theorem stores_removeDuplicates :
    Rewriting.Stores ⟨removeDuplicates, (ofTrigger t).dropRepeated, []⟩ t := by
  refine stores_of_separated (trigger_removeDuplicates t) (List.forall_mem_cons.mpr ⟨?_, ?_⟩)
  · exact (separated_split t.core).sublist (eraseDups_sublist _)
  · intro group hgroup
    obtain ⟨a, ha, rfl⟩ := List.mem_map.mp hgroup
    have ha := separated_ofTrigger t a (List.mem_cons_of_mem _ ha)
    exact (ha.sublist (List.filter_sublist.trans (eraseDups_sublist a))).fillEmpty

theorem stores_removeRedundancies :
    Rewriting.Stores ⟨removeRedundancies, (ofTrigger t).withoutOverlaps, []⟩ t := by
  refine stores_of_separated (trigger_removeRedundancies t) (List.forall_mem_cons.mpr ⟨?_, ?_⟩)
  · exact (separated_split t.core).mergeOverlaps _ _
  · intro group hgroup
    obtain ⟨a, ha, rfl⟩ := List.mem_map.mp hgroup
    exact (separated_ofTrigger t a (List.mem_cons_of_mem _ ha)).mergeOverlaps _ _

theorem stores_mergeDuplicateAlternates :
    let collapsed := (ofTrigger t).collapseAlternates.value
    Rewriting.Stores
      ⟨mergeDuplicateAlternates, collapsed, collapsed.core.drop (ofTrigger t).core.length⟩ t := by
  obtain ⟨halternates, hcore⟩ := forall_collapseAlternates (Q := Separated)
    (fun hunion hgroup => hgroup.union? hunion)
    fun a ha => separated_ofTrigger t a (List.mem_cons_of_mem _ ha)
  have htrigger := trigger_mergeDuplicateAlternates t
  rcases hcore with hcore | ⟨lone, hlone, heq⟩
  · exact stores_of_core_append htrigger halternates (hcore.trans (List.append_nil _).symm)
      separated_nil
  · exact stores_of_core_append htrigger halternates (congrArg ClauseGroups.core heq) hlone

theorem stores_mergeRequirementGroups :
    Rewriting.Stores ⟨mergeRequirementGroups, (ofTrigger t).withoutImplied, []⟩ t := by
  refine stores_of_separated (trigger_mergeRequirementGroups t)
    (List.forall_mem_cons.mpr ⟨separated_split t.core, fun a ha => ?_⟩)
  exact separated_ofTrigger t a (List.mem_cons_of_mem _ (mem_of_mem_withoutImplied ha))

theorem stores_mergeBits : Rewriting.Stores ⟨mergeBits, (ofTrigger t).withWholes, []⟩ t := by
  refine stores_of_separated (trigger_mergeBits t) (List.forall_mem_cons.mpr ⟨?_, ?_⟩)
  · exact (separated_split t.core).mergeBitTests
  · intro group hgroup
    obtain ⟨a, ha, rfl⟩ := List.mem_map.mp hgroup
    exact (separated_ofTrigger t a (List.mem_cons_of_mem _ ha)).mergeBitTests

theorem stores_of_mem_rewritings : ∀ r ∈ t.rewritings, r.Stores t := by
  simp only [rewritings, List.forall_mem_cons]
  exact ⟨t.stores_normalizeComparisons, t.stores_normalizeGuards, t.stores_promoteCommonClauses,
    t.stores_removeDuplicates, t.stores_removeRedundancies, t.stores_mergeDuplicateAlternates,
    t.stores_mergeRequirementGroups, t.stores_mergeBits, by simp⟩

/-- **Passes chain clauses together only behind a core that dangles.**  Whatever trigger a pass is run
on, the clauses that it computes for the alternates are those found in the rows that it stores.  So are
those of the core, except where the core dangles and clauses were put behind its own. -/
theorem split_rewritings :
    t.rewritings.map Rewriting.pass = Pass.pipeline ∧
    ∀ r ∈ t.rewritings,
      (r.pass.run t).trigger = r.groups.toTrigger ∧ r.moved <:+ r.groups.core ∧
      (r.pass.run t).trigger.alternates.map split = r.groups.alternates ∧
      (split (r.pass.run t).trigger.core = r.groups.core ↔ EndsClause t.core ∨ r.moved = []) := by
  refine ⟨rfl, fun r hr => ?_⟩
  obtain ⟨htrigger, halternates, hmoved, hcore⟩ := t.stores_of_mem_rewritings r hr
  refine ⟨htrigger, hmoved, ?_, ?_⟩
  · rw [htrigger, toTrigger, List.map_map]
    refine (List.map_congr_left fun group hgroup => ?_).trans (List.map_id _)
    exact split_join_iff.mpr (halternates group hgroup)
  · rw [htrigger, toTrigger, split_join_iff, hcore]

/-- The filter that two alternates share becomes the end of the chain that the core left open. -/
example :
    let test (address : UInt32) := Row.comparing (.memory .byte address) .eq (.literal 1)
    let link : Row := { test 1 with role := .andNext }
    (promoteCommonClauses.run ⟨[link], [[test 2, test 3], [test 2, test 4]]⟩).trigger =
        ⟨[link, test 2], [[test 3], [test 4]]⟩ ∧
      split [link, test 2] = [⟨[link], test 2⟩] := by
  decide +kernel

end Trigger
end MemoryTrigger

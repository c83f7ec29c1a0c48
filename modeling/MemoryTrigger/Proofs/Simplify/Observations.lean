import MemoryTrigger.Proofs.Simplify.Invariants

/-! # What a round lets be observed

Whether a trigger fires and whether it resets are observations of its groups.  Both see of a group
only what it shows in a memory, and both survive a shared clause that moves to the core, a repeated
clause that is dropped and alternates that are settled (`ClauseGroups.Observed`).  From there the way
through a round is the same for both: `Observed.promoteShared` and `Observed.collapseAlternates`
follow the loops of their passes, and `Observed.round` runs through all of them.  Three rewritings
ask more of a trigger, and something else for each observation; that they keep it is left to be
shown.  Rounds add up in `Trigger.observe_simplify`. -/
namespace MemoryTrigger

namespace Clause

/-- A clause whose modifier rows do not compare.  One that did would feed its left side, and
settling could turn its sides around. -/
structure HasPlainModifiers (c : Clause) : Prop where
  isTerminated : c.IsTerminated
  modifier : ∀ r ∈ c.rows, r.role.isModifier = true → r.isComparison = false

end Clause

namespace ClauseGroups
open Clause

/-- **Settling comparisons changes nothing about a group of such clauses.** -/
theorem agreeIn_settledClauses_of_hasPlainModifiers (m : Memory) {rows : List Row}
    (h : ∀ c ∈ split rows, c.HasPlainModifiers) : AgreeIn m (settledClauses rows) (split rows) := by
  refine agreeIn_settledClauses m (fun c hc => (h c hc).isTerminated) fun r hr => ?_
  rw [← join_split rows] at hr
  obtain ⟨c, hc, hr⟩ := List.mem_flatMap.mp hr
  exact (h c hc).modifier r hr

/-- **An observation of groups** that sees what each of them shows in a memory, and that single
steps of the passes keep. -/
structure Observed (m : Memory) (observe : ClauseGroups → Bool) : Prop where
  /-- Groups that agree one by one are observed alike. -/
  agree : ∀ {α : Type} {xs : List α} {f f' : α → List Clause} {core core' : List Clause},
    AgreeIn m core core' → (∀ x ∈ xs, AgreeIn m (f x) (f' x)) →
      observe ⟨core, xs.map f⟩ = observe ⟨core', xs.map f'⟩
  /-- A shared clause may move to the core, and a reset only where nothing pauses. -/
  promote : ∀ {pausing : Bool} {g : ClauseGroups} (c : Clause), g.alternates ≠ [] →
    (pausing = false → g.canPause = false) → (pausing = false → c.hasRole .pauseIf = false) →
      observe (ClauseGroups.promote pausing g c).value = observe g
  dropRepeated : ∀ g : ClauseGroups, observe g.dropRepeated = observe g
  /-- Alternates that sum up groups stand for them. -/
  settle : ∀ {a : Alternates} {groups : List (List Clause)} (core : List Clause),
    a.SumsUp m groups → groups ≠ [] → observe (a.settle core) = observe ⟨core, groups⟩

namespace Observed
variable {m : Memory} {observe : ClauseGroups → Bool} {g : ClauseGroups}

theorem agree_map (h : Observed m observe) {core : List Clause} {f : List Clause → List Clause}
    (hcore : AgreeIn m core g.core) (hf : ∀ a ∈ g.alternates, AgreeIn m (f a) a) :
    observe ⟨core, g.alternates.map f⟩ = observe g := by
  have hagree : observe ⟨core, g.alternates.map f⟩ = observe ⟨g.core, g.alternates.map id⟩ :=
    h.agree hcore hf
  rwa [List.map_id] at hagree

/-! ## Shared clauses -/

theorem promoteAll (h : Observed m observe) {pausing : Bool} (cs : List Clause)
    (hne : g.alternates ≠ []) (hpausing : pausing = false → g.canPause = false)
    (hcs : pausing = false → ∀ c ∈ cs, c.hasRole .pauseIf = false) :
    observe (promoteAll pausing cs g).value = observe g := by
  induction cs generalizing g with
  | nil => rfl
  | cons c rest ih =>
    -- what the loop rests on still holds of the groups with the first clause moved
    have hquiet : pausing = false → (ClauseGroups.promote pausing g c).value.canPause = false :=
      fun hnone => canPause_eq_false.mpr <|
        (canPause_eq_false.mp (hpausing hnone)).promote (hcs hnone c List.mem_cons_self)
    have hrest := ih (promote_alternates_ne_nil c hne) hquiet
      fun hnone d hd => hcs hnone d (List.mem_cons_of_mem _ hd)
    exact hrest.trans (h.promote c hne hpausing fun hnone => hcs hnone c List.mem_cons_self)

/-- Moving all shared clauses to the core keeps the observation. -/
theorem promoteShared (h : Observed m observe) (g : ClauseGroups) :
    observe g.promoteShared.value = observe g := by
  unfold ClauseGroups.promoteShared
  split
  · rename_i first second rest halternates
    have hne : g.alternates ≠ [] := by simp [halternates]
    have hfirst : g.canPause = false → ∀ c ∈ first, c.hasRole .pauseIf = false := fun hnone =>
      (all_iff.mp (canPause_eq_false.mp hnone)).2 first (by simp [halternates])
    refine Eq.trans ?_ (h.promoteAll first hne id hfirst)
    exact h.agree_map (.refl _) fun a _ => agreeIn_fillEmpty m a
  · rfl

theorem dropTrueCore (h : Observed m observe) (g : ClauseGroups) :
    observe g.dropTrueCore = observe g := by
  unfold ClauseGroups.dropTrueCore
  split
  · rename_i htrue
    have hcore : g.core = alwaysTrueGroup := by simpa using (Bool.and_eq_true_iff.mp htrue).2
    have hagree : AgreeIn m g.core [] := hcore ▸ agreeIn_alwaysTrueGroup m
    have hsame : observe ⟨g.core, g.alternates.map id⟩ = observe ⟨[], g.alternates.map id⟩ :=
      h.agree hagree fun a _ => .refl a
    rw [List.map_id] at hsame
    exact hsame.symm
  · rfl

/-! ## Alternates -/

/-- **Collapsing alternates keeps the observation** where no alternate repeats a clause. -/
theorem collapseAlternates (h : Observed m observe) (hnodup : ∀ a ∈ g.alternates, a.Nodup) :
    observe g.collapseAlternates.value = observe g := by
  unfold ClauseGroups.collapseAlternates
  split
  · rfl
  · rename_i hne
    have hne : g.alternates ≠ [] := by simpa using hne
    have hdistinct : (Alternates.ofDistinct g.alternates).SumsUp m g.alternates :=
      .ofDistinct hne hnodup
    have hunited : (Alternates.ofDistinct g.alternates).unite.value.SumsUp m g.alternates :=
      Logged.exhaust_keeps (fun _ _ _ hstep => Alternates.SumsUp.uniteStep hstep) _ _ hdistinct
    exact h.settle g.core hunited.dropImpossible.keepBesideTrue hne

theorem withWholes (h : Observed m observe) (g : ClauseGroups) :
    observe g.withWholes = observe g :=
  h.agree_map (agreeIn_mergeBitTests m g.core) fun a _ => agreeIn_mergeBitTests m a

/-! ## One round -/

theorem settledGroups (h : Observed m observe) {t : Trigger}
    (ht : (ofTrigger t).All HasPlainModifiers) :
    observe t.settledGroups = observe (ofTrigger t) := by
  obtain ⟨hcore, halternates⟩ := all_iff.mp ht
  exact h.agree (agreeIn_settledClauses_of_hasPlainModifiers m hcore) fun rows hrows =>
    agreeIn_settledClauses_of_hasPlainModifiers m (halternates _ (List.mem_map_of_mem hrows))

/-- **A round keeps the observation** where turning guards into filters, merging overlaps and
dropping implied alternates do. -/
theorem round (h : Observed m observe) {t : Trigger} (ht : (ofTrigger t).All HasPlainModifiers)
    (hguards : observe t.settledGroups.filterGuards = observe t.settledGroups)
    (hoverlaps : observe t.distinct.withoutOverlaps = observe t.distinct)
    (himplied : observe t.distinct.withoutOverlaps.collapseAlternates.value.withoutImplied =
      observe t.distinct.withoutOverlaps.collapseAlternates.value) :
    observe (ofTrigger t.round) = observe (ofTrigger t) := by
  -- merging leaves no clause in an alternate twice
  have hnodup : ∀ a ∈ t.distinct.withoutOverlaps.alternates, a.Nodup :=
    List.forall_mem_map.mpr fun group _ => nodup_mergeOverlaps group
  calc observe (ofTrigger t.round)
      = observe t.distinct.withoutOverlaps.collapseAlternates.value.withoutImplied.withWholes := by
        rw [Trigger.ofTrigger_round (ht.imp fun _ hc => hc.isTerminated)]
    _ = observe t.distinct.withoutOverlaps.collapseAlternates.value.withoutImplied :=
        h.withWholes _
    _ = observe t.distinct.withoutOverlaps.collapseAlternates.value := himplied
    _ = observe t.distinct.withoutOverlaps := h.collapseAlternates hnodup
    _ = observe t.distinct := hoverlaps
    _ = observe t.shared := (h.dropRepeated _).trans (h.dropTrueCore _)
    _ = observe t.settledGroups.filterGuards := h.promoteShared _
    _ = observe t.settledGroups := hguards
    _ = observe (ofTrigger t) := h.settledGroups ht

end Observed
end ClauseGroups

/-! ## All rounds -/

/-- **What every round keeps of a live trigger, simplifying keeps**, as long as only live triggers
turn into live ones. -/
theorem Trigger.observe_simplify {α : Type} (observe : Trigger → α) (live : Trigger → Prop)
    {P : Clause → Prop} (hP : Clause.Kept P) (hterminated : ∀ c, P c → c.IsTerminated)
    (hround : ∀ t, (ClauseGroups.ofTrigger t).All P → live t.round →
      live t ∧ observe t.round = observe t)
    {t : Trigger} (h : (ClauseGroups.ofTrigger t).All P) (hlive : live t.simplify) :
    observe t.simplify = observe t := by
  rw [simplify_eq_iterate] at hlive ⊢
  generalize Pass.maxRounds = limit at hlive ⊢
  suffices hboth : live t ∧ observe (round^[limit] t) = observe t from hboth.2
  induction limit generalizing t with
  | zero => exact ⟨hlive, rfl⟩
  | succ limit ih =>
    rw [Function.iterate_succ_apply] at hlive ⊢
    obtain ⟨hlive', hrest⟩ := ih (all_round hP (h.imp hterminated) h) hlive
    obtain ⟨hlive, hfirst⟩ := hround t h hlive'
    exact ⟨hlive, hrest.trans hfirst⟩

end MemoryTrigger

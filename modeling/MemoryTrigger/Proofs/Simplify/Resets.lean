import MemoryTrigger.Proofs.Simplify.Observations

/-! # Resets survive where hits are counted

Without hit targets a reset is as good as a filter, and the simplifier turns it into one.  As long as
a trigger counts hits, its resets have something to clear, and then a simplified trigger resets in
exactly the memories in which the trigger did.

No pass brings hits into a trigger that has none, so that a simplified trigger with hits had them on
the way at every pass; and at a trigger with hits every pass keeps what resets
(`ClauseGroups.observed_resetsIn`, `Trigger.resetsIn_round`).  Chains of any links and targets are
allowed.  What a group contributes are the clauses that reset and those that pause, which is all that
is compared (`Clause.GuardAlike`). -/
namespace MemoryTrigger

/-! ## Chained triggers -/

/-- A modifier row without comparison, or a comparison.  It does not reset the next row. -/
structure Row.IsChained (r : Row) : Prop where
  modifier : r.role.isModifier = true → r.isComparison = false
  comparison : r.role.isModifier = false → r.isComparison = true
  role_ne : r.role ≠ .resetNextIf

instance (r : Row) : Decidable r.IsChained :=
  decidable_of_iff ((r.role.isModifier = true → r.isComparison = false) ∧
      (r.role.isModifier = false → r.isComparison = true) ∧ r.role ≠ .resetNextIf)
    ⟨fun h => ⟨h.1, h.2.1, h.2.2⟩, fun h => ⟨h.modifier, h.comparison, h.role_ne⟩⟩

/-- **A trigger of chained comparisons**: groups end in rows that do not chain on, modifier rows do
not compare, all other rows do, and none resets the next row.  Hits may be counted anywhere. -/
structure Trigger.IsChained (t : Trigger) : Prop where
  rows : ∀ r ∈ t.rows, r.IsChained
  ends : ∀ group ∈ t.groups, Clause.EndsClause group

theorem Row.isChained_of_comparison {r : Row} (hrole : r.role.isCombining = false)
    (h : r.isComparison = true) : r.IsChained := by
  refine ⟨fun hmodifier => ?_, fun _ => h, ?_⟩
  · rw [Role.isModifier_of_not_isCombining hrole] at hmodifier
    cases hmodifier
  · rintro hreset
    rw [hreset] at hrole
    cases hrole

theorem Row.preserved_isChained : Preserved IsChained where
  alwaysTrue := isChained_of_comparison rfl rfl
  alwaysFalse := isChained_of_comparison rfl rfl
  inverted _ _ hcompares := isChained_of_comparison rfl (isComparison_inverted hcompares)
  bounded _ _ hr _ hrole :=
    ⟨fun hmodifier => absurd hmodifier (by simp [hrole]), fun _ => rfl, hr.role_ne⟩
  equalityTest _ _ := isChained_of_comparison rfl rfl

theorem Row.IsChained.settled {r : Row} (h : r.IsChained) (after : Bool) :
    (r.settled after).IsChained := by
  refine ⟨?_, ?_, ?_⟩
  · rw [Row.role_settled, Row.isComparison_settled]
    exact h.modifier
  · rw [Row.role_settled, Row.isComparison_settled]
    exact h.comparison
  · rw [Row.role_settled]
    exact h.role_ne

namespace Clause

/-- A clause of a chained trigger. -/
structure IsChained (c : Clause) : Prop where
  isTerminated : c.IsTerminated
  rows : ∀ r ∈ c.rows, r.IsChained

theorem kept_isChained : Kept IsChained :=
  (kept_of_preserved Row.preserved_isChained fun after hr => hr.settled after).congr fun _ =>
    ⟨fun hc => ⟨hc.1, hc.2⟩, fun hc => ⟨hc.isTerminated, hc.rows⟩⟩

theorem IsChained.hasPlainModifiers {c : Clause} (h : c.IsChained) : c.HasPlainModifiers :=
  ⟨h.isTerminated, fun r hr => (h.rows r hr).modifier⟩

/-! ## Hits do not come from nowhere -/

theorem hasHits_eq_false {c : Clause} : c.hasHits = false ↔ ∀ r ∈ c.rows, r.hits = 0 := by
  refine ⟨hits_eq_zero_of_not_hasHits, fun h => List.any_eq_false.mpr fun r hr => ?_⟩
  simp [h r hr]

theorem closed_hasHits_eq_false : Closed fun c => c.hasHits = false where
  alwaysTrue := rfl
  alwaysFalse := rfl
  inverted := by
    intro c d filters _ h hd
    have hplain := isPlain_of_mem_inverted? h hd
    simpa using (Bool.and_eq_true_iff.mp hplain).2
  withSet := by
    intro c d s t hc _ _ h
    obtain ⟨relation, value, -, rfl⟩ := withSet?_eq_some.mp h
    simpa only [hasHits, rows, comparingTo, List.any_append, List.any_cons] using hc
  equalityTest _ _ := rfl

theorem kept_hasHits_eq_false : Kept fun c => c.hasHits = false := by
  refine ⟨closed_hasHits_eq_false, fun hc => hasHits_eq_false.mpr ?_⟩
  refine forall_mem_rows_settled_unlinked (P := fun r => r.hits = 0) (fun after hr => ?_)
    (hasHits_eq_false.mp hc)
  rw [Row.hits_settled, hr]

end Clause

/-! ## Groups of a trigger -/

namespace ClauseGroups
open Clause

/-- Whether some group that is not paused resets. -/
def resetsIn (m : Memory) (g : ClauseGroups) : Bool := g.groups.any (Clause.resetsIn m)

theorem resetsIn_ofTrigger (m : Memory) (t : Trigger) :
    (ofTrigger t).resetsIn m = t.resetsIn m := by
  simp [resetsIn, Trigger.resetsIn, groups, Trigger.groups, ofTrigger, Function.comp_def]

theorem resetsIn_toTrigger (m : Memory) {g : ClauseGroups} (h : g.All IsTerminated) :
    g.toTrigger.resetsIn m = g.resetsIn m := by
  rw [← resetsIn_ofTrigger, ofTrigger_toTrigger h]

theorem anyHits_ofTrigger (t : Trigger) : (ofTrigger t).anyHits = t.hasHits := by
  have hrows (rows : List Row) : Clause.anyHits (split rows) = rows.any fun r => r.hits > 0 := by
    have hjoin : Clause.anyHits (split rows) = (join (split rows)).any fun r => r.hits > 0 :=
      List.any_flatMap.symm
    rw [hjoin, join_split]
  simp [anyHits, Trigger.hasHits, groups, Trigger.groups, Trigger.rows, ofTrigger, hrows,
    List.any_flatten, Function.comp_def]

theorem anyHits_eq_false {g : ClauseGroups} :
    g.anyHits = false ↔ g.All fun c => c.hasHits = false := by
  simp [anyHits, All, Clause.anyHits]

/-- Hits that are left after a rewriting were there before. -/
theorem anyHits_of_all {g g' : ClauseGroups}
    (h : g.All (fun c => c.hasHits = false) → g'.All fun c => c.hasHits = false)
    (hhits : g'.anyHits = true) : g.anyHits = true := by
  rw [← Bool.not_eq_false, anyHits_eq_false] at hhits ⊢
  exact fun hnone => hhits (h hnone)

variable {m : Memory} {g : ClauseGroups}

theorem resetsIn_congr_map {α : Type} {core core' : List Clause} {xs : List α}
    {f f' : α → List Clause} (hcore : Clause.resetsIn m core = Clause.resetsIn m core')
    (h : ∀ x ∈ xs, Clause.resetsIn m (f x) = Clause.resetsIn m (f' x)) :
    resetsIn m ⟨core, xs.map f⟩ = resetsIn m ⟨core', xs.map f'⟩ := by
  simp only [resetsIn, groups, List.any_cons, List.any_map, hcore]
  exact congrArg (_ || ·) (any_congr_of_mem h)

/-- Groups may be rewritten one by one, as long as each resets as before. -/
theorem resetsIn_map {core : List Clause} {f : List Clause → List Clause}
    (hcore : Clause.resetsIn m core = Clause.resetsIn m g.core)
    (h : ∀ a ∈ g.alternates, Clause.resetsIn m (f a) = Clause.resetsIn m a) :
    resetsIn m ⟨core, g.alternates.map f⟩ = g.resetsIn m := by
  have hsame : resetsIn m ⟨core, g.alternates.map f⟩ = resetsIn m ⟨g.core, g.alternates.map id⟩ :=
    resetsIn_congr_map hcore h
  rwa [List.map_id] at hsame

/-- Turning guards into filters leaves the resets of a trigger with hits alone. -/
theorem resetsIn_filterGuards (h : g.anyHits = true) : g.filterGuards.resetsIn m = g.resetsIn m := by
  rw [filterGuards, if_pos h]
  exact resetsIn_map (filterPauses_facts m g.core).1 fun a _ => (filterPauses_facts m a).1

/-! ### Shared clauses -/

/-- Where nothing can pause, every reset counts. -/
theorem resetsIn_of_canPause_eq_false (h : g.canPause = false) :
    g.resetsIn m = true ↔ ∃ c, (∃ group ∈ g.groups, c ∈ group) ∧ c.role = .resetIf ∧
      c.holdsIn m = true := by
  have hpaused : ∀ group ∈ g.groups, isPausedIn m group = false := fun group hgroup =>
    isPausedIn_of_anyRole_eq_false m (by simpa using List.any_eq_false.mp h group hgroup)
  rw [resetsIn, List.any_eq_true]
  constructor
  · rintro ⟨group, hgroup, hresets⟩
    obtain ⟨-, c, hc, hrole, hholds⟩ := (resetsIn_iff m).mp hresets
    exact ⟨c, ⟨group, hgroup, hc⟩, hrole, hholds⟩
  · rintro ⟨c, ⟨group, hgroup, hc⟩, hrole, hholds⟩
    exact ⟨group, hgroup, (resetsIn_iff m).mpr ⟨hpaused group hgroup, c, hc, hrole, hholds⟩⟩

theorem mem_addOnce {group : List Clause} {c d : Clause} :
    (d ∈ if group.contains c then group else group ++ [c]) ↔ d ∈ group ∨ d = c := by
  split
  · rename_i hcontains
    have hcontains : c ∈ group := by simpa using hcontains
    exact ⟨.inl, fun hd => hd.elim id fun hd => hd ▸ hcontains⟩
  · simp

/-- A filter takes no part in resets, and a reset is moved only where nothing pauses: then it does not
matter in which group it stands. -/
theorem resetsIn_promote {pausing : Bool} (c : Clause) (hne : g.alternates ≠ [])
    (hpausing : pausing = false → g.canPause = false)
    (hc : pausing = false → c.hasRole .pauseIf = false) :
    (promote pausing g c).value.resetsIn m = g.resetsIn m := by
  have hquiet : pausing = false → (promote pausing g c).value.canPause = false := fun h =>
    canPause_eq_false.mpr ((canPause_eq_false.mp (hpausing h)).promote (hc h))
  unfold promote at hquiet ⊢
  split
  · rename_i hshared
    rw [if_pos hshared] at hquiet
    obtain ⟨hpromotable, hall⟩ := Bool.and_eq_true_iff.mp hshared
    have hmem : ∀ a ∈ g.alternates, c ∈ a := by simpa using hall
    simp only [Logged.value_bind, Logged.value_pure] at hquiet ⊢
    cases hrole : c.role with
    | plain =>
      have hne {d : Clause} (hd : d.isGuard = true) : d ≠ c := by
        rintro rfl
        simp [isGuard_of_plain hrole] at hd
      refine resetsIn_map (GuardAlike.of_mem fun d hd => ?_).resets
        fun a _ => (GuardAlike.of_mem fun d hd => List.mem_erase_of_ne (hne hd)).resets
      rw [mem_addOnce]
      simp [hne hd]
    | resetIf =>
      have hnone : pausing = false := by simpa [isPromotable, hrole] using hpromotable
      rw [Bool.eq_iff_iff, resetsIn_of_canPause_eq_false (hquiet hnone),
        resetsIn_of_canPause_eq_false (hpausing hnone)]
      refine exists_congr fun d => and_congr_left fun _ => ?_
      -- the same clauses stand somewhere before and after
      obtain ⟨a, ha⟩ := List.exists_mem_of_ne_nil _ hne
      simp only [groups, List.mem_cons, List.mem_map, exists_eq_or_imp, mem_addOnce]
      by_cases hd : d = c
      · subst hd
        exact iff_of_true (.inl (.inr rfl)) (.inr ⟨a, ha, hmem a ha⟩)
      · simp [hd, List.mem_erase_of_ne hd]
    | _ => simp [isPromotable, hrole] at hpromotable
  · rfl

/-! ### Repeated and overlapping clauses -/

theorem resetsIn_dropRepeated (g : ClauseGroups) : g.dropRepeated.resetsIn m = g.resetsIn m := by
  refine resetsIn_map (GuardAlike.of_mem fun d _ => List.mem_eraseDups).resets fun a _ => ?_
  rw [(agreeIn_fillEmpty m _).resets]
  refine (GuardAlike.of_mem fun d hd => ?_).resets
  have hplain : d.isPlain = false := by
    rw [← Bool.not_eq_true]
    intro hplain
    simp [isGuard_of_plain (role_of_isPlain hplain)] at hd
  simp [List.mem_eraseDups, hplain]

theorem resetsIn_withoutOverlaps (h : g.anyHits = true) :
    g.withoutOverlaps.resetsIn m = g.resetsIn m := by
  unfold withoutOverlaps
  rw [h]
  exact resetsIn_map (guardAlike_mergeOverlaps (.inl rfl) g.core).resets
    fun a _ => (guardAlike_mergeOverlaps (.inl rfl) a).resets

/-! ### Alternates -/

/-- Putting a lone alternate into the core keeps the resets where no pause comes in the way. -/
theorem resetsIn_append_of_not_pausesClash {core lone : List Clause}
    (h : Alternates.pausesClash lone core = false) :
    Clause.resetsIn m (core ++ lone) = (Clause.resetsIn m core || Clause.resetsIn m lone) := by
  have hquiet {a b : List Clause} (hclash : (anyRole a .pauseIf && isPauseSensitive b) = false)
      (hpaused : isPausedIn m a = true) : Clause.resetsIn m b = false := by
    cases hpause : anyRole a .pauseIf with
    | false =>
      rw [isPausedIn_of_anyRole_eq_false m hpause] at hpaused
      cases hpaused
    | true =>
      rw [hpause, Bool.true_and] at hclash
      refine resetsIn_of_anyRole_eq_false m ?_
      simp only [isPauseSensitive, Bool.or_eq_false_iff] at hclash
      exact hclash.1.2
  obtain ⟨hlone, hcore⟩ := Bool.or_eq_false_iff.mp h
  rw [resetsIn_append]
  cases hpausedCore : isPausedIn m core with
  | true =>
    have hnone : Clause.resetsIn m core = false := by simp [Clause.resetsIn, hpausedCore]
    simp [hquiet hcore hpausedCore, hnone]
  | false =>
    cases hpausedLone : isPausedIn m lone with
    | true => simp [hquiet hlone hpausedLone]
    | false => simp

theorem resetsIn_settle {groups : List (List Clause)} {a : Alternates} (h : a.SumsUp m groups)
    (core : List Clause) :
    (a.settle core).resetsIn m = (ClauseGroups.mk core groups).resetsIn m := by
  have hresets := h.resets
  unfold Alternates.settle
  split
  · rename_i lone hkept
    rw [hkept, List.any_cons, List.any_nil, Bool.or_false] at hresets
    split
    · simp only [resetsIn, ClauseGroups.groups, List.any_cons, ← hresets]
      cases hdropped : a.dropped with
      | none => simp
      | some d =>
        have hd := (h.dropped d hdropped).2
        rw [← hresets] at hd
        cases hdresets : Clause.resetsIn m d with
        | false => simp [hdresets]
        | true => simp [hd hdresets]
    · rename_i hclash
      simp only [resetsIn, ClauseGroups.groups, List.any_cons, List.any_nil, Bool.or_false,
        ← hresets]
      exact resetsIn_append_of_not_pausesClash (Bool.not_eq_true _ ▸ hclash)
  · simp only [resetsIn, ClauseGroups.groups, List.any_cons, hresets]

theorem resetsIn_withoutImplied (g : ClauseGroups) :
    g.withoutImplied.resetsIn m = g.resetsIn m := by
  have hany : g.withoutImplied.alternates.any (Clause.resetsIn m) =
      g.alternates.any (Clause.resetsIn m) := by
    refine Logged.exhaust_keeps (P := fun alternates : List (List Clause) =>
      alternates.any (Clause.resetsIn m) = g.alternates.any (Clause.resetsIn m)) ?_ _ _ rfl
    intro before after event hstep hbefore
    obtain ⟨group, _, hperm, -, hsimple, -⟩ := dropImplied_eq_some hstep
    have hgroup : Clause.resetsIn m group = false :=
      resetsIn_of_anyRole_eq_false m (by simp_all [isSimpleGroup])
    rw [← hbefore, hperm.any_eq, List.any_cons, hgroup, Bool.false_or]
  simp only [resetsIn, groups, List.any_cons, hany]
  rfl

/-- **Whether a trigger resets is an observation that single steps of the passes keep.** -/
theorem observed_resetsIn (m : Memory) : Observed m (resetsIn m) where
  agree hcore hgroups := resetsIn_congr_map hcore.resets fun x hx => (hgroups x hx).resets
  promote c := resetsIn_promote c
  dropRepeated := resetsIn_dropRepeated
  settle core hsums _ := resetsIn_settle hsums core

end ClauseGroups

/-! ## Rounds -/

namespace Trigger
open ClauseGroups
variable {t : Trigger}

/-- The clauses of the trigger are chained. -/
def ChainedClauses (t : Trigger) : Prop := (ofTrigger t).All Clause.IsChained

theorem IsChained.chainedClauses (h : t.IsChained) : t.ChainedClauses :=
  (all_ofTrigger_of_rows h.ends h.rows).imp fun _ hc => ⟨hc.1, hc.2⟩

theorem ChainedClauses.isTerminated (h : t.ChainedClauses) :
    (ofTrigger t).All Clause.IsTerminated := h.imp fun _ hc => hc.isTerminated

/-- Hits that are left after a round were there when repeated clauses had been dropped. -/
theorem anyHits_distinct (h : t.ChainedClauses) (hhits : t.round.hasHits = true) :
    t.distinct.anyHits = true := by
  rw [← anyHits_ofTrigger, ofTrigger_round h.isTerminated] at hhits
  have hclosed := Clause.closed_hasHits_eq_false
  exact anyHits_of_all (fun hnone =>
    ((hnone.withoutOverlaps hclosed).collapseAlternates hclosed).withoutImplied.withWholes hclosed)
    hhits

/-- Hits that are left after a round were there when comparisons had been settled. -/
theorem anyHits_settledGroups (h : t.ChainedClauses) (hhits : t.round.hasHits = true) :
    t.settledGroups.anyHits = true := by
  have hclosed := Clause.closed_hasHits_eq_false
  exact anyHits_of_all (fun hnone =>
    ((hnone.filterGuards hclosed).promoteShared hclosed).dropTrueCore.dropRepeated hclosed)
    (anyHits_distinct h hhits)

/-- **One round keeps the resets of a trigger that goes on counting hits**, and it counted them
before. -/
theorem resetsIn_round (h : t.ChainedClauses) (hhits : t.round.hasHits = true) (m : Memory) :
    t.hasHits = true ∧ t.round.resetsIn m = t.resetsIn m := by
  have hsettled := anyHits_settledGroups h hhits
  refine ⟨?_, ?_⟩
  · rw [← anyHits_ofTrigger]
    exact anyHits_of_all (all_settledGroups Clause.kept_hasHits_eq_false h.isTerminated) hsettled
  · rw [← resetsIn_ofTrigger, ← resetsIn_ofTrigger]
    exact (observed_resetsIn m).round (h.imp fun _ hc => hc.hasPlainModifiers)
      (resetsIn_filterGuards hsettled) (resetsIn_withoutOverlaps (anyHits_distinct h hhits))
      (resetsIn_withoutImplied _)

end Trigger

/-- **Resets survive simplification where there is something to reset**: a simplified trigger that
counts hits resets in exactly the memories in which the trigger did. -/
theorem Trigger.resetsIn_simplify {t : Trigger} (h : t.IsChained)
    (hhits : ∃ r ∈ t.simplify.rows, 0 < r.hits) (m : Memory) :
    t.simplify.resetsIn m = t.resetsIn m := by
  obtain ⟨r, hr, hpos⟩ := hhits
  have hhits : t.simplify.hasHits = true := List.any_eq_true.mpr ⟨r, hr, decide_eq_true hpos⟩
  exact observe_simplify (resetsIn m) (fun t => t.hasHits = true) Clause.kept_isChained
    (fun _ hc => hc.isTerminated) (fun _ ht hround => resetsIn_round ht hround m) h.chainedClauses
    hhits

/-- A reset behind a link that always holds, a tally, and two alternates that share a reset, one of
which can pause. -/
def Trigger.countedTally : Trigger where
  core := [{ Row.alwaysTrue with role := .andNext },
    { Row.comparing (.memory .byte 0x10) .eq (.literal 1) with role := .resetIf },
    { Row.comparing (.memory .byte 0x11) .lt (.literal 3) with role := .addHits },
    { Row.comparing (.memory .byte 0x12) .ge (.literal 5) with hits := 3 }]
  alternates := [
    [{ Row.comparing (.memory .byte 0x13) .eq (.literal 2) with role := .resetIf },
      { Row.comparing (.memory .byte 0x14) .eq (.literal 1) with role := .pauseIf }],
    [{ Row.comparing (.memory .byte 0x13) .eq (.literal 2) with role := .resetIf },
      .comparing (.memory .byte 0x15) .gt (.literal 2)]]

theorem Trigger.resetsIn_simplify_countedTally :
    countedTally.IsChained ∧ (∃ r ∈ countedTally.simplify.rows, 0 < r.hits) ∧
      ∀ m, countedTally.simplify.resetsIn m = countedTally.resetsIn m := by
  have h : countedTally.IsChained := ⟨by decide, by simp only [Clause.EndsClause]; decide⟩
  have hhits : ∃ r ∈ countedTally.simplify.rows, 0 < r.hits := by decide +kernel
  exact ⟨h, hhits, resetsIn_simplify h hhits⟩

end MemoryTrigger

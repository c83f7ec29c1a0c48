import MemoryTrigger.Proofs.Simplify.Observations

/-! # The simplifier keeps the meaning of hit-free triggers

The passes are sound one by one, and whether a trigger fires is an observation that a round keeps
(`ClauseGroups.observed_firesIn`).  What has to be carried from round to round is that clauses stay
comparisons without hit targets behind modifier rows (`Clause.IsHitFree`): such clauses may be
merged and dropped by their value sets, and none of them is a timer. -/
namespace MemoryTrigger

/-! ## Hit-free triggers -/

/-- A row of a hit-free trigger: a comparison that does not chain on, or a modifier row without
comparison; neither counts hits. -/
structure Row.IsHitFree (r : Row) : Prop where
  hits : r.hits = 0
  combining : r.role.isCombining = true → r.role.isModifier = true ∧ r.isComparison = false
  terminal : r.role.isCombining = false → r.isComparison = true

instance (r : Row) : Decidable r.IsHitFree :=
  decidable_of_iff (r.hits = 0 ∧
      (r.role.isCombining = true → r.role.isModifier = true ∧ r.isComparison = false) ∧
      (r.role.isCombining = false → r.isComparison = true))
    ⟨fun h => ⟨h.1, h.2.1, h.2.2⟩, fun h => ⟨h.hits, h.combining, h.terminal⟩⟩

theorem Row.isHitFree_of_comparison {r : Row} (hhits : r.hits = 0)
    (hrole : r.role.isCombining = false) (h : r.isComparison = true) : r.IsHitFree :=
  ⟨hhits, fun hcombining => by simp [hrole] at hcombining, fun _ => h⟩

theorem Row.preserved_isHitFree : Preserved IsHitFree where
  alwaysTrue := isHitFree_of_comparison rfl rfl rfl
  alwaysFalse := isHitFree_of_comparison rfl rfl rfl
  inverted hr _ hcompares := isHitFree_of_comparison hr.hits rfl (isComparison_inverted hcompares)
  bounded _ _ hr _ hrole := by
    refine ⟨hr.hits, fun hcombining => ?_, fun _ => rfl⟩
    have hmodifier := (hr.combining hcombining).1
    rw [hrole] at hmodifier
    cases hmodifier
  equalityTest _ _ := isHitFree_of_comparison rfl rfl rfl

theorem Row.IsHitFree.settled {r : Row} (h : r.IsHitFree) (after : Bool) :
    (r.settled after).IsHitFree := by
  refine ⟨?_, ?_, ?_⟩
  · rw [Row.hits_settled, h.hits]
  · rw [Row.role_settled, Row.isComparison_settled]
    exact h.combining
  · rw [Row.role_settled, Row.isComparison_settled]
    exact h.terminal

/-- **A trigger without hit targets**: groups end in rows that do not chain on, the only rows that do
are modifier rows without comparison, and all others compare. -/
structure Trigger.IsHitFree (t : Trigger) : Prop where
  rows : ∀ r ∈ t.rows, r.IsHitFree
  ends : ∀ group ∈ t.groups, Clause.EndsClause group

namespace Clause

/-- A comparison without hit target behind modifier rows. -/
structure IsHitFree (c : Clause) : Prop where
  isTerminated : c.IsTerminated
  rows : ∀ r ∈ c.rows, r.IsHitFree

theorem IsHitFree.isDirect {c : Clause} (h : c.IsHitFree) : c.IsDirect where
  lead := List.all_eq_true.mpr fun r hr =>
    ((h.rows r (List.mem_append_left _ hr)).combining (h.isTerminated.lead r hr)).1
  terminal := (h.rows _ c.terminal_mem_rows).terminal h.isTerminated.terminal

theorem IsHitFree.not_isTimer {c : Clause} (h : c.IsHitFree) : ¬ c.IsTimer :=
  fun htimer => htimer.2 (h.rows _ c.terminal_mem_rows).hits

theorem IsHitFree.hasPlainModifiers {c : Clause} (h : c.IsHitFree) : c.HasPlainModifiers where
  isTerminated := h.isTerminated
  modifier r hr hmodifier := by
    refine ((h.rows r hr).combining ?_).2
    cases hcombining : r.role.isCombining with
    | true => rfl
    | false => simp [Role.isModifier_of_not_isCombining hcombining] at hmodifier

theorem kept_isHitFree : Kept IsHitFree :=
  (kept_of_preserved Row.preserved_isHitFree fun after hr => hr.settled after).congr fun _ =>
    ⟨fun hc => ⟨hc.1, hc.2⟩, fun hc => ⟨hc.isTerminated, hc.rows⟩⟩

end Clause

/-! ## Rounds -/

/-- The clauses of the trigger are comparisons without hit targets behind modifier rows. -/
def Trigger.HitFreeClauses (t : Trigger) : Prop := (ClauseGroups.ofTrigger t).All Clause.IsHitFree

theorem Trigger.IsHitFree.hitFreeClauses {t : Trigger} (h : t.IsHitFree) : t.HitFreeClauses :=
  (ClauseGroups.all_ofTrigger_of_rows h.ends h.rows).imp fun _ hc => ⟨hc.1, hc.2⟩

/-- **Whether a trigger fires is an observation that single steps of the passes keep.** -/
theorem ClauseGroups.observed_firesIn (m : Memory) : Observed m (firesIn m) where
  agree hcore hgroups :=
    firesIn_map_of_standsFor hcore.passes fun x hx => .of_agreeIn (hgroups x hx)
  promote c hne hpausing _ := firesIn_promote m c hne hpausing
  dropRepeated := firesIn_dropRepeated m
  settle _ hsums hne := hsums.firesIn_settle hne

/-- **One round keeps the firing of a hit-free trigger.** -/
theorem Trigger.firesIn_round {t : Trigger} (h : t.HitFreeClauses) (m : Memory) :
    t.round.firesIn m = t.firesIn m := by
  have hterminated : (ClauseGroups.ofTrigger t).All Clause.IsTerminated :=
    h.imp fun _ hc => hc.isTerminated
  have hdistinct := all_distinct Clause.kept_isHitFree hterminated h
  have hcollapsed := all_collapsed Clause.kept_isHitFree hterminated h
  rw [← ClauseGroups.firesIn_ofTrigger, ← ClauseGroups.firesIn_ofTrigger]
  exact (ClauseGroups.observed_firesIn m).round (h.imp fun _ hc => hc.hasPlainModifiers)
    (ClauseGroups.firesIn_filterGuards m _)
    (ClauseGroups.firesIn_withoutOverlaps m (hdistinct.imp fun _ hc => hc.isDirect))
    (ClauseGroups.firesIn_withoutImplied m (hcollapsed.imp fun _ hc => hc.not_isTimer))

/-- **Simplifying a hit-free trigger never changes when it fires**, in any memory. -/
theorem Trigger.firesIn_simplify {t : Trigger} (h : t.IsHitFree) (m : Memory) :
    t.simplify.firesIn m = t.firesIn m :=
  observe_simplify (firesIn m) (fun _ => True) Clause.kept_isHitFree (fun _ hc => hc.isTerminated)
    (fun _ ht _ => ⟨trivial, firesIn_round ht m⟩) h.hitFreeClauses trivial

/-- A sum beside a reset, and two alternates of which one can pause. -/
def Trigger.guardedSum : Trigger where
  core := [.modifier .addSource (.memory .byte 0x10),
    .comparing (.memory .byte 0x11) .ge (.literal 5),
    { Row.comparing (.memory .byte 0x12) .eq (.literal 1) with role := .resetIf }]
  alternates := [
    [.comparing (.memory .byte 0x13) .lt (.literal 4),
      { Row.comparing (.memory .byte 0x14) .eq (.literal 1) with role := .pauseIf }],
    [.comparing (.memory .byte 0x13) .gt (.literal 2)]]

theorem Trigger.firesIn_simplify_guardedSum :
    guardedSum.IsHitFree ∧ ∀ m, guardedSum.simplify.firesIn m = guardedSum.firesIn m := by
  have h : guardedSum.IsHitFree := ⟨by decide, by simp only [Clause.EndsClause]; decide⟩
  exact ⟨h, firesIn_simplify h⟩

end MemoryTrigger

import MemoryTrigger.Proofs.Simplify.Provenance
import MemoryTrigger.Proofs.Steps
import MemoryTrigger.Simplify.Disjunction

/-! # Alternates that imply a sibling

An alternate of filters that implies another alternate holds only when that one does, and it neither
pauses nor resets, so that the trigger fires alike without it.  The one thing that stands in the way
is a row that is true but has to be counted (`Clause.IsTimer`): implication takes it for settled,
while in its first frame it does not hold.  So a firing is lost exactly where everything that holds
consists of filters and implies an alternate with a timer
(`ClauseGroups.firesIn_withoutImplied_eq`), and none is lost where there are no timers. -/
namespace MemoryTrigger

namespace Clause
variable {m : Memory}

/-- A row that is true in every frame but has to be counted. -/
def IsTimer (c : Clause) : Prop := c.constant? = some true ∧ c.terminal.hits ≠ 0

theorem implies_cases {held needed : Clause} (h : held.implies needed = true) :
    held = needed ∨ (held.isPlain = true ∧ needed.isPlain = true ∧
      held.sameQuantity needed = true ∧ ∃ s t, held.valueSet? = some s ∧
        needed.valueSet? = some t ∧ s.isSubset t = true) := by
  unfold implies at h
  split at h
  · exact .inl ‹_›
  split at h
  · cases h
  rename_i hguard
  obtain ⟨⟨hheld, hneeded⟩, hq⟩ : (held.isPlain = true ∧ needed.isPlain = true) ∧
      held.sameQuantity needed = true := by
    simpa using hguard
  split at h
  · rename_i s t hs ht
    exact .inr ⟨hheld, hneeded, hq, s, t, hs, ht, h⟩
  · cases h

theorem holdsIn_of_implies {held needed : Clause} (h : held.implies needed = true)
    (hheld : held.holdsIn m = true) : needed.holdsIn m = true := by
  rcases implies_cases h with rfl | ⟨hplain, hplain', hq, s, t, hs, ht, hsubset⟩
  · exact hheld
  · have hmem := (holdsIn_iff_mem m hs (hits_terminal_of_isPlain hplain)).mp hheld
    rw [holdsIn_iff_mem m ht (hits_terminal_of_isPlain hplain'),
      ← quantityIn_eq_of_sameQuantity m hq]
    exact ValueSet.mem_of_isSubset hsubset hmem

theorem role_of_implies {held needed : Clause} (h : held.implies needed = true) :
    held.role = needed.role := by
  rcases implies_cases h with rfl | ⟨hplain, hplain', -⟩
  · rfl
  · rw [role_of_isPlain hplain, role_of_isPlain hplain']

theorem implies_of_isSubset {held needed : Clause} (hheld : held.isPlain = true)
    (hneeded : needed.isPlain = true) (hq : held.sameQuantity needed = true) {s t : ValueSet}
    (hs : held.valueSet? = some s) (ht : needed.valueSet? = some t) (h : s.isSubset t = true) :
    held.implies needed = true := by
  unfold implies
  simp [hheld, hneeded, hq, hs, ht, h]

theorem implies_trans {a b c : Clause} (hab : a.implies b = true) (hbc : b.implies c = true) :
    a.implies c = true := by
  rcases implies_cases hab with rfl | ⟨ha, hb, hq, s, t, hs, ht, hst⟩
  · exact hbc
  rcases implies_cases hbc with rfl | ⟨-, hc, hq', t', u, ht', hu, htu⟩
  · exact hab
  obtain rfl : t = t' := Option.some.inj (ht.symm.trans ht')
  have hqac : a.sameQuantity c = true := by
    rw [sameQuantity_iff] at hq hq' ⊢
    exact ⟨hq.1.trans hq'.1, hq.2.trans hq'.2⟩
  -- all three compare one quantity, so that their sets have one limit
  have hlimit := limit_eq_of_sameQuantity hqac hs hu
  obtain ⟨_, _, -, -, -, rfl⟩ := valueSet?_eq_some.mp hs
  obtain ⟨_, _, -, -, -, rfl⟩ := valueSet?_eq_some.mp hu
  obtain rfl := hlimit
  refine implies_of_isSubset ha hc hqac hs hu (ValueSet.isSubset_ofComparison_iff.mpr ?_)
  intro x hx
  exact ValueSet.mem_of_isSubset htu (ValueSet.mem_of_isSubset hst hx)

/-- Implication between groups goes through a third. -/
theorem groupImplies_trans {a b c : List Clause} (hab : groupImplies a b = true)
    (hbc : groupImplies b c = true) : groupImplies a c = true := by
  refine List.all_eq_true.mpr fun needed hneeded => ?_
  rcases Bool.or_eq_true_iff.mp (List.all_eq_true.mp hbc needed hneeded) with htrue | himplied
  · rw [htrue, Bool.true_or]
  obtain ⟨middle, hmiddle, himplies⟩ := List.any_eq_true.mp himplied
  rcases Bool.or_eq_true_iff.mp (List.all_eq_true.mp hab middle hmiddle) with htrue | himplied'
  · -- a filler implies nothing but itself
    rcases implies_cases himplies with rfl | ⟨-, -, -, s, -, hs, -⟩
    · rw [htrue, Bool.true_or]
    · obtain ⟨hconstant, -⟩ := Bool.and_eq_true_iff.mp htrue
      rw [valueSet?_of_constant? (beq_iff_eq.mp hconstant)] at hs
      cases hs
  · obtain ⟨held, hheld, himplies'⟩ := List.any_eq_true.mp himplied'
    exact Bool.or_eq_true_iff.mpr (.inr
      (List.any_eq_true.mpr ⟨held, hheld, implies_trans himplies' himplies⟩))

/-- **A group of filters that implies another group holds only when that does.**  What implies a
pause is a pause itself, and a group of filters has none. -/
theorem allHoldIn_of_groupImplies {a b : List Clause} (hsimple : isSimpleGroup a = true)
    (htimer : ∀ c ∈ b, ¬ c.IsTimer) (h : groupImplies a b = true)
    (ha : allHoldIn m a = true) : allHoldIn m b = true := by
  have hpause : anyRole a .pauseIf = false := by simp_all [isSimpleGroup]
  have hneeded := List.all_eq_true.mp h
  obtain ⟨-, hall⟩ := (allHoldIn_iff m).mp ha
  refine (allHoldIn_iff m).mpr ⟨(not_isPausedIn_iff m).mpr fun c hc hrole => ?_,
    fun c hc htruthy => ?_⟩
  · rcases Bool.or_eq_true_iff.mp (hneeded c hc) with hconstant | himplied
    · simp [hrole] at hconstant
    · obtain ⟨held, hheld, himplies⟩ := List.any_eq_true.mp himplied
      exact absurd ((role_of_implies himplies).trans hrole)
        (role_ne_of_anyRole_eq_false hpause held hheld)
  · rcases Bool.or_eq_true_iff.mp (hneeded c hc) with hconstant | himplied
    · have hconstant : c.constant? = some true := by
        simpa using (Bool.and_eq_true_iff.mp hconstant).1
      have hhits : c.terminal.hits = 0 := Decidable.not_not.mp fun hne =>
        htimer c hc ⟨hconstant, hne⟩
      exact holdsIn_of_constant?_true m hconstant hhits
    · obtain ⟨held, hheld, himplies⟩ := List.any_eq_true.mp himplied
      exact holdsIn_of_implies himplies
        (hall held hheld ((role_of_implies himplies).symm ▸ htruthy))

/-- A step drops a group of filters and keeps a group that it implies. -/
theorem dropImplied_eq_some {alternates alternates' : List (List Clause)} {event : Event}
    (h : dropImplied alternates = some (alternates', event)) :
    ∃ group other, alternates.Perm (group :: alternates') ∧ other ∈ alternates' ∧
      isSimpleGroup group = true ∧ groupImplies group other = true := by
  obtain ⟨⟨group, i⟩, hfind, heq⟩ := Option.map_eq_some_iff.mp h
  cases heq
  have hget := List.mk_mem_zipIdx_iff_getElem?.mp (List.mem_of_find?_eq_some hfind)
  have hsibling := List.find?_some hfind
  obtain ⟨hsimple, hany⟩ := Bool.and_eq_true_iff.mp hsibling
  obtain ⟨⟨other, j⟩, hother, himplies⟩ := List.any_eq_true.mp hany
  obtain ⟨hji, himplies⟩ : j ≠ i ∧ groupImplies group other = true := by simpa using himplies
  exact ⟨group, other, Places.perm_cons_eraseIdx hget, List.mem_eraseIdx_iff_getElem?.mpr
    ⟨j, hji, List.mk_mem_zipIdx_iff_getElem?.mp hother⟩, hsimple, himplies⟩

/-! ### Alternates that give way to a timer -/

/-- Whether a group of filters implies an alternate that counts hits.  What it counts can only be
timers, since filters imply nothing else that is counted. -/
def defers (alternates : List (List Clause)) (group : List Clause) : Bool :=
  isSimpleGroup group && alternates.any fun other => anyHits other && groupImplies group other

theorem defers_iff {alternates : List (List Clause)} {group : List Clause} :
    defers alternates group = true ↔ isSimpleGroup group = true ∧
      ∃ other ∈ alternates, anyHits other = true ∧ groupImplies group other = true := by
  simp [defers]

theorem anyHits_of_isSimpleGroup {group : List Clause} (h : isSimpleGroup group = true) :
    anyHits group = false := by
  simp_all [isSimpleGroup]

theorem not_isTimer_of_anyHits_eq_false {group : List Clause} (h : anyHits group = false) :
    ∀ c ∈ group, ¬ c.IsTimer := by
  rintro c hc ⟨-, hhits⟩
  have hnone : c.hasHits = false := by simpa using List.any_eq_false.mp h c hc
  exact hhits (hits_eq_zero_of_not_hasHits hnone c.terminal (terminal_mem_rows c))

/-- What a group of filters implies though it is counted is a timer. -/
theorem exists_isTimer_of_groupImplies {a b : List Clause} (hsimple : isSimpleGroup a = true)
    (hhits : anyHits b = true) (h : groupImplies a b = true) : ∃ c ∈ b, c.IsTimer := by
  obtain ⟨c, hc, hcounted⟩ := List.any_eq_true.mp hhits
  refine ⟨c, hc, ?_⟩
  rcases Bool.or_eq_true_iff.mp (List.all_eq_true.mp h c hc) with hconstant | himplied
  · have hconstant : c.constant? = some true := by
      simpa using (Bool.and_eq_true_iff.mp hconstant).1
    obtain ⟨hlead, -⟩ := constant?_eq_some.mp hconstant
    have hpositive : 0 < c.terminal.hits := by simpa [hasHits, rows, hlead] using hcounted
    exact ⟨hconstant, fun hzero => by simp [hzero] at hpositive⟩
  · -- an implied clause is one of the filters, or a filter itself
    obtain ⟨held, hheld, himplies⟩ := List.any_eq_true.mp himplied
    rcases implies_cases himplies with rfl | ⟨-, hplain, -⟩
    · have hnone := List.any_eq_false.mp (anyHits_of_isSimpleGroup hsimple) held hheld
      exact absurd hcounted hnone
    · simp [isPlain, hcounted] at hplain

/-- Dropping a group of filters takes nothing away that others defer to. -/
theorem defers_congr_of_perm {alternates alternates' : List (List Clause)} {group : List Clause}
    (hperm : alternates.Perm (group :: alternates')) (hsimple : isSimpleGroup group = true)
    (a : List Clause) : defers alternates a = defers alternates' a := by
  rw [defers, defers, hperm.any_eq, List.any_cons, anyHits_of_isSimpleGroup hsimple,
    Bool.false_and, Bool.false_or]

/-- Whether an alternate holds that does not defer to another. -/
def someHoldsUndeferred (m : Memory) (alternates : List (List Clause)) : Bool :=
  alternates.any fun a => allHoldIn m a && !defers alternates a

/-- An alternate that implies a sibling without deferring to one leaves that sibling behind, which
holds when it does and does not defer either. -/
theorem someHoldsUndeferred_of_groupImplies {alternates : List (List Clause)}
    {group other : List Clause} (hother : other ∈ alternates)
    (hsimple : isSimpleGroup group = true) (himplies : groupImplies group other = true)
    (hholds : allHoldIn m group = true) (hdefers : defers alternates group = false) :
    someHoldsUndeferred m alternates = true := by
  have hnot (b : List Clause) (hb : b ∈ alternates) (hhits : anyHits b = true) :
      groupImplies group b = false := by
    rw [← Bool.not_eq_true]
    intro h
    rw [defers_iff.mpr ⟨hsimple, b, hb, hhits, h⟩] at hdefers
    cases hdefers
  have hcount : anyHits other = false := by
    rw [← Bool.not_eq_true]
    intro hhits
    rw [hnot other hother hhits] at himplies
    cases himplies
  have hundeferred : defers alternates other = false := by
    rw [← Bool.not_eq_true]
    intro hdefer
    obtain ⟨-, b, hb, hhits, himplies'⟩ := defers_iff.mp hdefer
    have hthrough := groupImplies_trans himplies himplies'
    rw [hnot b hb hhits] at hthrough
    cases hthrough
  refine List.any_eq_true.mpr ⟨other, hother, ?_⟩
  rw [allHoldIn_of_groupImplies hsimple (not_isTimer_of_anyHits_eq_false hcount) himplies hholds,
    hundeferred]
  rfl

/-- One step keeps what the alternates say together, as far as they do not defer. -/
theorem dropImplied_meaning {alternates alternates' : List (List Clause)} {event : Event}
    (h : dropImplied alternates = some (alternates', event)) :
    alternates'.isEmpty = alternates.isEmpty ∧
      alternates'.any (resetsIn m) = alternates.any (resetsIn m) ∧
      someHoldsUndeferred m alternates' = someHoldsUndeferred m alternates := by
  obtain ⟨group, other, hperm, hother, hsimple, himplies⟩ := dropImplied_eq_some h
  have hgroup : resetsIn m group = false :=
    resetsIn_of_anyRole_eq_false m (by simp_all [isSimpleGroup])
  refine ⟨?_, ?_, ?_⟩
  · rw [hperm.isEmpty_eq]
    simpa using List.ne_nil_of_mem hother
  · rw [hperm.any_eq, List.any_cons, hgroup, Bool.false_or]
  · have hsame : someHoldsUndeferred m alternates =
        (allHoldIn m group && !defers alternates' group || someHoldsUndeferred m alternates') := by
      rw [someHoldsUndeferred, hperm.any_eq, List.any_cons, someHoldsUndeferred]
      simp only [defers_congr_of_perm hperm hsimple]
    rw [hsame]
    cases hholds : allHoldIn m group with
    | false => rfl
    | true =>
      cases hdefers : defers alternates' group with
      | true => rfl
      | false => rw [someHoldsUndeferred_of_groupImplies hother hsimple himplies hholds hdefers]; rfl

/-- Where nothing can be dropped, no alternate defers: it consists of filters, and so differs from
the one that counts. -/
theorem defers_of_dropImplied_eq_none {alternates : List (List Clause)}
    (h : dropImplied alternates = none) : ∀ a ∈ alternates, defers alternates a = false := by
  intro a ha
  rw [← Bool.not_eq_true]
  intro hdefers
  obtain ⟨hsimple, other, hother, hhits, himplies⟩ := defers_iff.mp hdefers
  obtain ⟨i, hi⟩ := List.mem_iff_getElem?.mp ha
  obtain ⟨j, hj⟩ := List.mem_iff_getElem?.mp hother
  have hji : j ≠ i := by
    rintro rfl
    obtain rfl : a = other := Option.some.inj (hi.symm.trans hj)
    rw [anyHits_of_isSimpleGroup hsimple] at hhits
    cases hhits
  have hnone := List.find?_eq_none.mp (Option.map_eq_none_iff.mp h) (a, i)
    (List.mk_mem_zipIdx_iff_getElem?.mpr hi)
  refine hnone (Bool.and_eq_true_iff.mpr ⟨hsimple, List.any_eq_true.mpr ⟨(other, j),
    List.mk_mem_zipIdx_iff_getElem?.mpr hj, ?_⟩⟩)
  simp [hji, himplies]

end Clause

namespace ClauseGroups
open Clause

/-- A trigger without the alternates that imply a sibling. -/
def withoutImplied (g : ClauseGroups) : ClauseGroups :=
  { g with alternates := (Logged.exhaust dropImplied g.alternates.length g.alternates).value }

theorem trigger_mergeRequirementGroups (t : Trigger) :
    (mergeRequirementGroups.run t).trigger = (ofTrigger t).withoutImplied.toTrigger := rfl

/-- What is left are alternates that were there. -/
theorem mem_of_mem_withoutImplied {g : ClauseGroups} {a : List Clause}
    (h : a ∈ g.withoutImplied.alternates) : a ∈ g.alternates := by
  refine Logged.exhaust_keeps (P := fun alternates => ∀ a ∈ alternates, a ∈ g.alternates)
    ?_ _ g.alternates (fun _ ha => ha) a h
  intro alternates alternates' event hstep hall a ha
  obtain ⟨_, _, hperm, -⟩ := dropImplied_eq_some hstep
  exact hall a (hperm.mem_iff.mpr (List.mem_cons_of_mem _ ha))

theorem All.withoutImplied {P : Clause → Prop} {g : ClauseGroups} (h : g.All P) :
    g.withoutImplied.All P :=
  all_iff.mpr ⟨(all_iff.mp h).1, fun a ha => (all_iff.mp h).2 a (mem_of_mem_withoutImplied ha)⟩

/-- Groups that are left out do not change how the others are stored. -/
theorem ofTrigger_toTrigger_withoutImplied (t : Trigger) :
    ofTrigger (ofTrigger t).withoutImplied.toTrigger = (ofTrigger t).withoutImplied := by
  have hcore : split (join (ofTrigger t).core) = (ofTrigger t).core :=
    congrArg split (join_split t.core)
  have halternates : ((ofTrigger t).withoutImplied.alternates.map join).map split =
      (ofTrigger t).withoutImplied.alternates := by
    rw [List.map_map]
    refine (List.map_congr_left fun a ha => ?_).trans (List.map_id _)
    obtain ⟨rows, -, rfl⟩ := List.mem_map.mp (mem_of_mem_withoutImplied ha)
    exact congrArg split (join_split rows)
  exact congrArg₂ ClauseGroups.mk hcore halternates

theorem dropImplied_withoutImplied (g : ClauseGroups) :
    dropImplied g.withoutImplied.alternates = none := by
  refine Logged.exhaust_eq_none List.length ?_ _ _ (Nat.le_refl _)
  intro before after event hstep
  obtain ⟨_, _, hperm, -⟩ := dropImplied_eq_some hstep
  rw [hperm.length_eq]
  exact Nat.lt_succ_self _

/-- Whether some alternate holds, but only such as imply an alternate that counts. -/
def defersIn (m : Memory) (g : ClauseGroups) : Bool :=
  g.alternates.any (allHoldIn m) && !someHoldsUndeferred m g.alternates

theorem any_allHoldIn_and_not_defersIn (m : Memory) (g : ClauseGroups) :
    (g.alternates.any (allHoldIn m) && !g.defersIn m) = someHoldsUndeferred m g.alternates := by
  rw [defersIn]
  cases hundeferred : someHoldsUndeferred m g.alternates with
  | false => cases g.alternates.any (allHoldIn m) <;> rfl
  | true =>
    obtain ⟨a, ha, hholds⟩ := List.any_eq_true.mp hundeferred
    rw [List.any_eq_true.mpr ⟨a, ha, (Bool.and_eq_true_iff.mp hholds).1⟩]
    rfl

/-- **Dropping alternates that imply a sibling loses a firing exactly where the trigger defers** to
an alternate that counts. -/
theorem firesIn_withoutImplied_eq (m : Memory) (g : ClauseGroups) :
    g.withoutImplied.firesIn m = (g.firesIn m && !g.defersIn m) := by
  obtain ⟨hempty, hresets, hholds⟩ :
      g.withoutImplied.alternates.isEmpty = g.alternates.isEmpty ∧
      g.withoutImplied.alternates.any (Clause.resetsIn m) =
        g.alternates.any (Clause.resetsIn m) ∧
      someHoldsUndeferred m g.withoutImplied.alternates =
        someHoldsUndeferred m g.alternates := by
    refine Logged.exhaust_keeps (P := fun alternates =>
      alternates.isEmpty = g.alternates.isEmpty ∧
      alternates.any (Clause.resetsIn m) = g.alternates.any (Clause.resetsIn m) ∧
      someHoldsUndeferred m alternates = someHoldsUndeferred m g.alternates)
      ?_ _ g.alternates ⟨rfl, rfl, rfl⟩
    rintro alternates alternates' event hstep ⟨hempty, hresets, hholds⟩
    obtain ⟨hempty', hresets', hholds'⟩ := dropImplied_meaning (m := m) hstep
    exact ⟨hempty'.trans hempty, hresets'.trans hresets, hholds'.trans hholds⟩
  have hdone : g.withoutImplied.alternates.any (allHoldIn m) =
      someHoldsUndeferred m g.withoutImplied.alternates :=
    any_congr_of_mem fun a ha => by
      rw [defers_of_dropImplied_eq_none g.dropImplied_withoutImplied a ha, Bool.not_false,
        Bool.and_true]
  have hcore : g.withoutImplied.core = g.core := rfl
  rw [firesIn, firesIn, hcore, hempty, hresets, hdone, hholds, ← any_allHoldIn_and_not_defersIn]
  cases hnil : g.alternates.isEmpty with
  | true => rw [defersIn, List.isEmpty_iff.mp hnil]; simp
  | false => simp only [Bool.false_or, Bool.and_assoc]

theorem defersIn_eq_false (m : Memory) {g : ClauseGroups} (h : g.All fun c => ¬ c.IsTimer) :
    g.defersIn m = false := by
  have hnone : ∀ a ∈ g.alternates, defers g.alternates a = false := by
    intro a ha
    rw [← Bool.not_eq_true]
    intro hdefers
    obtain ⟨hsimple, other, hother, hhits, himplies⟩ := defers_iff.mp hdefers
    obtain ⟨c, hc, htimer⟩ := exists_isTimer_of_groupImplies hsimple hhits himplies
    exact (all_iff.mp h).2 other hother c hc htimer
  have hsame : someHoldsUndeferred m g.alternates = g.alternates.any (allHoldIn m) :=
    any_congr_of_mem fun a ha => by rw [hnone a ha, Bool.not_false, Bool.and_true]
  rw [defersIn, hsame, Bool.and_not_self]

/-- Dropping alternates that imply a sibling keeps the firing of the trigger where no row has to be
counted that is true anyway. -/
theorem firesIn_withoutImplied (m : Memory) {g : ClauseGroups} (h : g.All fun c => ¬ c.IsTimer) :
    g.withoutImplied.firesIn m = g.firesIn m := by
  rw [firesIn_withoutImplied_eq, defersIn_eq_false m h, Bool.not_false, Bool.and_true]

end ClauseGroups

namespace Trigger
open ClauseGroups

/-- **What merging requirement groups does to the firing of a trigger.**  Alternates that are dropped
were filters that imply a sibling, and are missed only where nothing holds but filters that imply a
sibling with a timer: that one has to be waited for. -/
theorem firesIn_mergeRequirementGroups (m : Memory) (t : Trigger) :
    (mergeRequirementGroups.run t).trigger.firesIn m =
      (t.firesIn m && !(ofTrigger t).defersIn m) := by
  rw [trigger_mergeRequirementGroups, ← firesIn_ofTrigger, ofTrigger_toTrigger_withoutImplied,
    firesIn_withoutImplied_eq, firesIn_ofTrigger]

/-- A filter in the core, and an alternate that holds at once beside a timer of 300 frames. -/
def filterBesideTimer : Trigger :=
  { core := [.comparing (.memory .byte 1) .eq (.literal 0)]
    alternates := [[.comparing (.memory .byte 2) .eq (.literal 0)],
      [{ Row.alwaysTrue with hits := 300 }]] }

theorem firesIn_mergeRequirementGroups_filterBesideTimer :
    filterBesideTimer.firesIn .zero = true ∧
      (mergeRequirementGroups.run filterBesideTimer).trigger.firesIn .zero = false := by
  refine ⟨by decide +kernel, ?_⟩
  rw [firesIn_mergeRequirementGroups]
  decide +kernel

end Trigger
end MemoryTrigger

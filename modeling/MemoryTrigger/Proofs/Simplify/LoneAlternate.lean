import MemoryTrigger.Proofs.Simplify.Rounds

/-! # Triggers that end with one alternate

A lone alternate is a conjunction with the core, and joins it unless a pause forbids that; then the
last alternate that was dropped comes back, so that there are two.  Two things are not covered by
this.  Where all alternates are impossible, the first stays and the others are forgotten.  And the
pass behind it drops alternates that imply a sibling, down to one, and brings none back.

Apart from these two, no round leaves exactly one alternate (`Trigger.length_round_eq_one_iff`), and
an alternate that was left alone stays so only as long as a pause keeps it out of the core. -/
namespace MemoryTrigger

/-! ## Alternates that all imply one -/

namespace Clause

/-- All alternates but one consist of filters and imply that one. -/
def AreAbsorbed (alternates : List (List Clause)) : Prop :=
  ∃ lone rest, alternates.Perm (lone :: rest) ∧
    ∀ a ∈ rest, isSimpleGroup a = true ∧ groupImplies a lone = true

/-- Dropping an implied alternate does not change whether all imply one. -/
theorem areAbsorbed_dropImplied {alternates alternates' : List (List Clause)} {event : Event}
    (h : dropImplied alternates = some (alternates', event)) :
    AreAbsorbed alternates' ↔ AreAbsorbed alternates := by
  obtain ⟨group, other, hperm, hother, hsimple, himplies⟩ := dropImplied_eq_some h
  constructor
  · rintro ⟨lone, rest, hperm', hrest⟩
    refine ⟨lone, group :: rest, hperm.trans ((hperm'.cons group).trans (.swap _ _ _)),
      List.forall_mem_cons.mpr ⟨⟨hsimple, ?_⟩, hrest⟩⟩
    rcases List.mem_cons.mp (hperm'.mem_iff.mp hother) with rfl | hmem
    · exact himplies
    · exact groupImplies_trans himplies (hrest other hmem).2
  · rintro ⟨lone, rest, hperm', hrest⟩
    have hboth : (group :: alternates').Perm (lone :: rest) := hperm.symm.trans hperm'
    by_cases hlone : group = lone
    · -- the others now imply what the dropped one implies
      subst hlone
      have hothers := hboth.cons_inv
      refine ⟨other, _, List.perm_cons_erase hother, fun a ha => ?_⟩
      obtain ⟨ha, hgroup⟩ := hrest a (hothers.mem_iff.mp (List.mem_of_mem_erase ha))
      exact ⟨ha, groupImplies_trans hgroup himplies⟩
    · have hmem : group ∈ rest :=
        (List.mem_cons.mp (hboth.mem_iff.mp List.mem_cons_self)).resolve_left hlone
      refine ⟨lone, rest.erase group, ?_, fun a ha => hrest a (List.mem_of_mem_erase ha)⟩
      have hrest' := (List.perm_cons_erase hmem).cons lone
      exact (hboth.trans (hrest'.trans (.swap _ _ _))).cons_inv

/-- Where nothing can be dropped and all imply one, there is only that one. -/
theorem AreAbsorbed.length_eq_one {alternates : List (List Clause)} (h : AreAbsorbed alternates)
    (hdone : dropImplied alternates = none) : alternates.length = 1 := by
  obtain ⟨lone, rest, hperm, hrest⟩ := h
  cases rest with
  | nil => rw [hperm.length_eq]; rfl
  | cons a rest =>
    obtain ⟨hsimple, himplies⟩ := hrest a List.mem_cons_self
    obtain ⟨i, hi⟩ := List.mem_iff_getElem?.mp (hperm.mem_iff.mpr (by simp : a ∈ lone :: a :: rest))
    have hothers : (alternates.eraseIdx i).Perm (lone :: rest) :=
      ((Places.perm_cons_eraseIdx hi).symm.trans (hperm.trans (.swap _ _ _))).cons_inv
    obtain ⟨j, hji, hj⟩ := List.mem_eraseIdx_iff_getElem?.mp
      (hothers.mem_iff.mpr List.mem_cons_self)
    have hfind := List.find?_eq_none.mp (Option.map_eq_none_iff.mp hdone) (a, i)
      (List.mk_mem_zipIdx_iff_getElem?.mpr hi)
    refine absurd ?_ hfind
    show impliesSibling alternates a i = true
    rw [impliesSibling, hsimple, Bool.true_and]
    refine List.any_eq_true.mpr ⟨(lone, j), List.mk_mem_zipIdx_iff_getElem?.mpr hj, ?_⟩
    simp [hji, himplies]

end Clause

/-! ## Alternates of which none is remembered -/

namespace Alternates
open Clause
variable {a : Alternates} {groups : List (List Clause)}

/-- All alternates are impossible, and no two of them are the same or have a union. -/
def AreForgotten (groups : List (List Clause)) : Prop :=
  (∀ group ∈ groups, isImpossible group = true) ∧
    groups.Pairwise fun x y => sameClauses x y = false ∧ union? x y = none

theorem splitRepeated_snd_eq_nil_iff (kept rest : List (List Clause)) :
    (splitRepeated kept rest).2 = [] ↔
      (∀ x ∈ kept, ∀ y ∈ rest, sameClauses x y = false) ∧
        rest.Pairwise fun x y => sameClauses x y = false := by
  fun_induction splitRepeated kept rest with
  | case1 kept => simp
  | case2 kept group rest hany kept' dropped hsplit ih =>
    obtain ⟨k, hk, hsame⟩ := List.any_eq_true.mp hany
    refine iff_of_false (by simp) fun h => ?_
    rw [h.1 k hk group List.mem_cons_self] at hsame
    cases hsame
  | case3 kept group rest hany ih =>
    have hnone : ∀ x ∈ kept, sameClauses x group = false := by simpa using hany
    rw [ih, List.pairwise_cons]
    simp only [List.forall_mem_append, List.forall_mem_cons, List.not_mem_nil, false_implies,
      implies_true, and_true]
    constructor
    · rintro ⟨⟨hkept, hgroup⟩, hrest⟩
      exact ⟨fun x hx => ⟨hnone x hx, hkept x hx⟩, hgroup, hrest⟩
    · rintro ⟨hkept, hgroup, hrest⟩
      exact ⟨⟨fun x hx => (hkept x hx).2, hgroup⟩, hrest⟩

/-- Alternates of which none was dropped as the same as another. -/
theorem dropped_ofDistinct_eq_none_iff :
    (ofDistinct groups).dropped = none ↔ groups.Pairwise fun x y => sameClauses x y = false := by
  have hdropped : (ofDistinct groups).dropped = (splitRepeated [] groups).2.getLast? :=
    Option.or_none
  rw [hdropped, List.getLast?_eq_none_iff, splitRepeated_snd_eq_nil_iff]
  simp

theorem ofDistinct_of_dropped_eq_none (h : (ofDistinct groups).dropped = none) :
    ofDistinct groups = ⟨groups, none⟩ := by
  have hnone : (splitRepeated [] groups).2 = [] :=
    (splitRepeated_snd_eq_nil_iff _ _).mpr ⟨by simp, dropped_ofDistinct_eq_none_iff.mp h⟩
  have hlength := length_splitRepeated [] groups
  rw [hnone] at hlength
  have hsame : (splitRepeated [] groups).1 = groups :=
    (sublist_splitRepeated [] groups).eq_of_length (by simpa using hlength)
  show drop ⟨[], none⟩ (splitRepeated [] groups).1 (splitRepeated [] groups).2 = _
  rw [hnone, hsame]
  rfl

theorem findUnion?_eq_none_iff :
    findUnion? groups = none ↔ groups.Pairwise fun x y => union? x y = none := by
  rw [List.pairwise_iff_getElem]
  simp only [findUnion?, List.findSome?_eq_none_iff, Prod.forall,
    List.mk_mem_zipIdx_iff_getElem?]
  constructor
  · intro h i j hi hj hij
    have hnone := h _ i (List.getElem?_eq_getElem hi) _ j (List.getElem?_eq_getElem hj)
    rw [if_pos hij] at hnone
    exact Option.map_eq_none_iff.mp hnone
  · intro h x i hx y j hy
    obtain ⟨hi, rfl⟩ := List.getElem?_eq_some_iff.mp hx
    obtain ⟨hj, rfl⟩ := List.getElem?_eq_some_iff.mp hy
    split
    · rename_i hij
      rw [h i j hi hj hij]
      rfl
    · rfl

/-- Each union remembers one of its alternates, so that there was none if none is remembered. -/
theorem unite_of_dropped_eq_none (h : a.unite.value.dropped = none) :
    a.unite.value = a ∧ a.kept.Pairwise fun x y => union? x y = none := by
  have hsame : a.unite.value = a := by
    have hor : a.unite.value = a ∨ a.unite.value.dropped ≠ none := by
      refine Logged.exhaust_keeps (P := fun b => b = a ∨ b.dropped ≠ none) ?_ _ a (.inl rfl)
      intro b c event hstep _
      obtain ⟨x, y, merged, rest, -, -, -, hc⟩ := uniteStep_eq_some hstep
      rw [hc]
      exact .inr (by simp [drop])
    exact hor.resolve_right fun hne => hne h
  have hdone : a.unite.value.uniteStep = none := by
    refine Logged.exhaust_eq_none (fun b => b.kept.length) (fun b c event hstep => ?_) _ a
      (Nat.le_refl _)
    obtain ⟨x, y, merged, rest, -, hperm, hperm', -⟩ := uniteStep_eq_some hstep
    simp only [hperm.length_eq, hperm'.length_eq, List.length_cons]
    omega
  rw [hsame] at hdone
  exact ⟨hsame, findUnion?_eq_none_iff.mp (Option.map_eq_none_iff.mp hdone)⟩

theorem unite_of_pairwise (h : a.kept.Pairwise fun x y => union? x y = none) :
    a.unite.value = a := by
  have hdone : a.uniteStep = none := Option.map_eq_none_iff.mpr (findUnion?_eq_none_iff.mpr h)
  refine Logged.exhaust_keeps (P := (· = a)) ?_ _ a rfl
  rintro b c event hstep rfl
  rw [hdone] at hstep
  cases hstep

/-- Impossible alternates are dropped without one being remembered where there are none, or nothing
else. -/
theorem dropImpossible_of_dropped_eq_none (h : a.dropImpossible.dropped = none) :
    a.dropped = none ∧ (a.dropImpossible = a ∨
      (∀ group ∈ a.kept, isImpossible group = true) ∧ a.dropImpossible.kept = a.kept.take 1) := by
  unfold dropImpossible at h ⊢
  simp only at h ⊢
  split at h
  · rename_i hempty
    have hall : ∀ group ∈ a.kept, isImpossible group = true := by simpa using hempty
    rw [if_pos hempty, List.filter_eq_self.mpr hall]
    exact ⟨h, .inr ⟨hall, rfl⟩⟩
  · rename_i hempty
    rw [if_neg hempty]
    obtain ⟨hlast, hdropped⟩ := Option.or_eq_none_iff.mp h
    have hnone : ∀ group ∈ a.kept, ¬ isImpossible group = true := by
      simpa using List.getLast?_eq_none_iff.mp hlast
    have hsame : a.kept.filter (fun group => !isImpossible group) = a.kept :=
      List.filter_eq_self.mpr fun group hgroup => by simpa using hnone group hgroup
    refine ⟨hdropped, .inl ?_⟩
    rw [hsame, List.getLast?_eq_none_iff.mp hlast]
    rfl

theorem keepBesideTrue_of_dropped_eq_none (h : a.keepBesideTrue.dropped = none) :
    a.keepBesideTrue = a := by
  unfold keepBesideTrue at h ⊢
  split
  · rename_i htrue
    rw [if_pos htrue] at h
    obtain ⟨hlast, -⟩ := Option.or_eq_none_iff.mp h
    have hnone := List.getLast?_eq_none_iff.mp hlast
    have hlength := length_splitBesideTrue false a.kept
    rw [hnone] at hlength
    have hsame := (sublist_splitBesideTrue false a.kept).eq_of_length hlength
    show a.drop (splitBesideTrue false a.kept).1 (splitBesideTrue false a.kept).2 = a
    rw [hnone, hsame]
    rfl
  · rfl

theorem keepBesideTrue_singleton (lone : List Clause) :
    keepBesideTrue ⟨[lone], none⟩ = ⟨[lone], none⟩ := by
  by_cases htrue : lone = alwaysTrueGroup
  · rw [htrue]
    decide
  · have hcontains : [lone].contains alwaysTrueGroup = false := by simpa using Ne.symm htrue
    rw [keepBesideTrue, hcontains]
    rfl

/-- **One alternate is left and none remembered** where there was one, or where the first of several
is all that is left of impossible ones. -/
theorem eq_lone_iff {lone : List Clause} :
    (ofDistinct groups).unite.value.dropImpossible.keepBesideTrue = ⟨[lone], none⟩ ↔
      ∃ rest, groups = lone :: rest ∧ (rest = [] ∨ AreForgotten groups) := by
  constructor
  · intro h
    rw [keepBesideTrue_of_dropped_eq_none (congrArg Alternates.dropped h)] at h
    obtain ⟨hunited, himpossible⟩ :=
      dropImpossible_of_dropped_eq_none (congrArg Alternates.dropped h)
    obtain ⟨hsame, hunions⟩ := unite_of_dropped_eq_none hunited
    rw [hsame] at hunited himpossible h
    have hdistinct := dropped_ofDistinct_eq_none_iff.mp hunited
    rw [ofDistinct_of_dropped_eq_none hunited] at himpossible h hunions
    rcases himpossible with hkept | ⟨hall, hkept⟩
    · rw [hkept] at h
      cases h
      exact ⟨[], rfl, .inl rfl⟩
    · rw [h] at hkept
      cases groups with
      | nil => cases hkept
      | cons first rest =>
        obtain rfl : lone = first := by simpa using hkept
        exact ⟨rest, rfl, .inr ⟨hall, hdistinct.and hunions⟩⟩
  · rintro ⟨rest, rfl, rfl | ⟨himpossible, hpairs⟩⟩
    · have hdistinct : ofDistinct [lone] = ⟨[lone], none⟩ :=
        ofDistinct_of_dropped_eq_none (dropped_ofDistinct_eq_none_iff.mpr
          (List.pairwise_singleton _ _))
      rw [hdistinct, unite_of_pairwise (List.pairwise_singleton _ _)]
      have hpossible : dropImpossible ⟨[lone], none⟩ = ⟨[lone], none⟩ := by
        cases himpossible : isImpossible lone <;> simp [dropImpossible, himpossible, drop]
      rw [hpossible, keepBesideTrue_singleton]
    · have hdistinct : ofDistinct (lone :: rest) = ⟨lone :: rest, none⟩ :=
        ofDistinct_of_dropped_eq_none (dropped_ofDistinct_eq_none_iff.mpr
          (hpairs.imp fun h => h.1))
      have hlone : dropImpossible ⟨lone :: rest, none⟩ = ⟨[lone], none⟩ := by
        have hempty : (lone :: rest).filter (fun group => !isImpossible group) = [] :=
          List.filter_eq_nil_iff.mpr fun group hgroup => by simp [himpossible group hgroup]
        rw [dropImpossible]
        simp only [hempty, List.filter_eq_self.mpr himpossible]
        rfl
      rw [hdistinct, unite_of_pairwise (hpairs.imp fun h => h.2), hlone, keepBesideTrue_singleton]

end Alternates

namespace ClauseGroups
open Clause Alternates

/-- **Exactly one alternate is left when all others imply it.** -/
theorem length_withoutImplied_eq_one_iff (g : ClauseGroups) :
    g.withoutImplied.alternates.length = 1 ↔ AreAbsorbed g.alternates := by
  have hsame : AreAbsorbed g.withoutImplied.alternates ↔ AreAbsorbed g.alternates :=
    Logged.exhaust_keeps (P := fun alternates => AreAbsorbed alternates ↔ AreAbsorbed g.alternates)
      (fun _ _ _ hstep hkept => (areAbsorbed_dropImplied hstep).trans hkept) _ _ Iff.rfl
  rw [← hsame]
  constructor
  · intro hone
    obtain ⟨lone, hlone⟩ := List.length_eq_one_iff.mp hone
    exact ⟨lone, [], by rw [hlone], by simp⟩
  · exact fun h => h.length_eq_one g.dropImplied_withoutImplied

/-- **Collapsing leaves exactly one alternate** where a pause keeps the first out of the core, and
it was the only one or the others are forgotten. -/
theorem length_collapseAlternates_eq_one_iff (g : ClauseGroups) :
    g.collapseAlternates.value.alternates.length = 1 ↔
      ∃ lone rest, g.alternates = lone :: rest ∧ pausesClash lone g.core = true ∧
        (rest = [] ∨ AreForgotten g.alternates) := by
  by_cases hne : g.alternates = []
  · have hcollapse : g.collapseAlternates.value = g := by simp [collapseAlternates, hne]
    simp [hcollapse, hne]
  rw [collapseAlternates_of_ne_nil hne]
  generalize ha : (ofDistinct g.alternates).unite.value.dropImpossible.keepBesideTrue = a
  have hsettle : (a.settle g.core).alternates.length = 1 ↔
      ∃ lone, a = ⟨[lone], none⟩ ∧ pausesClash lone g.core = true := by
    obtain ⟨kept, dropped⟩ := a
    unfold Alternates.settle
    split
    · rename_i lone hkept
      obtain rfl : kept = [lone] := hkept
      split
      · rename_i hclash
        cases dropped <;> simp [hclash]
      · rename_i hclash
        simp [hclash]
    · rename_i hkept
      refine iff_of_false (fun hone => ?_) ?_
      · obtain ⟨lone, hlone⟩ := List.length_eq_one_iff.mp hone
        exact hkept lone hlone
      · rintro ⟨lone, heq, -⟩
        exact hkept lone (congrArg Alternates.kept heq)
  rw [hsettle]
  constructor
  · rintro ⟨lone, rfl, hclash⟩
    obtain ⟨rest, hgroups, hrest⟩ := eq_lone_iff.mp ha
    exact ⟨lone, rest, hgroups, hclash, hrest⟩
  · rintro ⟨lone, rest, hgroups, hclash, hrest⟩
    exact ⟨lone, ha.symm.trans (eq_lone_iff.mpr ⟨rest, hgroups, hrest⟩), hclash⟩

/-! ## The other passes keep the number of alternates -/

theorem length_promoteShared (g : ClauseGroups) :
    g.promoteShared.value.dropTrueCore.alternates.length = g.alternates.length := by
  have hpromoteAll (pausing : Bool) (cs : List Clause) (g : ClauseGroups) :
      (promoteAll pausing cs g).value.alternates.length = g.alternates.length := by
    induction cs generalizing g with
    | nil => rfl
    | cons c rest ih =>
      refine (ih (promote pausing g c).value).trans ?_
      unfold promote
      split
      · exact List.length_map _
      · rfl
  have hdrop (g : ClauseGroups) : g.dropTrueCore.alternates = g.alternates := by
    unfold dropTrueCore
    split <;> rfl
  rw [hdrop]
  unfold promoteShared
  split
  · exact (List.length_map _).trans (hpromoteAll _ _ g)
  · rfl

theorem length_filterGuards (g : ClauseGroups) :
    g.filterGuards.alternates.length = g.alternates.length := by
  unfold filterGuards
  dsimp only
  rw [List.length_map]
  split
  · rfl
  · exact List.length_map _

end ClauseGroups

namespace Trigger
open Clause Alternates ClauseGroups

/-- The trigger as it comes to the collapse of its alternates in a round. -/
def prepared (t : Trigger) : Trigger :=
  (Pass.runAll [normalizeComparisons, normalizeGuards, promoteCommonClauses, removeDuplicates,
    removeRedundancies] t).trigger

/-- The trigger with its alternates collapsed in a round. -/
def collapsed (t : Trigger) : Trigger := (mergeDuplicateAlternates.run t.prepared).trigger

theorem length_prepared (t : Trigger) : t.prepared.alternates.length = t.alternates.length := by
  show (removeRedundancies.run (removeDuplicates.run (promoteCommonClauses.run
    (normalizeGuards.run (normalizeComparisons.run t).trigger).trigger).trigger).trigger
    ).trigger.alternates.length = _
  rw [trigger_removeRedundancies, trigger_removeDuplicates, trigger_promoteCommonClauses,
    trigger_normalizeGuards, trigger_normalizeComparisons]
  simp [toTrigger, ofTrigger, withoutOverlaps, dropRepeated, length_promoteShared,
    length_filterGuards]

theorem length_round (t : Trigger) :
    t.round.alternates.length =
      (ofTrigger t.collapsed).withoutImplied.alternates.length := by
  show (mergeBits.run
    (mergeRequirementGroups.run t.collapsed).trigger).trigger.alternates.length = _
  rw [trigger_mergeBits, trigger_mergeRequirementGroups]
  simp [toTrigger, ofTrigger, withWholes]

/-! ## Rounds that leave one alternate -/

/-- A pause keeps the only alternate out of the core. -/
def KeepsLone (t : Trigger) : Prop :=
  ∃ lone, (ofTrigger t.prepared).alternates = [lone] ∧
    pausesClash lone (ofTrigger t.prepared).core = true

/-- Of several alternates a round leaves one: all are impossible and a pause keeps the first out of
the core, or all but one imply that one. -/
def StrandsAlternate (t : Trigger) : Prop :=
  (∃ lone rest, (ofTrigger t.prepared).alternates = lone :: rest ∧ rest ≠ [] ∧
      pausesClash lone (ofTrigger t.prepared).core = true ∧
      AreForgotten (ofTrigger t.prepared).alternates) ∨
    (1 < t.collapsed.alternates.length ∧ AreAbsorbed (ofTrigger t.collapsed).alternates)

theorem length_collapsed_eq_one_iff (t : Trigger) :
    t.collapsed.alternates.length = 1 ↔
      ∃ lone rest, (ofTrigger t.prepared).alternates = lone :: rest ∧
        pausesClash lone (ofTrigger t.prepared).core = true ∧
        (rest = [] ∨ AreForgotten (ofTrigger t.prepared).alternates) := by
  rw [← length_collapseAlternates_eq_one_iff, collapsed, trigger_mergeDuplicateAlternates,
    toTrigger, List.length_map]

theorem KeepsLone.length_eq_one {t : Trigger} (h : t.KeepsLone) : t.alternates.length = 1 := by
  obtain ⟨lone, hlone, -⟩ := h
  rw [← length_prepared]
  simpa [ofTrigger] using congrArg List.length hlone

/-- **When a round leaves exactly one alternate.** -/
theorem length_round_eq_one_iff (t : Trigger) :
    t.round.alternates.length = 1 ↔ t.StrandsAlternate ∨ t.KeepsLone := by
  have hcount : (ofTrigger t.collapsed).alternates.length = t.collapsed.alternates.length := by
    rw [ofTrigger, List.length_map]
  rw [length_round, length_withoutImplied_eq_one_iff]
  constructor
  · intro habsorbed
    rcases Nat.lt_or_ge 1 t.collapsed.alternates.length with hmany | hfew
    · exact .inl (.inr ⟨hmany, habsorbed⟩)
    · have hone : t.collapsed.alternates.length = 1 := by
        obtain ⟨lone, rest, hperm, -⟩ := habsorbed
        rw [← hcount, hperm.length_eq, List.length_cons] at hfew ⊢
        omega
      obtain ⟨lone, rest, hgroups, hclash, hrest⟩ := t.length_collapsed_eq_one_iff.mp hone
      by_cases hnil : rest = []
      · exact .inr ⟨lone, hnil ▸ hgroups, hclash⟩
      · exact .inl (.inl ⟨lone, rest, hgroups, hnil, hclash, hrest.resolve_left hnil⟩)
  · -- a single alternate implies nothing else
    have habsorbed (hone : t.collapsed.alternates.length = 1) :
        AreAbsorbed (ofTrigger t.collapsed).alternates := by
      obtain ⟨lone, hlone⟩ := List.length_eq_one_iff.mp (hcount.trans hone)
      exact ⟨lone, [], by rw [hlone], by simp⟩
    rintro ((⟨lone, rest, hgroups, -, hclash, hforgotten⟩ | ⟨-, h⟩) | ⟨lone, hlone, hclash⟩)
    · exact habsorbed (t.length_collapsed_eq_one_iff.mpr
        ⟨lone, rest, hgroups, hclash, .inr hforgotten⟩)
    · exact h
    · exact habsorbed (t.length_collapsed_eq_one_iff.mpr ⟨lone, [], hlone, hclash, .inl rfl⟩)

/-- **When a simplified trigger ends with exactly one alternate**, though it did not have exactly
one: some round strands it, and in all later rounds a pause keeps it out of the core. -/
theorem length_simplify_eq_one_iff {t : Trigger} (h : t.alternates.length ≠ 1) :
    t.simplify.alternates.length = 1 ↔
      ∃ n < Pass.maxRounds, (round^[n] t).StrandsAlternate ∧
        ∀ k, n < k → k < Pass.maxRounds → (round^[k] t).KeepsLone := by
  rw [simplify_eq_iterate]
  refine holds_iff_exists_cause (P := fun n => (round^[n] t).alternates.length = 1) h (fun n => ?_)
    Pass.maxRounds
  rw [Function.iterate_succ_apply', length_round_eq_one_iff]
  exact or_congr_right ⟨fun hkeeps => ⟨hkeeps.length_eq_one, hkeeps⟩, fun hkeeps => hkeeps.2⟩

/-- A counted pause beside an alternate that implies one that is counted. -/
def pausedTimer : Trigger :=
  { core := [{ Row.comparing (.memory .byte 1) .eq (.literal 1) with role := .pauseIf, hits := 5 }]
    alternates := [[.comparing (.memory .byte 2) .eq (.literal 1)],
      [{ Row.alwaysTrue with hits := 5 }]] }

theorem length_simplify_eq_one_iff_pausedTimer :
    pausedTimer.alternates.length = 2 ∧ pausedTimer.simplify.alternates.length = 1 ∧
      ∃ n < Pass.maxRounds, (round^[n] pausedTimer).StrandsAlternate ∧
        ∀ k, n < k → k < Pass.maxRounds → (round^[k] pausedTimer).KeepsLone := by
  have hone : pausedTimer.simplify.alternates.length = 1 := by decide +kernel
  exact ⟨rfl, hone, (length_simplify_eq_one_iff (by decide)).mp hone⟩

end Trigger
end MemoryTrigger

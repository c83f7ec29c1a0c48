import MemoryTrigger.Proofs.Simplify.Truthiness

/-! # How a round loses what must hold

A round that takes the last of what must hold does so in one of three ways.  It drops a core of
`1=1` beside alternates of guards (`ClauseGroups.HasOnlyTrueCore`), it drops filters beside the
resets that negate them, where hits are counted (`ClauseGroups.FiltersGiveWay`), or it drops
impossible alternates beside possible ones of guards (`ClauseGroups.HasOnlyImpossible`).  A round
that starts without anything that must hold ends without it where the guards stay what they are
(`Trigger.hasTruthy_round_eq_false_iff`). -/
namespace MemoryTrigger

/-! ## A core of `1=1` -/

namespace ClauseGroups
open Clause
variable {g : ClauseGroups}

/-- A core of `1=1` is all that must hold beside alternates. -/
def HasOnlyTrueCore (g : ClauseGroups) : Prop :=
  g.core = alwaysTrueGroup ∧ g.alternates ≠ [] ∧
    ∀ a ∈ g.alternates, a ≠ [] ∧ Clause.anyTruthy a = false

/-- **Dropping a core of `1=1` loses what must hold** exactly where the alternates are guards. -/
theorem anyTruthy_dropTrueCore_eq_false_iff (h : g.anyTruthy = true) :
    g.dropTrueCore.dropRepeated.anyTruthy = false ↔ g.HasOnlyTrueCore := by
  rw [← Bool.not_eq_true, anyTruthy_dropRepeated_iff]
  unfold dropTrueCore
  split
  · rename_i hdrops
    obtain ⟨hne, hcore⟩ : g.alternates ≠ [] ∧ g.core = alwaysTrueGroup := by simpa using hdrops
    have hgroups : ¬ ((⟨[], g.alternates⟩ : ClauseGroups).anyTruthy = true ∨ [] ∈ g.alternates) ↔
        ∀ a ∈ g.alternates, a ≠ [] ∧ Clause.anyTruthy a = false := by
      rw [not_or, Bool.not_eq_true, anyTruthy_eq_false_iff]
      constructor
      · rintro ⟨⟨-, hnone⟩, hnil⟩ a ha
        exact ⟨fun heq => hnil (heq ▸ ha), hnone a ha⟩
      · intro hall
        exact ⟨⟨rfl, fun a ha => (hall a ha).2⟩, fun hnil => (hall [] hnil).1 rfl⟩
    exact hgroups.trans ⟨fun hall => ⟨hcore, hne, hall⟩, fun hall => hall.2.2⟩
  · rename_i hdrops
    refine iff_of_false (fun hnone => hnone (.inl h)) fun honly => hdrops ?_
    simp [honly.1, honly.2.1]

end ClauseGroups

/-! ## Filters that give way to resets -/

namespace Clause
section Merging
variable {anyHits inCore : Bool} {a b : Clause} {e : Merge} {group before after : List Clause}
  {event : Event}

/-- Two clauses that merge have one role, which their merge keeps, or are a reset and a filter. -/
theorem role_of_merge? (h : merge? anyHits inCore a b = some e) :
    (a.role = b.role ∧ (e.result a b).role = a.role) ∨
      (a.isResetOfFilter b = true ∧
        ((anyHits = true ∧ e.result a b = a) ∨ (anyHits = false ∧ e.result a b = b))) := by
  rcases merge?_cases h with ⟨rfl, rfl⟩ | ⟨-, ⟨hlarger, rfl⟩ |
    ⟨-, -, ⟨hreset, ⟨rfl, hhits⟩ | ⟨rfl, hhits, -⟩⟩ | hvalues⟩⟩
  · exact .inl ⟨rfl, rfl⟩
  · obtain ⟨hrole, hrole'⟩ := role_of_hasLargerTarget hlarger
    exact .inl ⟨hrole.trans hrole'.symm, rfl⟩
  · exact .inr ⟨hreset, .inl ⟨hhits, rfl⟩⟩
  · exact .inr ⟨hreset, .inr ⟨hhits, rfl⟩⟩
  · obtain ⟨hrole, -, s, t, -, -, ⟨hplain, hmerge⟩ | ⟨-, hmerge⟩⟩ := mergeByValues_cases hvalues
    · rcases mergeFilters_cases hmerge with ⟨rfl, -⟩ | ⟨rfl, -⟩ | ⟨rfl, -⟩ | ⟨c, rfl, hset⟩
      · exact .inl ⟨hrole, rfl⟩
      · exact .inl ⟨hrole, hrole.symm⟩
      · exact .inl ⟨hrole, hplain.symm⟩
      · exact .inl ⟨hrole, role_withSet? hset⟩
    · rcases mergeGuards_cases hmerge with ⟨rfl, -⟩ | ⟨rfl, -⟩ | ⟨c, rfl, hset⟩
      · exact .inl ⟨hrole, rfl⟩
      · exact .inl ⟨hrole, hrole.symm⟩
      · exact .inl ⟨hrole, role_withSet? hset⟩

theorem role_of_isResetOfFilter (h : a.isResetOfFilter b = true) :
    a.role = .resetIf ∧ b.role = .plain := by
  obtain ⟨hreset, hplain, -⟩ := isResetOfFilter_iff.mp h
  exact ⟨hreset, hplain⟩

/-- The last filter of a group gives way to a reset that negates it. -/
def GivesWay (before after : List Clause) : Prop :=
  ∃ reset filter rest, reset.isResetOfFilter filter = true ∧ anyTruthy rest = false ∧
    before.Perm (reset :: filter :: rest) ∧ after.Perm (reset :: rest)

/-- **One merge takes the last clause that must hold** exactly where it is a filter that gives way,
which happens where hits are counted. -/
theorem anyTruthy_mergeStep_eq_false_iff
    (h : mergeStep anyHits inCore before = some (after, event)) :
    anyTruthy after = false ↔
      anyTruthy before = false ∨ (anyHits = true ∧ GivesWay before after) := by
  obtain ⟨a, b, e, rest, hmerge, hperm, hperm'⟩ := mergeStep_eq_some h
  constructor
  · intro hnone
    rw [anyTruthy_perm hperm', anyTruthy_cons, Bool.or_eq_false_iff] at hnone
    obtain ⟨hresult, hrest⟩ := hnone
    rcases role_of_merge? hmerge with ⟨hroles, hrole⟩ | ⟨hreset, ⟨hhits, heq⟩ | ⟨-, heq⟩⟩
    · refine .inl ?_
      rw [hrole] at hresult
      rw [anyTruthy_perm hperm, anyTruthy_cons, anyTruthy_cons, ← hroles, hresult, hrest]
      rfl
    · exact .inr ⟨hhits, a, b, rest, hreset, hrest, hperm, heq ▸ hperm'⟩
    · rw [heq, isTruthy_of_role_eq (role_of_isResetOfFilter hreset).2] at hresult
      cases hresult
  · rintro (hnone | ⟨-, reset, filter, rest, hreset, hrest, -, hafter⟩)
    · rw [anyTruthy_perm hperm, anyTruthy_cons, anyTruthy_cons, Bool.or_eq_false_iff,
        Bool.or_eq_false_iff] at hnone
      obtain ⟨ha, hb, hrest⟩ := hnone
      rw [anyTruthy_perm hperm', anyTruthy_cons, hrest, Bool.or_false]
      rcases role_of_merge? hmerge with ⟨-, hrole⟩ | ⟨hreset, -⟩
      · rw [hrole]
        exact ha
      · rw [isTruthy_of_role_eq (role_of_isResetOfFilter hreset).2] at hb
        cases hb
    · rw [anyTruthy_perm hafter, anyTruthy_cons, (role_of_isResetOfFilter hreset).1, hrest]
      rfl

theorem GivesWay.length_eq (h : GivesWay before after) : before.length = after.length + 1 := by
  obtain ⟨reset, filter, rest, -, -, hbefore, hafter⟩ := h
  rw [hbefore.length_eq, hafter.length_eq, List.length_cons, List.length_cons, List.length_cons]

/-- The group after some of its merges. -/
def mergedBy (anyHits inCore : Bool) (n : Nat) (group : List Clause) : List Clause :=
  (Logged.exhaust (mergeStep anyHits inCore) n group).value

theorem anyTruthy_mergedBy_succ_eq_false_iff (n : Nat) :
    anyTruthy (mergedBy anyHits inCore (n + 1) group) = false ↔
      anyTruthy (mergedBy anyHits inCore n group) = false ∨ (anyHits = true ∧
        GivesWay (mergedBy anyHits inCore n group) (mergedBy anyHits inCore (n + 1) group)) := by
  have hnext := Logged.value_exhaust_succ (mergeStep anyHits inCore) n group
  change mergedBy anyHits inCore (n + 1) group = ((mergeStep anyHits inCore
    (mergedBy anyHits inCore n group)).map Prod.fst).getD (mergedBy anyHits inCore n group) at hnext
  cases hstep : mergeStep anyHits inCore (mergedBy anyHits inCore n group) with
  | none =>
    rw [hstep] at hnext
    have hstays : ¬ GivesWay (mergedBy anyHits inCore n group)
        (mergedBy anyHits inCore (n + 1) group) := fun hgives => by
      have hlength := hgives.length_eq
      rw [hnext] at hlength
      exact absurd hlength (Nat.ne_of_lt (Nat.lt_succ_self _))
    rw [or_iff_left fun hgives => hstays hgives.2, hnext]
    rfl
  | some next =>
    rw [hstep] at hnext
    rw [hnext]
    exact anyTruthy_mergeStep_eq_false_iff hstep

/-- What one merge does, made a fact about any number of merges. -/
theorem anyTruthy_mergedBy_eq_false_iff (m : Nat) :
    anyTruthy (mergedBy anyHits inCore m group) = false ↔
      anyTruthy group = false ∨ (anyHits = true ∧ ∃ n < m,
        GivesWay (mergedBy anyHits inCore n group) (mergedBy anyHits inCore (n + 1) group)) := by
  induction m with
  | zero => simp [mergedBy, Logged.exhaust]
  | succ m ih =>
    rw [anyTruthy_mergedBy_succ_eq_false_iff, ih, Nat.exists_lt_succ_right, or_assoc, and_or_left]

/-- Some merge of the group takes its last filter, as happens where hits are counted. -/
def LosesLastFilter (inCore : Bool) (group : List Clause) : Prop :=
  ∃ n < group.length, GivesWay (mergedBy true inCore n group) (mergedBy true inCore (n + 1) group)

theorem anyTruthy_mergeOverlaps_eq_false_iff :
    anyTruthy (mergeOverlaps anyHits inCore group).value = false ↔
      anyTruthy group = false ∨ (anyHits = true ∧ LosesLastFilter inCore group) := by
  refine (anyTruthy_mergedBy_eq_false_iff group.length).trans (or_congr_right ?_)
  constructor
  · rintro ⟨rfl, hloses⟩
    exact ⟨rfl, hloses⟩
  · rintro ⟨rfl, hloses⟩
    exact ⟨rfl, hloses⟩

end Merging
end Clause

namespace ClauseGroups
open Clause
variable {g : ClauseGroups}

/-- Hits are counted, and each group that had something that must hold loses its last filter. -/
structure FiltersGiveWay (g : ClauseGroups) : Prop where
  counts : g.anyHits = true
  loses : LosesLastFilter true g.core ∨ ∃ a ∈ g.alternates, LosesLastFilter false a
  core : Clause.anyTruthy g.core = false ∨ LosesLastFilter true g.core
  alternates : ∀ a ∈ g.alternates, Clause.anyTruthy a = false ∨ LosesLastFilter false a

/-- **Merging clauses loses what must hold** exactly where hits are counted and filters give way. -/
theorem anyTruthy_withoutOverlaps_eq_false_iff :
    g.withoutOverlaps.anyTruthy = false ↔ g.anyTruthy = false ∨ g.FiltersGiveWay := by
  have hgroups : g.withoutOverlaps.anyTruthy = false ↔
      (Clause.anyTruthy g.core = false ∨ (g.anyHits = true ∧ LosesLastFilter true g.core)) ∧
        ∀ a ∈ g.alternates,
          Clause.anyTruthy a = false ∨ (g.anyHits = true ∧ LosesLastFilter false a) := by
    rw [anyTruthy_eq_false_iff]
    exact and_congr anyTruthy_mergeOverlaps_eq_false_iff
      (List.forall_mem_map.trans (forall₂_congr fun _ _ => anyTruthy_mergeOverlaps_eq_false_iff))
  rw [hgroups]
  constructor
  · rintro ⟨hcore, halternates⟩
    rw [or_iff_not_imp_left, Bool.not_eq_false]
    intro htruthy
    have hloses : g.anyHits = true ∧
        (LosesLastFilter true g.core ∨ ∃ a ∈ g.alternates, LosesLastFilter false a) := by
      rcases anyTruthy_iff.mp htruthy with hmust | ⟨a, ha, hmust⟩
      · obtain ⟨hhits, hloses⟩ := hcore.resolve_left (by simp [hmust])
        exact ⟨hhits, .inl hloses⟩
      · obtain ⟨hhits, hloses⟩ := (halternates a ha).resolve_left (by simp [hmust])
        exact ⟨hhits, .inr ⟨a, ha, hloses⟩⟩
    exact ⟨hloses.1, hloses.2, hcore.imp_right And.right,
      fun a ha => (halternates a ha).imp_right And.right⟩
  · rintro (hnone | hgive)
    · obtain ⟨hcore, halternates⟩ := anyTruthy_eq_false_iff.mp hnone
      exact ⟨.inl hcore, fun a ha => .inl (halternates a ha)⟩
    · exact ⟨hgive.core.imp_right fun hloses => ⟨hgive.counts, hloses⟩,
        fun a ha => (hgive.alternates a ha).imp_right fun hloses => ⟨hgive.counts, hloses⟩⟩

end ClauseGroups

/-! ## Impossible alternates -/

namespace Clause

theorem anyTruthy_of_sameClauses {a b : List Clause} (ha : a.Nodup) (h : sameClauses a b = true) :
    anyTruthy a = anyTruthy b := by
  obtain ⟨hlength, hmem⟩ : a.length = b.length ∧ ∀ c ∈ a, c ∈ b := by simpa [sameClauses] using h
  have hperm := (List.subperm_of_subset ha hmem).perm_of_length_le (Nat.le_of_eq hlength.symm)
  exact hperm.any_eq

theorem anyTruthy_union? {a b merged : List Clause} (h : union? a b = some merged) :
    anyTruthy merged = true := by
  obtain ⟨c, hc⟩ := List.exists_mem_of_ne_nil _ (ClauseGroups.union?_ne_nil h)
  exact anyTruthy_of_mem hc (isTruthy_of_role_eq (role_of_mem_union? h c hc))

theorem anyTruthy_of_isImpossible {group : List Clause} (h : isImpossible group = true) :
    anyTruthy group = true := by
  obtain ⟨c, hc, hnever⟩ := List.any_eq_true.mp (isImpossible_iff.mp h).1
  have hrole : c.role = .plain := by
    have hboth : c.role = .plain ∧ c.constant? = some false := by simpa [neverHolds] using hnever
    exact hboth.1
  exact anyTruthy_of_mem hc (isTruthy_of_role_eq hrole)

end Clause

namespace ClauseGroups
open Clause Alternates
variable {g : ClauseGroups}

/-- The alternates once equal ones collapsed and unions were made. -/
def united (g : ClauseGroups) : List (List Clause) := (ofDistinct g.alternates).unite.value.kept

/-- All that must hold are impossible alternates beside possible ones, and none comes back. -/
structure HasOnlyImpossible (g : ClauseGroups) : Prop where
  core : Clause.anyTruthy g.core = false
  impossible : ∃ a ∈ g.united, isImpossible a = true
  possible : ∃ a ∈ g.united, isImpossible a = false
  guards : ∀ a ∈ g.united, isImpossible a = false → Clause.anyTruthy a = false
  /-- An impossible one comes back beside a lone one that a pause keeps out of the core. -/
  joins : ∀ lone, (g.united.filter fun a => !isImpossible a) = [lone] →
    pausesClash lone g.core = false

theorem anyTruthy_united (hnodup : ∀ a ∈ g.alternates, a.Nodup)
    (h : ∃ a ∈ g.alternates, Clause.anyTruthy a = true) :
    ∃ a ∈ g.united, Clause.anyTruthy a = true := by
  have hdistinct : (ofDistinct g.alternates).kept.any Clause.anyTruthy = true := by
    show (splitRepeated [] g.alternates).1.any Clause.anyTruthy = true
    rw [any_splitRepeated (fun a b ha hsame => anyTruthy_of_sameClauses ha hsame)
      (List.forall_mem_nil _) hnodup]
    simpa using h
  refine List.any_eq_true.mp (Logged.exhaust_keeps
    (P := fun a : Alternates => a.kept.any Clause.anyTruthy = true) ?_ _ _ hdistinct)
  intro a b event hstep _
  obtain ⟨x, y, merged, rest, hunion, -, hperm, -⟩ := uniteStep_eq_some hstep
  exact List.any_eq_true.mpr ⟨merged, hperm.mem_iff.mpr List.mem_cons_self,
    anyTruthy_union? hunion⟩

/-- Only filters have unions. -/
theorem anyTruthy_of_union? {x y merged : List Clause} (h : union? x y = some merged) :
    Clause.anyTruthy x = true := by
  obtain ⟨hplain, c, -, position, -, -, hget, -⟩ := union?_cases h
  have hc := List.mem_of_getElem? hget
  exact anyTruthy_of_mem hc
    (isTruthy_of_role_eq (role_of_isPlain (hplain c (List.mem_append_left _ hc))))

theorem anyTruthy_collapseAlternates_eq_false (h : g.anyTruthy = false) :
    g.collapseAlternates.value.anyTruthy = false := by
  obtain ⟨hcore, halternates⟩ := anyTruthy_eq_false_iff.mp h
  obtain ⟨halternates', hcore'⟩ := forall_collapseAlternates
    (Q := fun a => Clause.anyTruthy a = false)
    (fun hunion hx => absurd (anyTruthy_of_union? hunion) (by simp [hx])) halternates
  refine anyTruthy_eq_false_iff.mpr ⟨?_, halternates'⟩
  rcases hcore' with heq | ⟨lone, hlone, heq⟩
  · rw [heq]
    exact hcore
  · rw [heq]
    show (g.core ++ lone).any _ = false
    rw [List.any_append]
    exact Bool.or_eq_false_iff.mpr ⟨hcore, hlone⟩

theorem anyTruthy_settle {core : List Clause} {a : Alternates} :
    (a.settle core).anyTruthy = true ↔ Clause.anyTruthy core = true ∨
      (∃ group ∈ a.kept, Clause.anyTruthy group = true) ∨
      ∃ lone d, a.kept = [lone] ∧ pausesClash lone core = true ∧ a.dropped = some d ∧
        Clause.anyTruthy d = true := by
  obtain ⟨kept, dropped⟩ := a
  unfold Alternates.settle
  split
  · rename_i lone hkept
    obtain rfl : kept = [lone] := hkept
    split
    · rename_i hclash
      cases dropped <;> simp [anyTruthy_iff, hclash]
    · rename_i hclash
      simp [anyTruthy_iff, Clause.anyTruthy, hclash]
  · rename_i hkept
    have hmany (lone : List Clause) : kept ≠ [lone] := hkept lone
    simp [anyTruthy_iff, hmany]

/-- An alternate that always holds must hold, and stays. -/
theorem anyTruthy_settle_keepBesideTrue {core : List Clause} {a : Alternates} :
    (a.keepBesideTrue.settle core).anyTruthy = (a.settle core).anyTruthy := by
  unfold keepBesideTrue
  split
  · rename_i htrue
    have htrue : alwaysTrueGroup ∈ a.kept := by simpa using htrue
    rw [anyTruthy_settle.mpr (.inr (.inl ⟨_, htrue, rfl⟩)), anyTruthy_settle.mpr
      (.inr (.inl ⟨_, alwaysTrueGroup_mem_splitBesideTrue htrue, rfl⟩))]
  · rfl

theorem dropImpossible_of_possible {a : Alternates} (h : ∃ b ∈ a.kept, isImpossible b = false) :
    a.dropImpossible = a.drop (a.kept.filter fun b => !isImpossible b)
      (a.kept.filter isImpossible) := by
  have hne : (a.kept.filter fun b => !isImpossible b).isEmpty = false := by simpa using h
  simp only [dropImpossible, hne, Bool.false_eq_true, if_false]

/-- Of alternates that are all impossible the first stays. -/
theorem anyTruthy_settle_dropImpossible {core : List Clause} {a : Alternates}
    (h : ∀ group ∈ a.kept, isImpossible group = true) (hne : a.kept ≠ []) :
    (a.dropImpossible.settle core).anyTruthy = true := by
  obtain ⟨first, rest, hkept⟩ := List.exists_cons_of_ne_nil hne
  have hfirst := h first (hkept ▸ List.mem_cons_self)
  have hnone : (a.kept.filter fun group => !isImpossible group) = [] :=
    List.filter_eq_nil_iff.mpr fun group hgroup => by simp [h group hgroup]
  have hdrop : a.dropImpossible.kept = [first] := by
    simp only [dropImpossible, hnone, List.isEmpty_nil, if_true]
    rw [hkept, List.filter_cons_of_pos hfirst]
    rfl
  exact anyTruthy_settle.mpr (.inr (.inl ⟨first, hdrop ▸ List.mem_singleton_self first,
    anyTruthy_of_isImpossible hfirst⟩))

/-- Among possible alternates of guards, only an impossible one that comes back must hold. -/
theorem anyTruthy_settle_dropImpossible_iff {core : List Clause} {a : Alternates}
    (hcore : Clause.anyTruthy core = false) (hpossible : ∃ b ∈ a.kept, isImpossible b = false)
    (himpossible : ∃ b ∈ a.kept, isImpossible b = true) :
    (a.dropImpossible.settle core).anyTruthy = true ↔
      (∃ b ∈ a.kept, isImpossible b = false ∧ Clause.anyTruthy b = true) ∨
      ∃ lone, (a.kept.filter fun b => !isImpossible b) = [lone] ∧ pausesClash lone core = true := by
  obtain ⟨d, hd⟩ : ∃ d, (a.kept.filter isImpossible).getLast? = some d := by
    obtain ⟨b, hb, htrue⟩ := himpossible
    exact Option.isSome_iff_exists.mp (by simpa using ⟨b, hb, htrue⟩)
  have htruthy : Clause.anyTruthy d = true :=
    anyTruthy_of_isImpossible (List.mem_filter.mp (List.mem_of_getLast? hd)).2
  rw [dropImpossible_of_possible hpossible, anyTruthy_settle, or_iff_right (by simp [hcore])]
  refine or_congr (by simp [Alternates.drop, and_assoc]) ?_
  constructor
  · rintro ⟨lone, -, hkept, hclash, -⟩
    exact ⟨lone, hkept, hclash⟩
  · rintro ⟨lone, hkept, hclash⟩
    exact ⟨lone, d, hkept, hclash, by simp [Alternates.drop, hd], htruthy⟩

/-- The alternates that are left once impossible ones are dropped, where the core holds nothing that
must hold and they did. -/
theorem anyTruthy_settle_united (hcore : Clause.anyTruthy g.core = false)
    (h : ∃ b ∈ g.united, Clause.anyTruthy b = true) :
    ((ofDistinct g.alternates).unite.value.dropImpossible.settle g.core).anyTruthy = false ↔
      g.HasOnlyImpossible := by
  obtain ⟨b, hb, htruthy⟩ := h
  by_cases hpossible : ∃ b ∈ g.united, isImpossible b = false
  · by_cases himpossible : ∃ b ∈ g.united, isImpossible b = true
    · rw [← Bool.not_eq_true, anyTruthy_settle_dropImpossible_iff hcore hpossible himpossible,
        not_or]
      constructor
      · rintro ⟨hguards, hjoins⟩
        refine ⟨hcore, himpossible, hpossible, fun a ha hfalse => ?_, fun lone hlone => ?_⟩
        · exact Bool.eq_false_of_not_eq_true fun htrue => hguards ⟨a, ha, hfalse, htrue⟩
        · exact Bool.eq_false_of_not_eq_true fun hclash => hjoins ⟨lone, hlone, hclash⟩
      · intro honly
        constructor
        · rintro ⟨a, ha, hfalse, htrue⟩
          simp [honly.guards a ha hfalse] at htrue
        · rintro ⟨lone, hlone, hclash⟩
          simp [honly.joins lone hlone] at hclash
    · have hb' : isImpossible b = false := Bool.eq_false_of_not_eq_true fun htrue =>
        himpossible ⟨b, hb, htrue⟩
      refine iff_of_false ?_ fun honly => himpossible honly.impossible
      rw [dropImpossible_of_possible hpossible, anyTruthy_settle.mpr (.inr (.inl
        ⟨b, List.mem_filter.mpr ⟨hb, by simp [hb']⟩, htruthy⟩))]
      simp
  · refine iff_of_false ?_ fun honly => hpossible honly.possible
    rw [anyTruthy_settle_dropImpossible ?_ (List.ne_nil_of_mem hb)]
    · simp
    · intro group hgroup
      exact Bool.eq_true_of_not_eq_false fun hfalse => hpossible ⟨group, hgroup, hfalse⟩

theorem anyTruthy_collapseAlternates (h : g.alternates ≠ []) :
    g.collapseAlternates.value.anyTruthy =
      ((ofDistinct g.alternates).unite.value.dropImpossible.settle g.core).anyTruthy := by
  rw [← anyTruthy_settle_keepBesideTrue]
  simp only [collapseAlternates, List.isEmpty_iff, h, if_false]
  rfl

/-- What must hold in the core stays there. -/
theorem anyTruthy_collapseAlternates_of_core (h : Clause.anyTruthy g.core = true) :
    g.collapseAlternates.value.anyTruthy = true := by
  by_cases hnil : g.alternates = []
  · have hsame : g.collapseAlternates.value = g := by simp [collapseAlternates, hnil]
    rw [hsame]
    exact anyTruthy_iff.mpr (.inl h)
  · rw [anyTruthy_collapseAlternates hnil]
    exact anyTruthy_settle.mpr (.inl h)

/-- **Collapsing alternates loses what must hold** exactly where it was in impossible ones alone. -/
theorem anyTruthy_collapseAlternates_eq_false_iff (hnodup : ∀ a ∈ g.alternates, a.Nodup) :
    g.collapseAlternates.value.anyTruthy = false ↔
      g.anyTruthy = false ∨ g.HasOnlyImpossible := by
  by_cases h : g.anyTruthy = false
  · exact iff_of_true (anyTruthy_collapseAlternates_eq_false h) (.inl h)
  rw [or_iff_right h]
  by_cases hcore : Clause.anyTruthy g.core = true
  · refine iff_of_false ?_ fun honly => absurd hcore (by simp [honly.core])
    rw [anyTruthy_collapseAlternates_of_core hcore]
    simp
  · obtain ⟨a, ha, hmust⟩ :=
      (anyTruthy_iff.mp (Bool.eq_true_of_not_eq_false h)).resolve_left hcore
    rw [anyTruthy_collapseAlternates (List.ne_nil_of_mem ha)]
    exact anyTruthy_settle_united (Bool.eq_false_of_not_eq_true hcore)
      (anyTruthy_united hnodup ⟨a, ha, hmust⟩)

end ClauseGroups

/-! ## Rounds -/

namespace Trigger
open Clause ClauseGroups
variable {t : Trigger}

/-- A round takes the last of what must hold. -/
def LosesTruth (t : Trigger) : Prop :=
  t.shared.HasOnlyTrueCore ∨ t.distinct.FiltersGiveWay ∨
    t.distinct.withoutOverlaps.HasOnlyImpossible

/-- In a round no guard turns into a filter, and no alternate is left without clauses. -/
def KeepsGuards (t : Trigger) : Prop :=
  t.settledGroups.filterGuards = t.settledGroups ∧
    ∀ a ∈ t.shared.alternates, a ≠ [] ∧ a ≠ alwaysTrueGroup

theorem anyTruthy_settledGroups (h : (ofTrigger t).All IsTerminated) :
    t.settledGroups.anyTruthy = t.hasTruthy := by
  obtain ⟨hcore, halternates⟩ := all_iff.mp h
  have hgroup {rows : List Row} (hrows : rows ∈ t.alternates) :
      Clause.anyTruthy (settledClauses rows) = Clause.anyTruthy (split rows) :=
    anyTruthy_settledClauses (halternates _ (List.mem_map_of_mem hrows))
  rw [hasTruthy_eq, ClauseGroups.anyTruthy, ClauseGroups.anyTruthy, ClauseGroups.groups,
    ClauseGroups.groups, List.any_cons, List.any_cons, settledGroups, ofTrigger,
    anyTruthy_settledClauses hcore, List.any_map, List.any_map]
  exact congrArg (_ || ·) (any_congr_of_mem fun _ hrows => hgroup hrows)

/-- The last two passes keep what must hold, since no alternate is empty by then. -/
theorem hasTruthy_round (h : (ofTrigger t).All IsTerminated) :
    t.round.hasTruthy = t.distinct.withoutOverlaps.collapseAlternates.value.anyTruthy := by
  have hcollapsed := all_collapsed kept_isTerminated h h
  have hmerged : ∀ a ∈ t.distinct.withoutOverlaps.alternates, a ≠ [] := by
    refine List.forall_mem_map.mpr fun a ha => mergeOverlaps_ne_nil ?_
    obtain ⟨b, -, rfl⟩ := List.mem_map.mp ha
    exact fillEmpty_ne_nil _
  have hne := (forall_collapseAlternates (Q := (· ≠ []))
    (fun hunion _ => union?_ne_nil hunion) hmerged).1
  rw [hasTruthy_eq, ofTrigger_round h, anyTruthy_withWholes,
    anyTruthy_withoutImplied hcollapsed hne]

/-- Nothing must hold once repeated clauses are dropped: a core of `1=1` went, or there was nothing
before and the guards stayed. -/
theorem anyTruthy_distinct_eq_false_iff (h : (ofTrigger t).All IsTerminated) :
    t.distinct.anyTruthy = false ↔
      t.shared.HasOnlyTrueCore ∨ (t.hasTruthy = false ∧ t.KeepsGuards) := by
  have hsettled := anyTruthy_settledGroups h
  cases hguards : t.settledGroups.filterGuards.anyTruthy with
  | true =>
    refine (anyTruthy_dropTrueCore_eq_false_iff (anyTruthy_promoteShared hguards)).trans ?_
    refine (or_iff_left fun hkeeps => ?_).symm
    rw [hkeeps.2.1, hsettled, hkeeps.1] at hguards
    cases hguards
  | false =>
    have hnone : t.settledGroups.anyTruthy = false := by
      refine Bool.eq_false_of_not_eq_true fun htrue => ?_
      rw [anyTruthy_filterGuards htrue] at hguards
      cases hguards
    have hstay := (anyTruthy_filterGuards_eq_false_iff hnone).mp hguards
    have hcore : ¬ t.shared.HasOnlyTrueCore := fun honly => by
      have hfalse := (anyTruthy_of_mem_promoteShared hguards).1
      rw [show t.settledGroups.filterGuards.promoteShared.value.core = _ from honly.1] at hfalse
      cases hfalse
    rw [or_iff_right hcore, ← hsettled]
    refine (anyTruthy_promoteShared_eq_false_iff hguards).trans ?_
    exact ⟨fun hall => ⟨hnone, hstay, hall⟩, fun hkeeps => hkeeps.2.2⟩

/-- **When a round leaves nothing that must hold.** -/
theorem hasTruthy_round_eq_false_iff (h : (ofTrigger t).All IsTerminated) :
    t.round.hasTruthy = false ↔ t.LosesTruth ∨ (t.hasTruthy = false ∧ t.KeepsGuards) := by
  have hnodup : ∀ a ∈ t.distinct.withoutOverlaps.alternates, a.Nodup :=
    List.forall_mem_map.mpr fun group _ => nodup_mergeOverlaps group
  rw [hasTruthy_round h, anyTruthy_collapseAlternates_eq_false_iff hnodup,
    anyTruthy_withoutOverlaps_eq_false_iff, anyTruthy_distinct_eq_false_iff h]
  constructor
  · rintro (((hcore | hkeeps) | hfilters) | himpossible)
    · exact .inl (.inl hcore)
    · exact .inr hkeeps
    · exact .inl (.inr (.inl hfilters))
    · exact .inl (.inr (.inr himpossible))
  · rintro ((hcore | hfilters | himpossible) | hkeeps)
    · exact .inl (.inl (.inl hcore))
    · exact .inl (.inr hfilters)
    · exact .inr himpossible
    · exact .inl (.inl (.inr hkeeps))

/-- **When a simplified trigger has nothing that must hold**, though it had before: some round takes
the last of it, and in all later rounds the guards stay what they are. -/
theorem hasTruthy_simplify_eq_false_iff (h : (ofTrigger t).All IsTerminated)
    (htruthy : t.hasTruthy = true) :
    t.simplify.hasTruthy = false ↔
      ∃ n < Pass.maxRounds, (round^[n] t).LosesTruth ∧
        ∀ k, n < k → k < Pass.maxRounds → (round^[k] t).KeepsGuards := by
  have hall (n : Nat) : (ofTrigger (round^[n] t)).All IsTerminated := by
    induction n with
    | zero => exact h
    | succ n ih =>
      rw [Function.iterate_succ_apply']
      exact all_round kept_isTerminated ih ih
  rw [simplify_eq_iterate]
  refine holds_iff_exists_cause (P := fun n => (round^[n] t).hasTruthy = false) (by simp [htruthy])
    (fun n => ?_) Pass.maxRounds
  rw [Function.iterate_succ_apply', hasTruthy_round_eq_false_iff (hall n)]

end Trigger
end MemoryTrigger

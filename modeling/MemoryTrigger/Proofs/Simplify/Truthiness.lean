import MemoryTrigger.Proofs.Simplify.LoneAlternate
import MemoryTrigger.Proofs.Simplify.Representable
import MemoryTrigger.Proofs.Simplify.Resets

/-! # Clauses that must hold

A trigger without a truthy row has nothing that must hold, and is refused before it is simplified.
Most passes keep something that must hold if there is anything: settled comparisons keep their
roles, only guards turn into filters, and an alternate that is dropped beside one that it implies
leaves that one behind.

The converse fails in two places.  A guard may turn into a filter, and an alternate that has nothing
of its own left is filled with `1=1`; where neither happens, nothing new must hold
(`anyTruthy_filterGuards_eq_false_iff`, `anyTruthy_promoteShared_eq_false_iff`). -/
namespace MemoryTrigger

/-! ## Truthy groups -/

/-- Whether some clause of a group must hold. -/
def Clause.anyTruthy (group : List Clause) : Bool := group.any (·.role.isTruthy)

/-- Whether some row must hold. -/
def Trigger.hasTruthy (t : Trigger) : Bool := t.rows.any (·.role.isTruthy)

namespace Clause

theorem anyTruthy_iff {group : List Clause} :
    anyTruthy group = true ↔ ∃ c ∈ group, c.role.isTruthy = true :=
  List.any_eq_true

theorem anyTruthy_eq_false_iff {group : List Clause} :
    anyTruthy group = false ↔ ∀ c ∈ group, c.role.isTruthy = false := by
  simp [anyTruthy]

theorem anyTruthy_of_mem {group : List Clause} {c : Clause} (hc : c ∈ group)
    (h : c.role.isTruthy = true) : anyTruthy group = true :=
  anyTruthy_iff.mpr ⟨c, hc, h⟩

theorem anyTruthy_of_subset {group group' : List Clause} (hsub : group ⊆ group')
    (h : anyTruthy group = true) : anyTruthy group' = true := by
  obtain ⟨c, hc, htruthy⟩ := anyTruthy_iff.mp h
  exact anyTruthy_of_mem (hsub hc) htruthy

theorem anyTruthy_cons (c : Clause) (rest : List Clause) :
    anyTruthy (c :: rest) = (c.role.isTruthy || anyTruthy rest) := rfl

theorem anyTruthy_perm {group group' : List Clause} (h : group.Perm group') :
    anyTruthy group = anyTruthy group' := h.any_eq

theorem isTruthy_of_role_eq {c : Clause} (h : c.role = .plain) : c.role.isTruthy = true := by
  rw [h]
  rfl

/-- Rows that wait for another need not hold themselves. -/
theorem isTruthy_of_isCombining {role : Role} (h : role.isCombining = true) :
    role.isTruthy = false := by
  cases role <;> first | rfl | cases h

theorem any_isTruthy_split (rows : List Row) :
    rows.any (·.role.isTruthy) = anyTruthy (split rows) := by
  rw [Bool.eq_iff_iff, List.any_eq_true, anyTruthy_iff]
  constructor
  · rintro ⟨r, hr, htruthy⟩
    rw [← join_split rows] at hr
    obtain ⟨c, hc, hr⟩ := List.mem_flatMap.mp hr
    rcases List.mem_append.mp hr with hlead | hterminal
    · rw [isTruthy_of_isCombining (combining_of_mem_split hc r hlead)] at htruthy
      cases htruthy
    · rw [List.mem_singleton.mp hterminal] at htruthy
      exact ⟨c, hc, htruthy⟩
  · rintro ⟨c, hc, htruthy⟩
    exact ⟨c.terminal, mem_of_mem_split hc (by simp [Clause.rows]), htruthy⟩

end Clause

namespace ClauseGroups
open Clause
variable {g : ClauseGroups}

/-- Whether some clause must hold. -/
def anyTruthy (g : ClauseGroups) : Bool := g.groups.any Clause.anyTruthy

theorem anyTruthy_iff : g.anyTruthy = true ↔
    Clause.anyTruthy g.core = true ∨ ∃ a ∈ g.alternates, Clause.anyTruthy a = true := by
  simp [anyTruthy, groups]

theorem anyTruthy_eq_false_iff : g.anyTruthy = false ↔
    Clause.anyTruthy g.core = false ∧ ∀ a ∈ g.alternates, Clause.anyTruthy a = false := by
  simp [anyTruthy, groups]

theorem hasTruthy_eq (t : Trigger) : t.hasTruthy = (ofTrigger t).anyTruthy := by
  simp only [Trigger.hasTruthy, Trigger.rows, Trigger.groups, anyTruthy, groups, ofTrigger,
    List.any_flatten, List.any_cons, List.any_map, any_isTruthy_split, Function.comp_def]

theorem all_isTruthy_eq_false_iff :
    g.All (fun c => c.role.isTruthy = false) ↔ g.anyTruthy = false := by
  simp only [all_iff, anyTruthy_eq_false_iff, Clause.anyTruthy_eq_false_iff]

end ClauseGroups

/-! ## Settled comparisons -/

namespace Clause

/-- The first filler stays where nothing else has to hold. -/
theorem exists_isFiller_mem_dropFillers {group : List Clause} {c : Clause} (hc : c ∈ group)
    (h : c.isFiller = true) : ∃ d ∈ dropFillers false group, d.isFiller = true := by
  induction group with
  | nil => cases hc
  | cons first rest ih =>
    unfold dropFillers
    by_cases hfirst : first.isFiller = true
    · rw [if_pos hfirst]
      exact ⟨first, List.mem_cons_self, hfirst⟩
    · rw [if_neg hfirst]
      have hne : c ≠ first := fun heq => hfirst (heq ▸ h)
      obtain ⟨d, hd, hfiller⟩ := ih ((List.mem_cons.mp hc).resolve_left hne)
      exact ⟨d, List.mem_cons_of_mem _ hd, hfiller⟩

/-- A clause that must hold stays, or leaves another behind: `0=1` where it never holds, the first
filler where it is one. -/
theorem anyTruthy_foldConstants (group : List Clause) :
    anyTruthy (foldConstants group) = anyTruthy group := by
  rw [Bool.eq_iff_iff]
  constructor
  · intro h
    obtain ⟨c, hc, htruthy⟩ := anyTruthy_iff.mp h
    unfold foldConstants at hc
    simp only at hc
    split at hc
    · rename_i hnever
      obtain ⟨d, hd, hnever⟩ := List.any_eq_true.mp hnever
      obtain ⟨hrole, -⟩ : d.role = .plain ∧ d.constant? = some false := by
        simpa [neverHolds] using hnever
      exact anyTruthy_of_mem (List.mem_filter.mp hd).1 (isTruthy_of_role_eq hrole)
    · exact anyTruthy_of_mem (List.mem_filter.mp (mem_dropFillers.1 hc)).1 htruthy
  · intro h
    obtain ⟨c, hc, htruthy⟩ := anyTruthy_iff.mp h
    have hguard : c.isGuard = false := by
      rw [isGuard]
      cases hrole : c.role <;> simp_all [Role.isGuard, Role.isTruthy]
    have hkept : c ∈ group.filter fun c => !c.neverFires := by simp [hc, neverFires, hguard]
    unfold foldConstants
    simp only
    generalize group.filter (fun c => !c.neverFires) = kept at hkept
    split
    · exact anyTruthy_of_mem (List.mem_append_right _ (List.mem_singleton_self _)) rfl
    cases hsettled : kept.any fun c => c.role.isTruthy && !c.isFiller with
    | true =>
      obtain ⟨d, hd, hmust⟩ := List.any_eq_true.mp hsettled
      obtain ⟨hmust, hfiller⟩ : d.role.isTruthy = true ∧ d.isFiller = false := by simpa using hmust
      exact anyTruthy_of_mem (mem_dropFillers.2 hd hfiller) hmust
    | false =>
      have hfiller : c.isFiller = true := by
        have hnone := List.any_eq_false.mp hsettled c hkept
        simpa [htruthy] using hnone
      obtain ⟨d, hd, hfiller⟩ := exists_isFiller_mem_dropFillers hkept hfiller
      exact anyTruthy_of_mem hd (isTruthy_of_role_eq
        (role_of_isPlain (Bool.and_eq_true_iff.mp hfiller).1))

/-- The first pass settles the clauses of a group and keeps their roles. -/
theorem anyTruthy_settledClauses {rows : List Row} (h : ∀ c ∈ split rows, c.IsTerminated) :
    anyTruthy (ClauseGroups.settledClauses rows) = anyTruthy (split rows) := by
  have hrole (c : Clause) : c.settled.unlinked.role = c.role :=
    role_settledFrom false c.lead c.terminal
  rw [ClauseGroups.settledClauses_of_isTerminated h, anyTruthy_foldConstants, anyTruthy, anyTruthy,
    List.any_map]
  simp only [Function.comp_def, hrole]

/-! ## Guards -/

theorem anyTruthy_invertRole {role : Role} (hrole : role.isGuard = true) {group : List Clause}
    (h : anyTruthy group = true) : anyTruthy (invertRole role group) = true := by
  obtain ⟨c, hc, htruthy⟩ := anyTruthy_iff.mp h
  refine anyTruthy_of_mem (List.mem_flatMap.mpr ⟨c, hc, ?_⟩) htruthy
  rw [filtersFor?_of_isTruthy htruthy hrole]
  exact List.mem_singleton_self c

theorem exists_plain_of_filtersFor? {c : Clause} {role : Role} {filters : List Clause}
    (h : c.filtersFor? role = some filters) : ∃ d ∈ filters, d.role = .plain := by
  unfold filtersFor? at h
  split at h
  · obtain ⟨-, -, ⟨-, rfl⟩ | ⟨-, -, rfl⟩⟩ := inverted?_cases h
    · exact ⟨_, List.mem_singleton_self _, rfl⟩
    · exact ⟨_, List.mem_map_of_mem (List.mem_append_right _ (List.mem_singleton_self _)), rfl⟩
  · cases h

/-- Where no filter comes of the guards of a group, none of them turns into any. -/
theorem filtersFor?_eq_none {role : Role} {group : List Clause} {kept : Clause → List Clause}
    (h : anyTruthy (group.flatMap fun c => (c.filtersFor? role).getD (kept c)) = false) :
    ∀ c ∈ group, c.filtersFor? role = none := by
  intro c hc
  rw [Option.eq_none_iff_forall_ne_some]
  intro filters hfilters
  obtain ⟨d, hd, hplain⟩ := exists_plain_of_filtersFor? hfilters
  have hfalse := anyTruthy_eq_false_iff.mp h d
    (List.mem_flatMap.mpr ⟨c, hc, by simpa [hfilters] using hd⟩)
  rw [isTruthy_of_role_eq hplain] at hfalse
  cases hfalse

theorem invertRole_of_anyTruthy {role : Role} {group : List Clause}
    (h : anyTruthy (invertRole role group) = false) : invertRole role group = group := by
  have hnone := filtersFor?_eq_none h
  rw [invertRole, List.flatMap_congr fun c hc => by rw [hnone c hc, Option.getD_none],
    List.flatMap_singleton']

theorem resetFilters_of_anyTruthy {group : List Clause}
    (h : anyTruthy (resetFilters group) = false) : resetFilters group = [] := by
  have hnone := filtersFor?_eq_none h
  exact List.flatMap_eq_nil_iff.mpr fun c hc => by rw [hnone c hc, Option.getD_none]

theorem withoutResetFilters_of_anyTruthy {group : List Clause}
    (hfilters : anyTruthy (resetFilters group) = false)
    (h : anyTruthy (withoutResetFilters group) = false) : withoutResetFilters group = group := by
  have hnone := filtersFor?_eq_none hfilters
  have hkept : (group.filter fun c => (c.filtersFor? .resetIf).isNone) = group :=
    List.filter_eq_self.mpr fun c hc => by rw [hnone c hc, Option.isNone_none]
  unfold withoutResetFilters at h ⊢
  rw [hkept] at h ⊢
  refine if_neg fun hempty => ?_
  rw [if_pos hempty] at h
  cases h

theorem anyTruthy_withoutResetFilters {group : List Clause} (h : anyTruthy group = true) :
    anyTruthy (withoutResetFilters group) = true := by
  obtain ⟨c, hc, htruthy⟩ := anyTruthy_iff.mp h
  have hnone : c.filtersFor? .resetIf = none := filtersFor?_of_isTruthy htruthy rfl
  have hkept : c ∈ group.filter fun c => (c.filtersFor? .resetIf).isNone := by simp [hc, hnone]
  unfold withoutResetFilters
  simp only
  split
  · rfl
  · exact anyTruthy_of_mem hkept htruthy

end Clause

namespace ClauseGroups
open Clause
variable {g : ClauseGroups}

theorem anyTruthy_filterPauses {group : List Clause} (h : Clause.anyTruthy group = true) :
    Clause.anyTruthy (filterPauses group) = true := by
  unfold filterPauses
  split
  · exact h
  · exact anyTruthy_invertRole rfl h

theorem anyTruthy_filterResets (h : g.anyTruthy = true) : g.filterResets.anyTruthy = true := by
  rcases anyTruthy_iff.mp h with hcore | ⟨a, ha, htruthy⟩
  · exact anyTruthy_iff.mpr (.inl (anyTruthy_of_subset (List.subset_append_left _ _)
      (anyTruthy_invertRole rfl hcore)))
  · refine anyTruthy_iff.mpr (.inr ⟨_, List.mem_map_of_mem ha, ?_⟩)
    split
    · exact htruthy
    · exact anyTruthy_withoutResetFilters htruthy

theorem anyTruthy_filterGuards (h : g.anyTruthy = true) : g.filterGuards.anyTruthy = true := by
  unfold filterGuards
  extract_lets filtered
  have hfiltered : filtered.anyTruthy = true := by
    show (if g.anyHits = true then g else g.filterResets).anyTruthy = true
    split
    · exact h
    · exact anyTruthy_filterResets h
  rcases anyTruthy_iff.mp hfiltered with hcore | ⟨a, ha, htruthy⟩
  · exact anyTruthy_iff.mpr (.inl (anyTruthy_filterPauses hcore))
  · exact anyTruthy_iff.mpr (.inr ⟨_, List.mem_map_of_mem ha, anyTruthy_filterPauses htruthy⟩)

theorem filterPauses_of_anyTruthy {group : List Clause}
    (h : Clause.anyTruthy (filterPauses group) = false) : filterPauses group = group := by
  unfold filterPauses at h ⊢
  split at h
  · rename_i hsensitive
    rw [if_pos hsensitive]
  · rename_i hsensitive
    rw [if_neg hsensitive, invertRole_of_anyTruthy h]

theorem filterResets_of_anyTruthy (h : g.filterResets.anyTruthy = false) : g.filterResets = g := by
  obtain ⟨hcore, halternates⟩ := anyTruthy_eq_false_iff.mp h
  obtain ⟨hcore, hmoved⟩ : Clause.anyTruthy (invertRole .resetIf g.core) = false ∧
      Clause.anyTruthy ((g.alternates.filter fun a => !anyRole a .pauseIf).flatMap resetFilters) =
        false := by
    rw [← Bool.or_eq_false_iff, Clause.anyTruthy, Clause.anyTruthy, ← List.any_append]
    exact hcore
  have hfilters {a : List Clause} (ha : a ∈ g.alternates) (hpause : ¬ anyRole a .pauseIf = true) :
      Clause.anyTruthy (resetFilters a) = false := by
    rw [Clause.anyTruthy_eq_false_iff] at hmoved ⊢
    intro c hc
    apply hmoved c
    exact List.mem_flatMap.mpr ⟨a, List.mem_filter.mpr ⟨ha, by simpa using hpause⟩, hc⟩
  have hnone : (g.alternates.filter fun a => !anyRole a .pauseIf).flatMap resetFilters = [] := by
    refine List.flatMap_eq_nil_iff.mpr fun a ha => ?_
    obtain ⟨ha, hpause⟩ := List.mem_filter.mp ha
    exact resetFilters_of_anyTruthy (hfilters ha (by simpa using hpause))
  have hsame : (g.alternates.map fun a => if anyRole a .pauseIf then a else withoutResetFilters a) =
      g.alternates := by
    refine (List.map_congr_left fun a ha => ?_).trans (List.map_id _)
    split
    · rfl
    · rename_i hpause
      have hkept := halternates _ (List.mem_map_of_mem ha)
      rw [if_neg hpause] at hkept
      exact withoutResetFilters_of_anyTruthy (hfilters ha hpause) hkept
  show (⟨_, _⟩ : ClauseGroups) = g
  rw [hnone, hsame, invertRole_of_anyTruthy hcore, List.append_nil]

/-- Where nothing must hold, that changes exactly when a guard turns into a filter. -/
theorem anyTruthy_filterGuards_eq_false_iff (h : g.anyTruthy = false) :
    g.filterGuards.anyTruthy = false ↔ g.filterGuards = g := by
  refine ⟨fun hnone => ?_, fun heq => heq.symm ▸ h⟩
  have hpauses : g.filterGuards = if g.anyHits then g else g.filterResets := by
    obtain ⟨hcore, halternates⟩ := anyTruthy_eq_false_iff.mp hnone
    unfold filterGuards at hcore halternates ⊢
    generalize (if g.anyHits then g else g.filterResets) = filtered at hcore halternates ⊢
    have hsame : filtered.alternates.map filterPauses = filtered.alternates :=
      (List.map_congr_left fun a ha => filterPauses_of_anyTruthy
        (halternates _ (List.mem_map_of_mem ha))).trans (List.map_id _)
    show (⟨_, _⟩ : ClauseGroups) = filtered
    rw [hsame, filterPauses_of_anyTruthy hcore]
  rw [hpauses] at hnone ⊢
  split at hnone
  · rename_i hhits
    rw [if_pos hhits]
  · rename_i hhits
    rw [if_neg hhits, filterResets_of_anyTruthy hnone]

end ClauseGroups

/-! ## Shared and repeated clauses -/

namespace Clause

theorem anyTruthy_fillEmpty {group : List Clause} :
    anyTruthy (ClauseGroups.fillEmpty group) = true ↔ group = [] ∨ anyTruthy group = true := by
  unfold ClauseGroups.fillEmpty
  split
  · rename_i hempty
    exact iff_of_true rfl (.inl (List.isEmpty_iff.mp hempty))
  · rename_i hempty
    rw [or_iff_right (fun hnil => hempty (List.isEmpty_iff.mpr hnil))]

end Clause

namespace ClauseGroups
open Clause
variable {g : ClauseGroups}

theorem anyTruthy_promote (pausing : Bool) (c : Clause) (h : g.anyTruthy = true) :
    (promote pausing g c).value.anyTruthy = true := by
  unfold promote
  split
  · rcases anyTruthy_iff.mp h with hcore | ⟨a, ha, htruthy⟩
    · refine anyTruthy_iff.mpr (.inl (anyTruthy_of_subset (fun d hd => ?_) hcore))
      exact mem_addOnce.mpr (.inl hd)
    · obtain ⟨d, hd, hmust⟩ := Clause.anyTruthy_iff.mp htruthy
      by_cases hpromoted : d = c
      · refine anyTruthy_iff.mpr (.inl (anyTruthy_of_mem ?_ hmust))
        exact mem_addOnce.mpr (.inr hpromoted)
      · refine anyTruthy_iff.mpr (.inr ⟨_, List.mem_map_of_mem ha, anyTruthy_of_mem ?_ hmust⟩)
        exact (List.mem_erase_of_ne hpromoted).mpr hd
  · exact h

theorem anyTruthy_promoteAll (pausing : Bool) (cs : List Clause) (h : g.anyTruthy = true) :
    (promoteAll pausing cs g).value.anyTruthy = true := by
  induction cs generalizing g with
  | nil => exact h
  | cons c rest ih => exact ih (anyTruthy_promote pausing c h)

theorem anyTruthy_promoteShared (h : g.anyTruthy = true) :
    g.promoteShared.value.anyTruthy = true := by
  unfold promoteShared
  split
  · rename_i first _ _ _
    rcases anyTruthy_iff.mp (anyTruthy_promoteAll g.canPause first h) with hcore | ⟨a, ha, htruthy⟩
    · exact anyTruthy_iff.mpr (.inl hcore)
    · exact anyTruthy_iff.mpr (.inr ⟨_, List.mem_map_of_mem ha,
        anyTruthy_fillEmpty.mpr (.inr htruthy)⟩)
  · exact h

/-- A group without what the core says already holds what it must, or the core does. -/
theorem anyTruthy_dropRepeated_iff :
    g.dropRepeated.anyTruthy = true ↔ g.anyTruthy = true ∨ [] ∈ g.alternates := by
  have hcore : Clause.anyTruthy g.core.eraseDups = Clause.anyTruthy g.core := by
    rw [Bool.eq_iff_iff]
    simp only [Clause.anyTruthy_iff, List.mem_eraseDups]
  rw [anyTruthy_iff, anyTruthy_iff]
  constructor
  · rintro (htruthy | ⟨group, hgroup, htruthy⟩)
    · exact .inl (.inl (hcore ▸ htruthy))
    · obtain ⟨a, ha, rfl⟩ := List.mem_map.mp hgroup
      rcases anyTruthy_fillEmpty.mp htruthy with hnil | htruthy
      · cases a with
        | nil => exact .inr ha
        | cons c rest =>
          -- the core says all of it, and only filters are dropped for that
          have hdropped := List.filter_eq_nil_iff.mp hnil c
            (List.mem_eraseDups.mpr List.mem_cons_self)
          obtain ⟨hplain, -⟩ : c.isPlain = true ∧ c ∈ g.core := by simpa using hdropped
          exact .inl (.inr ⟨_, ha, anyTruthy_of_mem List.mem_cons_self
            (isTruthy_of_role_eq (role_of_isPlain hplain))⟩)
      · refine .inl (.inr ⟨a, ha, anyTruthy_of_subset (fun c hc => ?_) htruthy⟩)
        exact List.mem_eraseDups.mp (List.mem_filter.mp hc).1
  · rintro ((htruthy | ⟨a, ha, htruthy⟩) | hnil)
    · exact .inl (hcore ▸ htruthy)
    · obtain ⟨c, hc, hmust⟩ := Clause.anyTruthy_iff.mp htruthy
      by_cases hdropped : (c.isPlain && g.core.eraseDups.contains c) = true
      · obtain ⟨-, hcontains⟩ := Bool.and_eq_true_iff.mp hdropped
        exact .inl (anyTruthy_of_mem (List.contains_iff_mem.mp hcontains) hmust)
      · have hkept : (!(c.isPlain && g.core.eraseDups.contains c)) = true := by
          rw [Bool.eq_false_of_not_eq_true hdropped]
          rfl
        refine .inr ⟨_, List.mem_map_of_mem ha,
          anyTruthy_fillEmpty.mpr (.inr (anyTruthy_of_mem ?_ hmust))⟩
        exact List.mem_filter.mpr ⟨List.mem_eraseDups.mpr hc, hkept⟩
    · exact .inr ⟨_, List.mem_map_of_mem hnil, rfl⟩

/-- Where nothing must hold, only an alternate that has moved to the core is filled. -/
theorem anyTruthy_of_mem_promoteShared (h : g.anyTruthy = false) :
    Clause.anyTruthy g.promoteShared.value.core = false ∧
      ∀ a ∈ g.promoteShared.value.alternates, a = alwaysTrueGroup ∨ Clause.anyTruthy a = false := by
  unfold promoteShared
  split
  · rename_i first second rest halternates
    have hfirst : ∀ c ∈ first, c.role.isTruthy = false := Clause.anyTruthy_eq_false_iff.mp
      ((anyTruthy_eq_false_iff.mp h).2 first (by simp [halternates]))
    have hall : (promoteAll g.canPause first g).value.All (fun c => c.role.isTruthy = false) :=
      (all_isTruthy_eq_false_iff.mpr h).promoteAll hfirst
    obtain ⟨hcore, hothers⟩ := anyTruthy_eq_false_iff.mp (all_isTruthy_eq_false_iff.mp hall)
    refine ⟨hcore, List.forall_mem_map.mpr fun a ha => ?_⟩
    unfold fillEmpty
    split
    · exact .inl rfl
    · exact .inr (hothers a ha)
  · obtain ⟨hcore, halternates⟩ := anyTruthy_eq_false_iff.mp h
    exact ⟨hcore, fun a ha => .inr (halternates a ha)⟩

/-- Where nothing must hold, that changes exactly when an alternate has no clauses left. -/
theorem anyTruthy_promoteShared_eq_false_iff (h : g.anyTruthy = false) :
    g.promoteShared.value.dropTrueCore.dropRepeated.anyTruthy = false ↔
      ∀ a ∈ g.promoteShared.value.alternates, a ≠ [] ∧ a ≠ alwaysTrueGroup := by
  obtain ⟨hcore, halternates⟩ := anyTruthy_of_mem_promoteShared h
  have hkept : g.promoteShared.value.dropTrueCore = g.promoteShared.value := by
    refine if_neg fun hdrops => ?_
    rw [beq_iff_eq.mp (Bool.and_eq_true_iff.mp hdrops).2] at hcore
    cases hcore
  rw [hkept, ← Bool.not_eq_true, anyTruthy_dropRepeated_iff, not_or, Bool.not_eq_true,
    anyTruthy_eq_false_iff]
  constructor
  · rintro ⟨⟨-, hnone⟩, hnil⟩ a ha
    refine ⟨fun heq => hnil (heq ▸ ha), fun heq => ?_⟩
    cases heq ▸ hnone a ha
  · intro hall
    exact ⟨⟨hcore, fun a ha => (halternates a ha).resolve_left (hall a ha).2⟩,
      fun hnil => (hall [] hnil).1 rfl⟩

end ClauseGroups

/-! ## Alternates that imply a sibling, and bit tests -/

namespace Clause

/-- A clause of a group of filters must hold, unless it waits for another row. -/
theorem isTruthy_of_isSimpleGroup {group : List Clause} (h : isSimpleGroup group = true)
    {c : Clause} (hc : c ∈ group) (hterminated : c.IsTerminated) : c.role.isTruthy = true := by
  obtain ⟨⟨⟨-, hreset⟩, hpause⟩, hmeasured⟩ :
      ((_ ∧ anyRole group .resetIf = false) ∧ anyRole group .pauseIf = false) ∧
        anyRole group .measuredIf = false := by
    simpa only [isSimpleGroup, Bool.and_eq_true, Bool.not_eq_true'] using h
  have hcombining : c.role.isCombining = false := hterminated.terminal
  cases hrole : c.role with
  | plain | trigger | measured | measuredPercent => rfl
  | resetIf => exact absurd hrole (role_ne_of_anyRole_eq_false hreset c hc)
  | pauseIf => exact absurd hrole (role_ne_of_anyRole_eq_false hpause c hc)
  | measuredIf => exact absurd hrole (role_ne_of_anyRole_eq_false hmeasured c hc)
  | addSource | subSource | addAddress | andNext | orNext | addHits | subHits | resetNextIf =>
    rw [hrole] at hcombining
    cases hcombining

/-- What a group of filters implies must hold as well. -/
theorem anyTruthy_of_groupImplies {a b : List Clause} (hsimple : isSimpleGroup a = true)
    (hterminated : ∀ c ∈ a, c.IsTerminated) (h : groupImplies a b = true) (hne : b ≠ []) :
    anyTruthy b = true := by
  obtain ⟨c, hc⟩ := List.exists_mem_of_ne_nil b hne
  refine anyTruthy_of_mem hc ?_
  rcases Bool.or_eq_true_iff.mp (List.all_eq_true.mp h c hc) with hconstant | himplied
  · exact isTruthy_of_role_eq (by simpa using (Bool.and_eq_true_iff.mp hconstant).2)
  · obtain ⟨held, hheld, himplies⟩ := List.any_eq_true.mp himplied
    rw [← role_of_implies himplies]
    exact isTruthy_of_isSimpleGroup hsimple hheld (hterminated held hheld)

/-- Tests of the parts and of the whole are filters. -/
theorem anyTruthy_mergeBitTests (group : List Clause) :
    anyTruthy (mergeBitTests group).value = anyTruthy group := by
  refine Logged.exhaust_keeps (P := fun group' => anyTruthy group' = anyTruthy group) ?_ _ group rfl
  intro before after event hstep hbefore
  obtain ⟨found, parts, hwhole, rfl⟩ := bitStep_eq_some hstep
  obtain ⟨rest, -, hafter⟩ := hwhole.perm_replaceAt (single found.2.row)
  have htruthy : anyTruthy before = true := by
    have hlength := hwhole.two_le
    obtain ⟨p, hp⟩ := List.exists_mem_of_length_pos (Nat.lt_of_lt_of_le Nat.zero_lt_two hlength)
    obtain ⟨c, hget, htest⟩ := hwhole.clause p hp
    exact anyTruthy_of_mem (List.mem_of_getElem? hget)
      (isTruthy_of_role_eq (role_of_isPlain (EqualityTest.isMadeBy_of_ofClause? htest).isPlain))
  rw [← hbefore, htruthy, anyTruthy_perm hafter, anyTruthy_cons]
  rfl

end Clause

namespace ClauseGroups
open Clause
variable {g : ClauseGroups}

/-- **Dropping alternates that imply a sibling keeps something that must hold**, which the sibling
has. -/
theorem anyTruthy_withoutImplied (hterminated : g.All IsTerminated)
    (hne : ∀ a ∈ g.alternates, a ≠ []) : g.withoutImplied.anyTruthy = g.anyTruthy := by
  have hany : g.withoutImplied.alternates.any Clause.anyTruthy =
      g.alternates.any Clause.anyTruthy := by
    refine (Logged.exhaust_keeps (P := fun alternates => (∀ a ∈ alternates, a ∈ g.alternates) ∧
      alternates.any Clause.anyTruthy = g.alternates.any Clause.anyTruthy) ?_ _ g.alternates
      ⟨fun _ ha => ha, rfl⟩).2
    rintro alternates alternates' event hstep ⟨hmem, hsame⟩
    obtain ⟨group, other, hperm, hother, hsimple, himplies⟩ := dropImplied_eq_some hstep
    have hgroup := hmem group (hperm.mem_iff.mpr List.mem_cons_self)
    have hleft (a : List Clause) (ha : a ∈ alternates') : a ∈ g.alternates :=
      hmem a (hperm.mem_iff.mpr (List.mem_cons_of_mem _ ha))
    have htruthy : Clause.anyTruthy other = true := anyTruthy_of_groupImplies hsimple
      ((all_iff.mp hterminated).2 group hgroup) himplies (hne other (hleft other hother))
    have hstays : alternates'.any Clause.anyTruthy = true :=
      List.any_eq_true.mpr ⟨other, hother, htruthy⟩
    exact ⟨hleft, by rw [← hsame, hperm.any_eq, List.any_cons, hstays, Bool.or_true]⟩
  show (_ || _) = (_ || _)
  exact congrArg (_ || ·) hany

theorem anyTruthy_withWholes (g : ClauseGroups) : g.withWholes.anyTruthy = g.anyTruthy := by
  simp only [anyTruthy, groups, withWholes, List.any_cons, List.any_map, Function.comp_def,
    anyTruthy_mergeBitTests]

end ClauseGroups
end MemoryTrigger

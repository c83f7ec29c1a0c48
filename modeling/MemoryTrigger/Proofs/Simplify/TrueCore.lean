import MemoryTrigger.Proofs.Simplify.BitTests
import MemoryTrigger.Proofs.Simplify.Constants
import MemoryTrigger.Proofs.Simplify.Guards
import MemoryTrigger.Proofs.Simplify.Overlap
import MemoryTrigger.Proofs.Simplify.Sharing

/-! # No core of `1=1` in front of alternates

A core of exactly `1=1` says nothing beside alternates, and a round of the simplifier ends with
none.  Only one pass drops it, so that the later ones must not bring it back, which is a matter of
counting the clauses `1=1` of the core.  Settling comparisons leaves at most one
(`Clause.count_foldConstants_le`).  Turning guards into filters adds none, because it would take a
guard that compares `1!=1`, and such comparisons are settled by then
(`Clause.noTrueFilter_of_forallFree`).  A shared clause only moves to a core that lacks it.  So where
repeats are dropped there is no second `1=1` to drop (`Clause.eq_alwaysTrueGroup_of_eraseDups`), and
merging makes none, except from a reset on `1!=1` (`Clause.of_merge?_alwaysTrue`). -/
namespace MemoryTrigger

/-! ## Rows that may be changed -/

namespace Row

theorem inverted_eq_alwaysTrue {r : Row} (h : r.inverted = alwaysTrue) :
    r.left = .literal 1 ∧ r.operator = .compare .ne ∧ r.right = .literal 1 ∧ r.hits = 0 := by
  obtain ⟨left, operator, right, role, hits⟩ := r
  simp only [inverted, alwaysTrue, comparing, mk.injEq] at h
  obtain ⟨rfl, hoperator, rfl, -, rfl⟩ := h
  refine ⟨rfl, ?_, rfl, rfl⟩
  cases operator with
  | compare relation => cases relation <;> simp_all [Operator.inverse, Relation.inverse]
  | _ => cases hoperator

theorem evaluate?_of_inverted_eq {r : Row} (h : r.inverted = alwaysTrue) :
    r.evaluate? = some false := by
  obtain ⟨hleft, hoperator, hright, -⟩ := inverted_eq_alwaysTrue h
  rw [evaluate?, hleft, hoperator, hright]
  rfl

theorem inverted_withTruth_ne (r : Row) (truth : Bool) :
    (r.withTruth truth).inverted ≠ alwaysTrue := by
  intro h
  obtain ⟨-, hoperator, -, -⟩ := inverted_eq_alwaysTrue h
  cases truth <;> cases hoperator

/-- The plainest form of a row is not `1!=1`, which is settled. -/
theorem inverted_normalize_ne (r : Row) : r.normalize.inverted ≠ alwaysTrue := by
  intro h
  rw [normalize] at h
  split at h
  · rename_i hcompares
    obtain ⟨-, hoperator, -, -⟩ := inverted_eq_alwaysTrue h
    simp [isComparison, hoperator, Operator.isComparison] at hcompares
  simp only at h
  split at h
  · exact inverted_withTruth_ne _ _ h
  rename_i hopen
  split at h
  · split at h
    · rename_i hsides
      split at h
      · exact inverted_withTruth_ne _ _ h
      · obtain ⟨hleft, -⟩ := inverted_eq_alwaysTrue h
        simp only at hleft
        simp [hleft, Operand.isMemory, Operand.literal] at hsides
    · simp [evaluate?_of_inverted_eq h] at hopen
  · simp [evaluate?_of_inverted_eq h] at hopen

/-- Every row of a group that may be changed in its place has the property. -/
def ForallFree (P : Row → Prop) (afterModifier : Bool) : List Row → Prop
  | [] => True
  | r :: rest => (r.isFree afterModifier = true → P r) ∧ ForallFree P r.role.isModifier rest

namespace ForallFree
variable {P : Row → Prop}

/-- Behind a modifier row fewer rows may be changed. -/
theorem of_false {rows : List Row} (h : ForallFree P false rows) (afterModifier : Bool) :
    ForallFree P afterModifier rows := by
  cases rows with
  | nil => trivial
  | cons r rest =>
    refine ⟨fun hfree => h.1 ?_, h.2⟩
    revert hfree
    cases afterModifier <;> simp [isFree]

theorem append {afterModifier : Bool} {xs ys : List Row} (hxs : ForallFree P afterModifier xs)
    (hys : ForallFree P false ys) : ForallFree P afterModifier (xs ++ ys) := by
  induction xs generalizing afterModifier with
  | nil => exact hys.of_false afterModifier
  | cons r rest ih => exact ⟨hxs.1, ih hxs.2⟩

theorem normalizeRows (hP : ∀ r : Row, P r.normalize) (afterModifier : Bool) (rows : List Row) :
    ForallFree P afterModifier (Row.normalizeRows afterModifier rows).value := by
  induction rows generalizing afterModifier with
  | nil => trivial
  | cons r rest ih =>
    rw [value_normalizeRows_cons]
    refine ⟨fun hfree => ?_, by rw [role_settled]; exact ih r.role.isModifier⟩
    have hfree : r.isFree afterModifier = true := by simpa [isFree] using hfree
    rw [settled, if_pos hfree]
    exact hP r

/-- A dropped link was not fed by the row before it, and feeds nothing into the row behind it. -/
theorem removeIdentityLinks (previous : Option Row) {rows : List Row}
    (h : ForallFree P (previous.any (·.role.isModifier)) rows) :
    ForallFree P (previous.any (·.role.isModifier))
      (Row.removeIdentityLinks previous rows).value := by
  induction rows generalizing previous with
  | nil => trivial
  | cons r rest ih =>
    rw [Row.removeIdentityLinks]
    split
    · rename_i hdrop
      obtain ⟨hdroppable, hlink⟩ := Bool.and_eq_true_iff.mp hdrop
      have hprevious : previous.any (·.role.isModifier) = false := by
        cases previous with
        | none => rfl
        | some p =>
          rw [Option.any_some]
          revert hdroppable
          cases hp : p.role <;> simp [linkIsDroppable, hp, Role.isModifier]
      have hr : r.role.isModifier = false := by
        revert hlink
        cases hr : r.role <;> simp [isIdentityLink, hr, Role.isModifier]
      refine ih previous ?_
      rw [hprevious, ← hr]
      exact h.2
    · exact ⟨h.1, ih (some r) h.2⟩

/-- The first clause of a group begins where the group does, the others behind terminal rows. -/
theorem of_split_cons {afterModifier : Bool} {rows : List Row}
    (h : ForallFree P afterModifier rows) {c : Clause} {cs : List Clause}
    (hsplit : Clause.split rows = c :: cs) :
    ForallFree P afterModifier c.rows ∧ ∀ d ∈ cs, ForallFree P false d.rows := by
  induction rows generalizing afterModifier c cs with
  | nil => cases hsplit
  | cons r rest ih =>
    rw [Clause.split] at hsplit
    split at hsplit
    · split at hsplit
      · cases hsplit
        exact ⟨⟨h.1, trivial⟩, by simp⟩
      · rename_i d ds hrest
        cases hsplit
        obtain ⟨hd, hds⟩ := ih h.2 hrest
        exact ⟨⟨h.1, hd⟩, hds⟩
    · rename_i hr
      cases hsplit
      have hmodifier : r.role.isModifier = false := by
        revert hr
        cases r.role <;> simp [Role.isCombining, Role.isModifier]
      refine ⟨⟨h.1, trivial⟩, ?_⟩
      cases hrest : Clause.split rest with
      | nil => simp
      | cons d ds =>
        exact List.forall_mem_cons.mpr (ih (hmodifier ▸ h.2) hrest)

theorem of_mem_split {rows : List Row} (h : ForallFree P false rows) {c : Clause}
    (hc : c ∈ Clause.split rows) : ForallFree P false c.rows := by
  cases hsplit : Clause.split rows with
  | nil =>
    rw [hsplit] at hc
    cases hc
  | cons d ds =>
    rw [hsplit] at hc
    obtain ⟨hd, hds⟩ := h.of_split_cons hsplit
    rcases List.mem_cons.mp hc with rfl | hc
    · exact hd
    · exact hds c hc

theorem join {cs : List Clause} (h : ∀ c ∈ cs, ForallFree P false c.rows) :
    ForallFree P false (Clause.join cs) := by
  induction cs with
  | nil => trivial
  | cons c cs ih =>
    obtain ⟨hc, hcs⟩ := List.forall_mem_cons.mp h
    exact hc.append (ih hcs)

/-- Without modifier rows and measured rows, all rows may be changed. -/
theorem forall_mem {rows : List Row} (h : ForallFree P false rows)
    (hrows : ∀ r ∈ rows, r.role.isModifier = false ∧ r.role.isMeasured = false) :
    ∀ r ∈ rows, P r := by
  induction rows with
  | nil => simp
  | cons r rest ih =>
    obtain ⟨⟨hmodifier, hmeasured⟩, hrest⟩ := List.forall_mem_cons.mp hrows
    refine List.forall_mem_cons.mpr ⟨h.1 (by simp [isFree, hmeasured]), ih ?_ hrest⟩
    rw [← hmodifier]
    exact h.2

end ForallFree
end Row

/-! ## Settled comparisons -/

namespace Clause

theorem countP_dropFillers_le (settled : Bool) (group : List Clause) :
    (dropFillers settled group).countP isFiller ≤ if settled then 0 else 1 := by
  induction group generalizing settled with
  | nil => simp [dropFillers]
  | cons c rest ih =>
    rw [dropFillers]
    split
    · rename_i hfiller
      cases settled with
      | true => exact ih true
      | false =>
        have hrest := ih true
        simp only [if_true] at hrest
        simp [hfiller, Nat.le_zero.mp hrest]
    · rename_i hfiller
      rw [List.countP_cons_of_neg hfiller]
      exact ih settled

/-- **Removing what is settled leaves at most one `1=1`.** -/
theorem count_foldConstants_le (group : List Clause) :
    (foldConstants group).count (single .alwaysTrue) ≤ 1 := by
  unfold foldConstants
  simp only
  split
  · rw [List.count_eq_zero.mpr]
    · exact Nat.zero_le 1
    intro hmem
    rcases List.mem_append.mp hmem with hmem | hmem
    · cases (List.mem_filter.mp hmem).2
    · cases List.mem_singleton.mp hmem
  · refine Nat.le_trans (List.countP_mono_left fun c _ hc => ?_)
      (Nat.le_trans (countP_dropFillers_le _ _) (by split <;> simp))
    rw [beq_iff_eq.mp hc]
    rfl

/-! ## Guards -/

/-- None of the filters that a guard turns into is `1=1`. -/
def NoTrueFilter (c : Clause) : Prop :=
  c.role.isGuard = true → ∀ filters, c.inverted? = some filters → single .alwaysTrue ∉ filters

theorem noTrueFilter_of_role {c : Clause} (h : c.role = .plain) : c.NoTrueFilter := by
  intro hguard
  rw [h] at hguard
  cases hguard

/-- A guard turns into `1=1` only where it compares `1!=1`. -/
theorem noTrueFilter_of_forallFree {c : Clause}
    (h : Row.ForallFree (·.inverted ≠ .alwaysTrue) false c.rows) : c.NoTrueFilter := by
  intro hguard filters hfilters hmem
  have hterminal : c.terminal.role.isModifier = false ∧ c.terminal.role.isMeasured = false := by
    revert hguard
    rw [role]
    cases c.terminal.role <;> simp [Role.isGuard, Role.isModifier, Role.isMeasured]
  obtain ⟨-, -, ⟨-, rfl⟩ | ⟨hlead, -, rfl⟩⟩ := inverted?_cases hfilters
  -- a row alone stands behind no modifier row
  · obtain ⟨hnil, hinverted⟩ : [] = c.lead ∧ .alwaysTrue = c.terminal.inverted :=
      Clause.mk.inj (List.mem_singleton.mp hmem)
    rw [rows, ← hnil] at h
    exact h.1 (by simp [Row.isFree, hterminal.2]) hinverted.symm
  -- and neither does any row of a disjunction
  · obtain ⟨r, hr, heq⟩ := List.mem_map.mp hmem
    refine h.forall_mem (List.forall_mem_append.mpr ⟨fun s hs => ?_, ?_⟩) r hr
      (congrArg terminal heq)
    · rw [hlead s hs]
      exact ⟨rfl, rfl⟩
    · exact List.forall_mem_singleton.mpr hterminal

theorem count_invertRole_le {role : Role} (hrole : role.isGuard = true) {group : List Clause}
    (h : ∀ c ∈ group, c.NoTrueFilter) :
    (invertRole role group).count (single .alwaysTrue) ≤ group.count (single .alwaysTrue) := by
  induction group with
  | nil => exact Nat.le_refl _
  | cons c rest ih =>
    obtain ⟨hc, hrest⟩ := List.forall_mem_cons.mp h
    have hmore := ih hrest
    rw [invertRole, List.flatMap_cons, List.count_append, ← invertRole]
    cases hfilters : c.filtersFor? role with
    | none =>
      rw [Option.getD_none, List.count_singleton, List.count_cons]
      omega
    | some filters =>
      obtain ⟨rfl, hinverted⟩ := filtersFor?_eq_some.mp hfilters
      rw [Option.getD_some, List.count_eq_zero.mpr (hc hrole filters hinverted), Nat.zero_add]
      exact Nat.le_trans hmore List.count_le_count_cons

theorem not_mem_resetFilters {group : List Clause} (h : ∀ c ∈ group, c.NoTrueFilter) :
    single .alwaysTrue ∉ resetFilters group := by
  intro hmem
  obtain ⟨c, hc, hrole, filters, hinverted, hmem⟩ := mem_resetFilters hmem
  exact h c hc (by rw [hrole]; rfl) filters hinverted hmem

end Clause

namespace ClauseGroups
open Clause

theorem count_filterPauses_le {group : List Clause} (h : ∀ c ∈ group, c.NoTrueFilter) :
    (filterPauses group).count (single .alwaysTrue) ≤ group.count (single .alwaysTrue) := by
  unfold filterPauses
  split
  · exact Nat.le_refl _
  · exact count_invertRole_le rfl h

theorem core_filterResets {g : ClauseGroups} (h : g.All NoTrueFilter) :
    g.filterResets.core.count (single .alwaysTrue) ≤ g.core.count (single .alwaysTrue) ∧
      ∀ c ∈ g.filterResets.core, c.NoTrueFilter := by
  obtain ⟨hcore, halternates⟩ := all_iff.mp h
  have hmoved : single .alwaysTrue ∉ (g.alternates.filter fun group =>
      !anyRole group .pauseIf).flatMap resetFilters := by
    intro hmem
    obtain ⟨a, ha, hmem⟩ := List.mem_flatMap.mp hmem
    exact not_mem_resetFilters (halternates a (List.mem_filter.mp ha).1) hmem
  refine ⟨?_, fun c hc => ?_⟩
  · rw [filterResets, List.count_append, List.count_eq_zero.mpr hmoved, Nat.add_zero]
    exact count_invertRole_le rfl hcore
  · rcases List.mem_append.mp hc with hc | hc
    · rcases role_of_mem_invertRole hc with hc | hc
      · exact hcore c hc
      · exact noTrueFilter_of_role hc
    · obtain ⟨a, -, hc⟩ := List.mem_flatMap.mp hc
      obtain ⟨reset, -, -, filters, hinverted, hc⟩ := mem_resetFilters hc
      exact noTrueFilter_of_role (role_of_isPlain (isPlain_of_mem_inverted? hinverted hc))

/-- **Turning guards into filters adds no `1=1` to the core.** -/
theorem count_core_filterGuards_le {g : ClauseGroups} (h : g.All NoTrueFilter) :
    g.filterGuards.core.count (single .alwaysTrue) ≤ g.core.count (single .alwaysTrue) := by
  unfold filterGuards
  simp only
  split
  · exact count_filterPauses_le (all_iff.mp h).1
  · obtain ⟨hcount, hcore⟩ := core_filterResets h
    exact Nat.le_trans (count_filterPauses_le hcore) hcount

/-! ## Shared and repeated clauses -/

theorem count_core_promote_le {pausing : Bool} {g : ClauseGroups} (c : Clause)
    (h : g.core.count (single .alwaysTrue) ≤ 1) :
    (promote pausing g c).value.core.count (single .alwaysTrue) ≤ 1 := by
  unfold promote
  split
  · simp only [Logged.value_bind, Logged.value_pure]
    split
    · exact h
    · rename_i hlacks
      rw [List.count_append]
      by_cases hc : c = single .alwaysTrue
      · have hzero : g.core.count (single .alwaysTrue) = 0 :=
          List.count_eq_zero.mpr (by simpa [hc] using hlacks)
        simp [hc, hzero]
      · simpa [List.count_singleton, hc] using h
  · exact h

theorem count_core_promoteAll_le {pausing : Bool} (cs : List Clause) {g : ClauseGroups}
    (h : g.core.count (single .alwaysTrue) ≤ 1) :
    (promoteAll pausing cs g).value.core.count (single .alwaysTrue) ≤ 1 := by
  induction cs generalizing g with
  | nil => exact h
  | cons c rest ih => exact ih (count_core_promote_le c h)

/-- **A shared clause moves to a core that lacks it.** -/
theorem count_core_promoteShared_le {g : ClauseGroups}
    (h : g.core.count (single .alwaysTrue) ≤ 1) :
    g.promoteShared.value.core.count (single .alwaysTrue) ≤ 1 := by
  unfold promoteShared
  split
  · exact count_core_promoteAll_le _ h
  · exact h

theorem core_dropTrueCore_ne {g : ClauseGroups} (h : g.dropTrueCore.alternates ≠ []) :
    g.dropTrueCore.core ≠ alwaysTrueGroup := by
  unfold dropTrueCore at h ⊢
  split
  · simp [alwaysTrueGroup]
  · rename_i hkeep
    rw [if_neg hkeep] at h
    intro hcore
    exact hkeep (by simp [hcore, h])

theorem count_core_dropTrueCore_le (g : ClauseGroups) :
    g.dropTrueCore.core.count (single .alwaysTrue) ≤ g.core.count (single .alwaysTrue) := by
  unfold dropTrueCore
  split
  · exact Nat.zero_le _
  · exact Nat.le_refl _

end ClauseGroups

namespace Clause

theorem count_eraseDups_le (group : List Clause) (c : Clause) : group.eraseDups.count c ≤ 1 := by
  induction hn : group.length using Nat.strongRecOn generalizing group with
  | ind n ih =>
    cases group with
    | nil => simp
    | cons d rest =>
      rw [List.eraseDups_cons]
      by_cases hd : d = c
      · subst hd
        have hlacks : d ∉ (rest.filter fun e => !e == d).eraseDups := by simp [List.mem_eraseDups]
        have hnone := List.count_eq_zero.mpr hlacks
        rw [List.count_cons_self]
        omega
      · rw [List.count_cons_of_ne hd]
        refine ih _ ?_ _ rfl
        have := List.length_filter_le (fun e => !e == d) rest
        simp only [List.length_cons] at hn
        omega

/-- Where `1=1` is not said twice, only `1=1` comes down to `1=1`. -/
theorem eq_alwaysTrueGroup_of_eraseDups {group : List Clause}
    (hcount : group.count (single .alwaysTrue) ≤ 1) (h : group.eraseDups = alwaysTrueGroup) :
    group = alwaysTrueGroup := by
  have hall : ∀ c ∈ group, single .alwaysTrue = c := by
    intro c hc
    rw [← List.mem_eraseDups, h] at hc
    exact (List.mem_singleton.mp hc).symm
  rw [List.count_eq_length.mpr hall] at hcount
  match group with
  | [] => cases h
  | [c] => rw [← hall c List.mem_cons_self, alwaysTrueGroup]
  | _ :: _ :: _ => simp at hcount

/-! ## Merged clauses -/

/-- The reset on `1!=1`, which never fires, and whose filter is `1=1`. -/
def vainReset : Clause :=
  single { Row.comparing (.literal 1) .ne (.literal 1) with role := .resetIf }

theorem ne_single_of_valueSet? {c : Clause} {s : ValueSet} (h : c.valueSet? = some s) {r : Row}
    (hr : r.left.isMemory = false) : c ≠ single r := by
  rintro rfl
  rcases lead_ne_nil_or_isMemory h with hlead | hleft
  · exact hlead rfl
  · simp [single, hr] at hleft

theorem ne_single_of_withSet? {c d : Clause} {s t : ValueSet} (h : c.valueSet? = some s)
    (hd : c.withSet? t = some d) {r : Row} (hr : r.left.isMemory = false) : d ≠ single r := by
  obtain ⟨relation, value, -, rfl⟩ := withSet?_eq_some.mp hd
  intro heq
  obtain ⟨hlead, hterminal⟩ := Clause.mk.inj heq
  rcases lead_ne_nil_or_isMemory h with hne | hleft
  · exact hne hlead
  · rw [← hterminal] at hr
    simp [hr] at hleft

/-- Passes make no reset on `1!=1`. -/
theorem closed_ne_vainReset : Closed (· ≠ vainReset) where
  alwaysTrue := by decide
  alwaysFalse := by decide
  inverted := by
    rintro c d filters - h hd rfl
    have hplain := role_of_isPlain (isPlain_of_mem_inverted? h hd)
    cases hplain
  withSet _ _ hs hd := ne_single_of_withSet? hs hd rfl
  equalityTest _ _ heq := by cases heq

section Merging
variable {anyHits inCore : Bool} {a b : Clause} {e : Merge}

/-- The reset that `1=1` negates. -/
theorem eq_vainReset (hlead : a.lead = []) (hhits : a.hasHits = false)
    (hreset : a.isResetOfFilter (single .alwaysTrue) = true) : a = vainReset := by
  have hzero : a.terminal.hits = 0 := hits_eq_zero_of_not_hasHits hhits _ a.terminal_mem_rows
  obtain ⟨lead, left, operator, right, role, hits⟩ := a
  simp only [isResetOfFilter, Clause.role, single, Bool.and_eq_true, beq_iff_eq] at hreset
  obtain ⟨⟨⟨⟨rfl, -⟩, hleft⟩, hright⟩, hoperator⟩ := hreset
  have hinverted : Row.inverted ⟨left, operator, right, .resetIf, hits⟩ = .alwaysTrue := by
    simp only [Row.inverted, hleft, hright, hoperator]
    rw [show hits = 0 from hzero]
    rfl
  obtain ⟨rfl, rfl, rfl, rfl⟩ := Row.inverted_eq_alwaysTrue hinverted
  rw [show lead = [] from hlead]
  rfl

/-- **Only from `1=1`, or from the reset on `1!=1`, is a clause `1=1` merged.** -/
theorem of_merge?_alwaysTrue (h : merge? anyHits inCore a b = some e)
    (he : e.result a b = single .alwaysTrue) :
    (a = single .alwaysTrue ∧ b = single .alwaysTrue) ∨ a = vainReset := by
  rcases merge?_cases h with ⟨rfl, rfl⟩ | ⟨hlead, ⟨hlarger, rfl⟩ |
    ⟨hhits, -, ⟨hreset, ⟨rfl, -⟩ | ⟨rfl, -⟩⟩ | hvalues⟩⟩
  · exact .inl ⟨he, he⟩
  · obtain rfl : a = single .alwaysTrue := he
    simp [hasLargerTarget, single, Row.alwaysTrue, Row.comparing] at hlarger
  · obtain rfl : a = single .alwaysTrue := he
    simp [isResetOfFilter, role, single, Row.alwaysTrue, Row.comparing] at hreset
  · obtain rfl : b = single .alwaysTrue := he
    exact .inr (eq_vainReset hlead hhits hreset)
  · obtain ⟨-, -, s, t, hs, ht, ⟨-, hmerge⟩ | ⟨-, hmerge⟩⟩ := mergeByValues_cases hvalues
    · rcases mergeFilters_cases hmerge with ⟨rfl, -⟩ | ⟨rfl, -⟩ | ⟨rfl, -⟩ | ⟨c, rfl, hc⟩
      · exact absurd he (ne_single_of_valueSet? hs rfl)
      · exact absurd he (ne_single_of_valueSet? ht rfl)
      · cases he
      · exact absurd he (ne_single_of_withSet? hs hc rfl)
    · rcases mergeGuards_cases hmerge with ⟨rfl, -⟩ | ⟨rfl, -⟩ | ⟨c, rfl, hc⟩
      · exact absurd he (ne_single_of_valueSet? hs rfl)
      · exact absurd he (ne_single_of_valueSet? ht rfl)
      · exact absurd he (ne_single_of_withSet? hs hc rfl)

end Merging

/-- A group that says more than `1=1`, with nothing in it to merge to `1=1`. -/
structure SaysMore (group : List Clause) : Prop where
  once : group.count (single .alwaysTrue) ≤ 1
  notVain : ∀ c ∈ group, c ≠ vainReset
  ne : group ≠ alwaysTrueGroup

section Steps
variable {anyHits inCore : Bool} {group group' : List Clause} {event : Event}

theorem SaysMore.mergeStep (h : SaysMore group)
    (hstep : mergeStep anyHits inCore group = some (group', event)) : SaysMore group' := by
  obtain ⟨a, b, e, rest, hmerge, hperm, hperm'⟩ := mergeStep_eq_some hstep
  have honce := h.once
  rw [hperm.count_eq] at honce
  have hresult : e.result a b ≠ single .alwaysTrue := by
    intro he
    rcases of_merge?_alwaysTrue hmerge he with ⟨rfl, rfl⟩ | rfl
    · simp at honce
    · exact h.notVain vainReset (hperm.mem_iff.mpr List.mem_cons_self) rfl
  refine ⟨?_, forall_mem_mergeStep closed_ne_vainReset hstep h.notVain, ?_⟩
  · rw [List.count_cons, List.count_cons] at honce
    rw [hperm'.count_eq, List.count_cons_of_ne hresult]
    omega
  -- what was merged stands in the group, and is not `1=1`
  · rintro rfl
    have hmem : e.result a b ∈ alwaysTrueGroup := hperm'.mem_iff.mpr List.mem_cons_self
    exact hresult (List.mem_singleton.mp hmem)

/-- **Merging does not bring a group down to `1=1`.** -/
theorem SaysMore.mergeOverlaps (h : SaysMore group) :
    SaysMore (mergeOverlaps anyHits inCore group).value :=
  Logged.exhaust_keeps (fun _ _ _ hstep hgroup => SaysMore.mergeStep hgroup hstep) _ group h

theorem mergeOverlaps_ne_nil (h : group ≠ []) :
    (Clause.mergeOverlaps anyHits inCore group).value ≠ [] := by
  refine Logged.exhaust_keeps (P := (· ≠ [])) (fun before after event hstep _ => ?_) _ group h
  obtain ⟨a, b, e, rest, -, -, hperm⟩ := mergeStep_eq_some hstep
  exact List.ne_nil_of_mem (hperm.mem_iff.mpr List.mem_cons_self)

/-- The test of a whole is a read that is compared. -/
theorem exists_mem_of_bitStep (h : bitStep group = some (group', event)) :
    ∃ r : Row, r.left.isMemory = true ∧ single r ∈ group' := by
  obtain ⟨found, parts, hwhole, rfl⟩ := bitStep_eq_some h
  obtain ⟨rest, -, hperm⟩ := hwhole.perm_replaceAt (single found.2.row)
  exact ⟨found.2.row, hwhole.isMemory.1, hperm.mem_iff.mpr List.mem_cons_self⟩

theorem mergeBitTests_ne_nil (h : group ≠ []) : (mergeBitTests group).value ≠ [] := by
  refine Logged.exhaust_keeps (P := (· ≠ [])) (fun before after event hstep _ => ?_) _ group h
  obtain ⟨r, -, hr⟩ := exists_mem_of_bitStep hstep
  exact List.ne_nil_of_mem hr

theorem mergeBitTests_ne_alwaysTrueGroup (h : group ≠ alwaysTrueGroup) :
    (mergeBitTests group).value ≠ alwaysTrueGroup := by
  refine Logged.exhaust_keeps (P := (· ≠ alwaysTrueGroup))
    (fun before after event hstep _ => ?_) _ group h
  rintro rfl
  obtain ⟨r, hmemory, hr⟩ := exists_mem_of_bitStep hstep
  cases List.mem_singleton.mp hr
  cases hmemory

end Steps

end Clause
end MemoryTrigger

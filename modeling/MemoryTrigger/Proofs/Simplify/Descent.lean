import MemoryTrigger.Proofs.Simplify.Disjunction
import MemoryTrigger.Proofs.Simplify.Implication
import MemoryTrigger.Proofs.Simplify.Settling

/-! # Passes lower what they change

Beside settling comparisons, every pass leaves a trigger as it was or lowers its rank.  Guards that
become filters weigh no more and are guards no longer; what moves from the alternates to the core
gets lighter on the way; repeated and merged clauses are gone; alternates that collapse are fewer.

There is one exception.  Where every alternate is `1=1`, that clause is shared, so that it moves to
the core, and the empty alternates are filled with it again (`ClauseGroups.AllTrue`).  The core got
heavier then, but such alternates collapse in the same round. -/
namespace MemoryTrigger

/-- A step that makes things smaller leaves a thing as it is or makes it smaller, however often it
is repeated. -/
theorem Logged.exhaust_eq_or_lt {α : Type} {step : α → Option (α × Event)} (size : α → Nat)
    (hstep : ∀ a b e, step a = some (b, e) → size b < size a) (limit : Nat) (a : α) :
    (exhaust step limit a).value = a ∨ size (exhaust step limit a).value < size a := by
  refine exhaust_keeps (P := fun b => b = a ∨ size b < size a) ?_ limit a (.inl rfl)
  rintro b c e h (rfl | hlt)
  · exact .inr (hstep _ _ _ h)
  · exact .inr (Nat.lt_trans (hstep _ _ _ h) hlt)

/-! ## Guards as filters -/

namespace Clause
open Row

theorem ne_alwaysTrue_of_role {r : Row} (h : r.role ≠ .plain) : r ≠ .alwaysTrue := by
  rintro rfl
  exact h rfl

theorem terminal_ne_of_isGuard {c : Clause} (h : c.role.isGuard = true) :
    c.terminal ≠ .alwaysTrue :=
  ne_alwaysTrue_of_role fun hplain => by
    rw [role, hplain] at h
    cases h

theorem weigh_of_terminal_ne {c : Clause} (h : c.terminal ≠ .alwaysTrue) :
    3 ≤ weigh c.rows := by
  rw [rows, weigh_append, weigh_singleton_of_ne h]
  omega

theorem countGuards_pos {c : Clause} (h : c.role.isGuard = true) : 0 < countGuards c.rows :=
  List.countP_pos_iff.mpr ⟨c.terminal, c.terminal_mem_rows, h⟩

/-- **Filters that stand for a guard weigh no more than it**, and none of their rows is a guard. -/
theorem weigh_inverted?_le {c : Clause} {filters : List Clause} (hguard : c.role.isGuard = true)
    (h : c.inverted? = some filters) :
    weigh (join filters) ≤ weigh c.rows ∧ countGuards (join filters) = 0 ∧ filters ≠ [] := by
  have hterminal := terminal_ne_of_isGuard hguard
  obtain ⟨-, -, ⟨hlead, rfl⟩ | ⟨hlead, -, rfl⟩⟩ := inverted?_cases h
  · have hjoin : join [⟨c.lead, c.terminal.inverted⟩] = c.lead ++ [c.terminal.inverted] := by
      simp [join, rows]
    refine ⟨?_, ?_, by simp⟩
    · rw [hjoin, rows, weigh_append, weigh_append, weigh_singleton_of_ne hterminal]
      exact Nat.add_le_add_left (weigh_le [c.terminal.inverted]) _
    · rw [hjoin, countGuards, List.countP_eq_zero]
      refine List.forall_mem_append.mpr ⟨fun r hr => ?_, by simp [Row.inverted, Role.isGuard]⟩
      have hmodifier := List.all_eq_true.mp hlead r hr
      revert hmodifier
      cases r.role <;> simp [Role.isModifier, Role.isGuard]
  · have hjoin : join (c.rows.map fun r => single r.inverted) = c.rows.map Row.inverted := by
      rw [join, List.flatMap_map, List.map_eq_flatMap]
      rfl
    refine ⟨?_, ?_, by simp [rows]⟩
    · have hrows : weigh c.rows = 3 * c.rows.length := by
        refine weigh_of_forall_ne (List.forall_mem_append.mpr ⟨fun r hr => ?_, by simpa⟩)
        exact ne_alwaysTrue_of_role (by simp [hlead r hr])
      rw [hjoin, hrows]
      simpa using weigh_le (c.rows.map Row.inverted)
    · rw [hjoin, countGuards, List.countP_eq_zero]
      simp [Row.inverted, Role.isGuard]

/-- Turning guards of a group into filters leaves the group as it is or with fewer guards. -/
theorem invertRole_eq_or_lower {role : Role} (hrole : role.isGuard = true) (group : List Clause) :
    invertRole role group = group ∨ Lower weigh (join (invertRole role group)) (join group) := by
  -- The weight must not grow while guards go, so both are carried through the induction.
  have hsteps : weigh (join (invertRole role group)) ≤ weigh (join group) ∧
      (invertRole role group = group ∨
        countGuards (join (invertRole role group)) < countGuards (join group)) := by
    induction group with
    | nil => exact ⟨Nat.le_refl _, .inl rfl⟩
    | cons c rest ih =>
      obtain ⟨hweight, hguards⟩ := ih
      have hcons : invertRole role (c :: rest) =
          (c.filtersFor? role).getD [c] ++ invertRole role rest := rfl
      rw [hcons, join_append, join_cons, weigh_append, weigh_append, countGuards_append,
        countGuards_append]
      cases hfilters : c.filtersFor? role with
      | none =>
        have hone : join [c] = c.rows := by simp [join]
        rw [Option.getD_none, hone]
        refine ⟨Nat.add_le_add_left hweight _, ?_⟩
        rcases hguards with heq | hlt
        · exact .inl (by rw [heq]; rfl)
        · exact .inr (Nat.add_lt_add_left hlt _)
      | some filters =>
        obtain ⟨rfl, hinverted⟩ := filtersFor?_eq_some.mp hfilters
        obtain ⟨hle, hnone, -⟩ := weigh_inverted?_le hrole hinverted
        have hpos := countGuards_pos hrole
        have hrest : countGuards (join (invertRole c.role rest)) ≤ countGuards (join rest) := by
          rcases hguards with heq | hlt
          · rw [heq]
          · exact Nat.le_of_lt hlt
        rw [Option.getD_some]
        exact ⟨Nat.add_le_add hle hweight, .inr (by omega)⟩
  rcases hsteps.2 with heq | hlt
  · exact .inl heq
  · exact .inr (.of_countGuards hsteps.1 hlt)

theorem invertRole_eq_nil {role : Role} (hrole : role.isGuard = true) {group : List Clause}
    (h : invertRole role group = []) : group = [] := by
  cases group with
  | nil => rfl
  | cons c rest =>
    obtain ⟨hfirst, -⟩ := List.append_eq_nil_iff.mp
      (show (c.filtersFor? role).getD [c] ++ invertRole role rest = [] from h)
    cases hfilters : c.filtersFor? role with
    | none =>
      rw [hfilters] at hfirst
      cases hfirst
    | some filters =>
      rw [hfilters] at hfirst
      obtain ⟨rfl, hinverted⟩ := filtersFor?_eq_some.mp hfilters
      exact absurd hfirst (weigh_inverted?_le hrole hinverted).2.2

/-! ## Filled groups -/

/-- Leaving clauses out of an alternate and filling it lowers it, unless it is as it was. -/
theorem fillEmpty_eq_or_lower {sub group : List Clause} (h : sub.Sublist group) :
    join (ClauseGroups.fillEmpty sub) = join group ∨
      weighAlternate (join (ClauseGroups.fillEmpty sub)) < weighAlternate (join group) := by
  by_cases hsub : sub = []
  · subst hsub
    change [Row.alwaysTrue] = join group ∨ 1 < weighAlternate (join group)
    by_cases hgroup : join group = []
    · rw [hgroup]
      exact .inr (by decide)
    · rw [weighAlternate_of_ne_nil hgroup]
      rcases Nat.lt_or_ge 1 (weigh (join group)) with hlt | hle
      · exact .inr hlt
      · exact .inl (eq_of_weigh_le_one hgroup hle).symm
  · have hfill : ClauseGroups.fillEmpty sub = sub := if_neg (by simpa using hsub)
    have hne : join sub ≠ [] := fun hnil => hsub (join_eq_nil.mp hnil)
    rw [hfill, weighAlternate_of_ne_nil hne]
    rcases eq_or_weigh_join_lt_of_sublist h with rfl | hlt
    · exact .inl rfl
    · refine .inr ?_
      rwa [weighAlternate_of_ne_nil]
      intro hnil
      rw [join_eq_nil.mp hnil] at h
      exact hsub (List.sublist_nil.mp h)

theorem weighAlternate_fillEmpty_le (group : List Clause) :
    weighAlternate (join (ClauseGroups.fillEmpty group)) ≤ weigh (join group) + 1 := by
  by_cases hgroup : group = []
  · subst hgroup
    decide
  · have hfill : ClauseGroups.fillEmpty group = group := if_neg (by simpa using hgroup)
    rw [hfill, weighAlternate_of_ne_nil fun hnil => hgroup (join_eq_nil.mp hnil)]
    omega

/-! ## Merged clauses -/

theorem weigh_lead_add_one_le (c : Clause) : weigh c.lead + 1 ≤ weigh c.rows := by
  have hterminal := length_le_weigh [c.terminal]
  rw [rows, weigh_append]
  simpa using hterminal

theorem weigh_of_isMemory {c : Clause} (h : c.terminal.left.isMemory = true) :
    3 ≤ weigh c.rows :=
  weigh_of_terminal_ne fun htrue => by
    rw [htrue] at h
    cases h

/-- A clause that constrains a quantity has at least one row of full weight. -/
theorem weigh_of_valueSet? {c : Clause} {s : ValueSet} (h : c.valueSet? = some s) :
    3 ≤ weigh c.rows := by
  obtain ⟨_, _, -, hmax, -, -⟩ := valueSet?_eq_some.mp h
  have hlead : weigh c.lead = 3 * c.lead.length :=
    weigh_of_forall_ne fun r hr => ne_alwaysTrue_of_role fun hplain => by
      have hmodifier := List.all_eq_true.mp (modifiers_of_quantityMax? hmax) r hr
      rw [hplain] at hmodifier
      cases hmodifier
  rcases lead_ne_nil_or_isMemory h with hne | hmemory
  · have hpos := List.length_pos_iff.mpr hne
    have hle := c.weigh_lead_add_one_le
    omega
  · exact weigh_of_isMemory hmemory

theorem weigh_withSet?_le {c d : Clause} {s : ValueSet} (h : c.withSet? s = some d) :
    weigh d.rows ≤ weigh c.rows + 2 := by
  obtain ⟨relation, value, -, rfl⟩ := withSet?_eq_some.mp h
  have hle := weigh_le [(c.comparingTo relation value).terminal]
  have hc := c.weigh_lead_add_one_le
  rw [rows, weigh_append]
  change weigh c.lead + _ ≤ _
  simp only [List.length_singleton] at hle
  omega

/-- **What two clauses are merged to weighs less than both.** -/
theorem weigh_merge?_lt {anyHits inCore : Bool} {a b : Clause} {e : Merge}
    (h : merge? anyHits inCore a b = some e) :
    weigh (e.result a b).rows < weigh a.rows + weigh b.rows := by
  have hfirst := a.weigh_rows_pos
  have hsecond := b.weigh_rows_pos
  have hkeepFirst : weigh (Merge.keepFirst.result a b).rows < weigh a.rows + weigh b.rows :=
    Nat.lt_add_of_pos_right hsecond
  have hkeepSecond : weigh (Merge.keepSecond.result a b).rows < weigh a.rows + weigh b.rows :=
    Nat.lt_add_of_pos_left hfirst
  -- Only clauses merged by their values become a new one, and both compare a read then.
  rcases merge?_cases h with ⟨-, rfl⟩ | ⟨-, ⟨-, rfl⟩ | ⟨-, -, ⟨-, ⟨rfl, -⟩ | ⟨rfl, -⟩⟩ | hvalues⟩⟩
  · exact hkeepFirst
  · exact hkeepFirst
  · exact hkeepFirst
  · exact hkeepSecond
  · obtain ⟨-, -, s, t, hs, ht, hmerge⟩ := mergeByValues_cases hvalues
    have hs := weigh_of_valueSet? hs
    have ht := weigh_of_valueSet? ht
    have hreplace {c : Clause} {set : ValueSet} (hc : a.withSet? set = some c) :
        weigh ((Merge.replace c).result a b).rows < weigh a.rows + weigh b.rows := by
      have hle := weigh_withSet?_le hc
      change weigh c.rows < _
      omega
    rcases hmerge with ⟨-, hmerge⟩ | ⟨-, hmerge⟩
    · rcases mergeFilters_cases hmerge with ⟨rfl, -⟩ | ⟨rfl, -⟩ | ⟨rfl, -⟩ | ⟨c, rfl, hc⟩
      · exact hkeepFirst
      · exact hkeepSecond
      · change 3 < _
        omega
      · exact hreplace hc
    · rcases mergeGuards_cases hmerge with ⟨rfl, -⟩ | ⟨rfl, -⟩ | ⟨c, rfl, hc⟩
      · exact hkeepFirst
      · exact hkeepSecond
      · exact hreplace hc

theorem weigh_join_cons (c : Clause) (rest : List Clause) :
    weigh (join (c :: rest)) = weigh c.rows + weigh (join rest) := by
  rw [join_cons, weigh_append]

theorem length_le_weigh_join {k : Nat} {group : List Clause}
    (h : ∀ c ∈ group, k ≤ weigh c.rows) : k * group.length ≤ weigh (join group) := by
  induction group with
  | nil => exact Nat.zero_le _
  | cons c rest ih =>
    obtain ⟨hc, hrest⟩ := List.forall_mem_cons.mp h
    have hsum := ih hrest
    rw [weigh_join_cons, List.length_cons, Nat.mul_succ]
    omega

theorem mergeOverlaps_eq_or_lt (anyHits inCore : Bool) (group : List Clause) :
    (mergeOverlaps anyHits inCore group).value = group ∨
      weigh (join (mergeOverlaps anyHits inCore group).value) < weigh (join group) := by
  refine Logged.exhaust_eq_or_lt (fun group => weigh (join group)) (fun before after event h => ?_)
    _ group
  obtain ⟨a, b, e, rest, hmerge, hperm, hperm'⟩ := mergeStep_eq_some h
  have hlt := weigh_merge?_lt hmerge
  simp only [weigh_perm (perm_join hperm), weigh_perm (perm_join hperm'), weigh_join_cons]
  omega

/-- The tests of the parts of a whole are together heavier than the test of the whole. -/
theorem weigh_bitStep_lt {group group' : List Clause} {event : Event}
    (h : bitStep group = some (group', event)) : weigh (join group') < weigh (join group) := by
  obtain ⟨found, parts, hwhole, rfl⟩ := bitStep_eq_some h
  obtain ⟨rest, hperm, hperm'⟩ := hwhole.perm_replaceAt (single found.2.row)
  have hwhole_le : weigh (single found.2.row).rows ≤ 3 := weigh_le (single found.2.row).rows
  have hparts : ∀ c ∈ (parts.map Prod.snd).filterMap (group[·]?), 3 ≤ weigh c.rows := by
    intro c hc
    obtain ⟨p, -, htest⟩ := hwhole.exists_part hc
    have hmade := EqualityTest.isMadeBy_of_ofClause? htest
    exact weigh_of_isMemory (hmade.left ▸ hmade.isMemory)
  have hlength : ((parts.map Prod.snd).filterMap (group[·]?)).length = parts.length := by
    rw [List.filterMap_length_eq_length.mpr, List.length_map]
    intro place hplace
    obtain ⟨p, hp, rfl⟩ := List.mem_map.mp hplace
    obtain ⟨d, hd, -⟩ := hwhole.clause p hp
    rw [hd]
    rfl
  have htwo := hwhole.two_le
  have hle := length_le_weigh_join hparts
  rw [weigh_perm (perm_join hperm), weigh_perm (perm_join hperm'), join_append, weigh_append,
    weigh_join_cons]
  omega

theorem mergeBitTests_eq_or_lt (group : List Clause) :
    (mergeBitTests group).value = group ∨
      weigh (join (mergeBitTests group).value) < weigh (join group) :=
  Logged.exhaust_eq_or_lt (fun group => weigh (join group)) (fun _ _ _ h => weigh_bitStep_lt h)
    _ group

/-! ## Resets of an alternate -/

/-- The clauses of a group that stay when its resets become filters of the core. -/
def unfiltered (group : List Clause) : List Clause :=
  group.filter fun c => (c.filtersFor? .resetIf).isNone

/-- The filters of a group and what stays of it weigh no more than the group. -/
theorem weigh_resetFilters_add_le (group : List Clause) :
    weigh (join (resetFilters group)) + weigh (join (unfiltered group)) ≤ weigh (join group) := by
  induction group with
  | nil => exact Nat.le_refl _
  | cons c rest ih =>
    have hfilters : resetFilters (c :: rest) =
        (c.filtersFor? .resetIf).getD [] ++ resetFilters rest := rfl
    rw [hfilters, join_append, weigh_append, unfiltered, List.filter_cons, weigh_join_cons]
    cases h : c.filtersFor? .resetIf with
    | none =>
      simp only [Option.getD_none, Option.isNone_none, if_true, weigh_join_cons]
      rw [unfiltered] at ih
      change 0 + _ + _ ≤ _
      omega
    | some filters =>
      obtain ⟨hrole, hinverted⟩ := filtersFor?_eq_some.mp h
      obtain ⟨hle, -, -⟩ := weigh_inverted?_le (by rw [hrole]; rfl) hinverted
      simp only [Option.getD_some, Option.isNone_some, Bool.false_eq_true, if_false]
      rw [unfiltered] at ih
      omega

/-- Either nothing is turned into filters, or a guard leaves the group. -/
theorem unfiltered_eq_or_lt (group : List Clause) :
    (resetFilters group = [] ∧ unfiltered group = group) ∨
      weigh (join (unfiltered group)) + 3 ≤ weigh (join group) := by
  by_cases hnone : ∀ c ∈ group, (c.filtersFor? .resetIf).isNone = true
  · refine .inl ⟨List.flatMap_eq_nil_iff.mpr fun c hc => ?_, List.filter_eq_self.mpr hnone⟩
    rw [Option.isNone_iff_eq_none.mp (hnone c hc)]
    rfl
  · simp only [not_forall, Bool.not_eq_true, Option.isNone_eq_false_iff] at hnone
    obtain ⟨c, hc, hsome⟩ := hnone
    obtain ⟨filters, h⟩ := Option.isSome_iff_exists.mp hsome
    have hguard : c.role.isGuard = true := by
      rw [(filtersFor?_eq_some.mp h).1]
      rfl
    have hgone : c ∈ group.filter fun c => !(c.filtersFor? .resetIf).isNone :=
      List.mem_filter.mpr ⟨hc, by rw [h]; rfl⟩
    have hheavy := weigh_of_terminal_ne (terminal_ne_of_isGuard hguard)
    have hsplit := weigh_join_filter (fun c => (c.filtersFor? .resetIf).isNone) group
    have hone := weigh_join_le_of_sublist (List.singleton_sublist.mpr hgone)
    rw [weigh_join_cons] at hone
    refine .inr ?_
    rw [unfiltered]
    omega

/-- **Moving the filters of an alternate to the core makes the trigger lighter**, even where the
alternate is filled. -/
theorem withoutResetFilters_eq_or_lt (group : List Clause) :
    (resetFilters group = [] ∧ join (withoutResetFilters group) = join group) ∨
      weigh (join (resetFilters group)) + 2 * weighAlternate (join (withoutResetFilters group)) <
        2 * weighAlternate (join group) := by
  have hwithout : withoutResetFilters group = ClauseGroups.fillEmpty (unfiltered group) := rfl
  rw [hwithout]
  rcases unfiltered_eq_or_lt group with ⟨hnone, hsame⟩ | hlt
  · rw [hsame]
    rcases fillEmpty_eq_or_lower (List.Sublist.refl group) with heq | hlt
    · exact .inl ⟨hnone, heq⟩
    · refine .inr ?_
      rw [hnone]
      change 0 + _ < _
      omega
  · have hle := weigh_resetFilters_add_le group
    have hfill := weighAlternate_fillEmpty_le (unfiltered group)
    have hgroup : join group ≠ [] := by
      intro hnil
      rw [hnil] at hlt
      simp [weigh] at hlt
    refine .inr ?_
    rw [weighAlternate_of_ne_nil hgroup]
    omega

end Clause

/-! ## Rewriting group by group -/

theorem Row.Lower.le {weight : List Row → Nat} {a b : List Row} (h : Row.Lower weight a b) :
    weight a ≤ weight b := by
  simp only [Lower] at h
  omega

theorem Row.weighAlternate_pos (rows : List Row) : 0 < weighAlternate rows := by
  unfold weighAlternate
  split
  · exact Nat.two_pos
  · rename_i hne
    exact Nat.lt_of_lt_of_le (List.length_pos_iff.mpr hne) (length_le_weigh rows)

/-- Nothing is lower than `1=1` as an alternate. -/
theorem Row.not_lower_alwaysTrue (rows : List Row) : ¬ Lower weighAlternate rows [alwaysTrue] := by
  have hpos := weighAlternate_pos rows
  have hweight : weighAlternate [alwaysTrue] = 1 := rfl
  have hguards : countGuards [alwaysTrue] = 0 := rfl
  have hsettled : unsettled [alwaysTrue] = 0 := by decide
  simp only [Lower]
  omega

/-- There are several alternates, and all of them are `1=1`. -/
structure Trigger.AllTrue (t : Trigger) : Prop where
  two_le : 2 ≤ t.alternates.length
  eq : ∀ rows ∈ t.alternates, rows = [.alwaysTrue]

namespace ClauseGroups
open Clause Row Trigger

section Groupwise
variable {g : ClauseGroups} {core : List Clause} {f : List Clause → List Clause}

theorem atMost_map (hcore : join core = join g.core ∨ Lower weigh (join core) (join g.core))
    (h : ∀ a ∈ g.alternates, join (f a) = join a ∨ Lower weighAlternate (join (f a)) (join a)) :
    AtMost (toTrigger ⟨core, g.alternates.map f⟩) g.toTrigger := by
  have hgroups := atMost_of_groups hcore h
  rwa [show toTrigger ⟨core, g.alternates.map f⟩ = ⟨join core, g.alternates.map fun a => join (f a)⟩
    by simp [toTrigger, Function.comp_def]]

theorem allTrue_map (hall : g.toTrigger.AllTrue)
    (h : ∀ a ∈ g.alternates, join (f a) = join a ∨ Lower weighAlternate (join (f a)) (join a)) :
    (toTrigger ⟨core, g.alternates.map f⟩).AllTrue := by
  refine ⟨by simpa [toTrigger] using hall.two_le, fun rows hrows => ?_⟩
  obtain ⟨_, hmem, rfl⟩ := List.mem_map.mp hrows
  obtain ⟨a, ha, rfl⟩ := List.mem_map.mp hmem
  have htrue : join a = [.alwaysTrue] := hall.eq _ (List.mem_map_of_mem ha)
  rcases h a ha with heq | hlower
  · rw [heq, htrue]
  · rw [htrue] at hlower
    exact absurd hlower (not_lower_alwaysTrue _)

end Groupwise

/-! ### Guards -/

theorem atMost_filterPauses (g : ClauseGroups) :
    AtMost (toTrigger ⟨filterPauses g.core, g.alternates.map filterPauses⟩) g.toTrigger := by
  have hgroup (group : List Clause) : join (filterPauses group) = join group ∨
      Lower weigh (join (filterPauses group)) (join group) := by
    unfold filterPauses
    split
    · exact .inl rfl
    · exact (invertRole_eq_or_lower rfl group).imp_left (congrArg join)
  refine atMost_map (hgroup g.core) fun a _ => eq_or_lower_alternate (fun hnil => ?_) (hgroup a)
  have hnil := join_eq_nil.mp hnil
  refine join_eq_nil.mpr ?_
  unfold filterPauses at hnil
  split at hnil
  · exact hnil
  · exact invertRole_eq_nil rfl hnil

/-- What moves from the alternates to the core, and what the alternates lose. -/
theorem filterResets_alternates_eq_or_lt (alternates : List (List Clause)) :
    let moved := (alternates.filter fun group => !anyRole group .pauseIf).flatMap resetFilters
    let kept := alternates.map fun group =>
      join (if anyRole group .pauseIf then group else withoutResetFilters group)
    (moved = [] ∧ kept = alternates.map join) ∨
      weigh (join moved) + 2 * total weighAlternate kept <
        2 * total weighAlternate (alternates.map join) := by
  induction alternates with
  | nil => exact .inl ⟨rfl, rfl⟩
  | cons a rest ih =>
    intro moved kept
    -- A paused alternate keeps its resets; any other hands them over as filters.
    by_cases hpause : anyRole a .pauseIf = true
    · simp only [moved, kept, List.filter_cons, List.map_cons, hpause, Bool.not_true,
        Bool.false_eq_true, if_true, if_false, total]
      rcases ih with ⟨hmoved, hkept⟩ | hlt
      · exact .inl ⟨hmoved, by rw [hkept]⟩
      · exact .inr (by omega)
    · simp only [moved, kept, List.filter_cons, List.map_cons, Bool.not_eq_true _ ▸ hpause,
        Bool.not_false, Bool.false_eq_true, if_true, if_false, total, List.flatMap_cons,
        join_append, weigh_append]
      rcases withoutResetFilters_eq_or_lt a with ⟨hnone, hsame⟩ | hlt
      · rw [hnone, hsame]
        rcases ih with ⟨hmoved, hkept⟩ | hlt
        · exact .inl ⟨by simpa using hmoved, by rw [hkept]⟩
        · refine .inr ?_
          change 0 + _ + _ < _
          omega
      · refine .inr ?_
        rcases ih with ⟨hmoved, hkept⟩ | hlt'
        · rw [hmoved, hkept]
          change _ + 0 + _ < _
          omega
        · omega

theorem atMost_filterResets (g : ClauseGroups) : AtMost g.filterResets.toTrigger g.toTrigger := by
  have hcore := invertRole_eq_or_lower (show Role.isGuard .resetIf = true from rfl) g.core
  have halternates := filterResets_alternates_eq_or_lt g.alternates
  simp only at halternates
  have htrigger : g.filterResets.toTrigger =
      ⟨join (invertRole .resetIf g.core) ++
          join ((g.alternates.filter fun group => !anyRole group .pauseIf).flatMap resetFilters),
        g.alternates.map fun group =>
          join (if anyRole group .pauseIf then group else withoutResetFilters group)⟩ := by
    simp [toTrigger, filterResets, join_append, Function.comp_def]
  rw [htrigger]
  rcases halternates with ⟨hmoved, hkept⟩ | hlt
  · rw [hmoved, hkept, show join [] = [] from rfl, List.append_nil]
    exact atMost_of_groups (hcore.imp_left (congrArg join)) fun _ _ => .inl rfl
  · have hle : weigh (join (invertRole .resetIf g.core)) ≤ weigh (join g.core) := by
      rcases hcore with heq | hlower
      · rw [heq]
      · exact hlower.le
    refine .inr (below_of_weight (by simp [toTrigger]) ?_)
    simp only [weight, toTrigger, weigh_append]
    omega

/-- **Turning guards into filters lowers a trigger that it changes.** -/
theorem atMost_filterGuards (g : ClauseGroups) : AtMost g.filterGuards.toTrigger g.toTrigger := by
  unfold filterGuards
  refine (atMost_filterPauses _).trans ?_
  split
  · exact .refl _
  · exact atMost_filterResets g

/-! ### Shared clauses -/

/-- What moving clauses to the core does: some clauses leave every alternate, and the core gains at
most their weight. -/
theorem promoteAll_spec (pausing : Bool) (cs : List Clause) (g : ClauseGroups) :
    ∃ promoted : List Clause,
      (promoteAll pausing cs g).value.alternates = g.alternates.map (·.diff promoted) ∧
      (∀ a ∈ g.alternates, (promoted ++ a.diff promoted).Perm a) ∧
      weigh (join (promoteAll pausing cs g).value.core) ≤
        weigh (join g.core) + weigh (join promoted) ∧
      (promoted = [] → (promoteAll pausing cs g).value.core = g.core) := by
  induction cs generalizing g with
  | nil => exact ⟨[], by simp [promoteAll], by simp, Nat.le_refl _, fun _ => rfl⟩
  | cons c rest ih =>
    obtain ⟨promoted, halternates, hperm, hcore, hsame⟩ := ih (promote pausing g c).value
    have hrest : (promoteAll pausing (c :: rest) g).value =
        (promoteAll pausing rest (promote pausing g c).value).value := rfl
    rw [hrest]
    unfold promote at halternates hperm hcore hsame ⊢
    split at halternates
    -- The clause is in every alternate and leaves all of them.
    · rename_i hshared
      have hmem : ∀ a ∈ g.alternates, c ∈ a := by
        simpa using (Bool.and_eq_true_iff.mp hshared).2
      simp only [hshared, if_true, Logged.value_bind, Logged.value_pure] at halternates hperm hcore ⊢
      refine ⟨c :: promoted, ?_, fun a ha => ?_, ?_, by simp⟩
      · rw [halternates, List.map_map]
        exact List.map_congr_left fun a _ => (List.diff_cons a promoted c).symm
      · rw [List.diff_cons, List.cons_append]
        exact ((hperm _ (List.mem_map_of_mem ha)).cons c).trans
          (List.perm_cons_erase (hmem a ha)).symm
      · have hadd : weigh (join (if g.core.contains c then g.core else g.core ++ [c])) ≤
            weigh (join g.core) + weigh c.rows := by
          split
          · exact Nat.le_add_right _ _
          · rw [join_append, weigh_append, weigh_join_cons]
            exact Nat.le_refl _
        rw [weigh_join_cons]
        omega
    · rename_i hshared
      simp only [hshared, Bool.false_eq_true, if_false, Logged.value_pure] at hperm hcore hsame ⊢
      exact ⟨promoted, halternates, hperm, hcore, hsame⟩

theorem atMost_dropTrueCore (g : ClauseGroups) : AtMost g.dropTrueCore.toTrigger g.toTrigger := by
  unfold dropTrueCore
  split
  · rename_i hcore
    have hcore : g.core = alwaysTrueGroup := by simpa using (Bool.and_eq_true_iff.mp hcore).2
    refine atMost_of_groups (.inr (.inl ?_)) fun _ _ => .inl rfl
    rw [hcore]
    exact Nat.zero_lt_one
  · exact .refl _

section Promoted
variable {promoted a : List Clause}

theorem weighAlternate_of_promoted (hpos : 1 ≤ weigh (join promoted))
    (hperm : (promoted ++ a.diff promoted).Perm a) :
    weighAlternate (join a) = weigh (join promoted) + weigh (join (a.diff promoted)) := by
  have hsum := weigh_perm (perm_join hperm)
  rw [join_append, weigh_append] at hsum
  rw [weighAlternate_of_ne_nil, hsum]
  intro hnil
  rw [hnil, show weigh [] = 0 from rfl] at hsum
  omega

/-- An alternate that loses clauses gets lighter, but for `1=1`, which is put back. -/
theorem weighAlternate_lt_of_promoted (hpos : 1 ≤ weigh (join promoted))
    (hperm : (promoted ++ a.diff promoted).Perm a) (htrue : join a ≠ [.alwaysTrue]) :
    weighAlternate (join (fillEmpty (a.diff promoted))) < weighAlternate (join a) := by
  rcases fillEmpty_eq_or_lower (List.diff_sublist a promoted) with heq | hlt
  · by_cases hnil : a.diff promoted = []
    · rw [hnil] at heq
      exact absurd heq.symm htrue
    · have hfill : fillEmpty (a.diff promoted) = a.diff promoted := if_neg (by simpa using hnil)
      rw [weighAlternate_of_promoted hpos hperm, hfill,
        weighAlternate_of_ne_nil fun h => hnil (join_eq_nil.mp h)]
      omega
  · exact hlt

end Promoted

/-- Clauses that leave at least two alternates and come to the core once make the trigger lighter,
unless they leave nothing but `1=1` behind and were `1=1` themselves. -/
theorem below_or_allTrue_of_promoted {g : ClauseGroups} {core promoted : List Clause}
    (hne : promoted ≠ []) (htwo : 2 ≤ g.alternates.length)
    (hperm : ∀ a ∈ g.alternates, (promoted ++ a.diff promoted).Perm a)
    (hcore : weigh (join core) ≤ weigh (join g.core) + weigh (join promoted)) :
    Below (toTrigger ⟨core, g.alternates.map fun a => fillEmpty (a.diff promoted)⟩) g.toTrigger ∨
      g.toTrigger.AllTrue := by
  have hpos : 1 ≤ weigh (join promoted) := by
    obtain ⟨c, rest, rfl⟩ := List.exists_cons_of_ne_nil hne
    have hc := c.weigh_rows_pos
    rw [weigh_join_cons]
    omega
  -- Every alternate loses the weight of the clauses, less what an empty one is filled with.
  have hloss : ∀ a ∈ g.alternates, weighAlternate (join (fillEmpty (a.diff promoted))) +
      (weigh (join promoted) - 1) ≤ weighAlternate (join a) := by
    intro a ha
    have hfill := weighAlternate_fillEmpty_le (a.diff promoted)
    rw [weighAlternate_of_promoted hpos (hperm a ha)]
    omega
  by_cases hall : ∀ a ∈ g.alternates, join a = [.alwaysTrue]
  · exact .inr ⟨by simpa [toTrigger] using htwo, List.forall_mem_map.mpr hall⟩
  · simp only [not_forall] at hall
    obtain ⟨a, ha, htrue⟩ := hall
    -- Two alternates lose what the core gains once; where the clauses weigh as little as what fills
    -- an empty alternate, the one that is not `1=1` still gets lighter.
    have hsum := total_add_le hloss
    have hsum' := total_lt (fun b hb => Nat.le_trans (Nat.le_add_right _ _) (hloss b hb)) ha
      (weighAlternate_lt_of_promoted hpos (hperm a ha) htrue)
    have hmul := Nat.mul_le_mul_right (weigh (join promoted) - 1) htwo
    refine .inl (below_of_weight (by simp [toTrigger]) ?_)
    simp only [weight, toTrigger, List.map_map, total_map, Function.comp_def]
    omega

/-- Moving shared clauses to the core lowers the trigger, unless all alternates are `1=1` and stay
so. -/
theorem atMost_or_allTrue_promoteShared (g : ClauseGroups) :
    AtMost g.promoteShared.value.toTrigger g.toTrigger ∨
      g.promoteShared.value.toTrigger.AllTrue ∧
        g.promoteShared.value.alternates.length = g.alternates.length := by
  unfold promoteShared
  split
  · rename_i first second others hseveral
    obtain ⟨promoted, halternates, hperm, hcore, hsame⟩ := promoteAll_spec g.canPause first g
    simp only [Logged.value_bind, Logged.value_pure, halternates, List.map_map]
    have hgroups : ∀ a ∈ g.alternates, join (fillEmpty (a.diff promoted)) = join a ∨
        Lower weighAlternate (join (fillEmpty (a.diff promoted))) (join a) := fun a _ =>
      (fillEmpty_eq_or_lower (List.diff_sublist a promoted)).imp_right .inl
    by_cases hnone : promoted = []
    · exact .inl (atMost_map (.inl (by rw [hsame hnone])) hgroups)
    · have htwo : 2 ≤ g.alternates.length := by simp [hseveral]
      rcases below_or_allTrue_of_promoted hnone htwo hperm hcore with hbelow | hall
      · exact .inl (.inr hbelow)
      · exact .inr ⟨allTrue_map hall hgroups, by simp⟩
  · exact .inl (.refl _)

/-- **Moving shared clauses to the core lowers a trigger that it changes**, unless all alternates are
`1=1` and stay so. -/
theorem atMost_or_allTrue_promoted (g : ClauseGroups) :
    AtMost g.promoteShared.value.dropTrueCore.toTrigger g.toTrigger ∨
      g.promoteShared.value.dropTrueCore.toTrigger.AllTrue ∧
        g.promoteShared.value.dropTrueCore.alternates.length = g.alternates.length := by
  have halternates (g : ClauseGroups) : g.dropTrueCore.alternates = g.alternates := by
    unfold dropTrueCore
    split <;> rfl
  rcases atMost_or_allTrue_promoteShared g with hatMost | ⟨hall, hlength⟩
  · exact .inl ((atMost_dropTrueCore _).trans hatMost)
  · refine .inr ⟨⟨?_, ?_⟩, by rw [halternates, hlength]⟩
    · simpa only [toTrigger, halternates] using hall.two_le
    · simpa only [toTrigger, halternates] using hall.eq

/-! ### Repeated and overlapping clauses -/

theorem eraseDups_sublist (group : List Clause) : group.eraseDups.Sublist group := by
  induction hlength : group.length using Nat.strong_induction_on generalizing group with
  | _ n ih =>
    cases group with
    | nil => exact .slnil
    | cons c rest =>
      rw [List.eraseDups_cons]
      refine .cons_cons c ((ih _ ?_ (rest.filter fun b => !b == c) rfl).trans List.filter_sublist)
      rw [← hlength]
      exact Nat.lt_succ_of_le (List.length_filter_le _ rest)

theorem dropRepeated_alternate (core group : List Clause) :
    let kept := fillEmpty (group.eraseDups.filter fun c => !(c.isPlain && core.contains c))
    join kept = join group ∨ Lower weighAlternate (join kept) (join group) :=
  (fillEmpty_eq_or_lower (List.filter_sublist.trans (eraseDups_sublist group))).imp_right .inl

/-- **Dropping repeated clauses lowers a trigger that it changes.** -/
theorem atMost_dropRepeated (g : ClauseGroups) : AtMost g.dropRepeated.toTrigger g.toTrigger := by
  refine atMost_map ?_ fun a _ => dropRepeated_alternate _ a
  exact (eq_or_weigh_join_lt_of_sublist (eraseDups_sublist g.core)).imp (congrArg join) .inl

theorem allTrue_dropRepeated {g : ClauseGroups} (h : g.toTrigger.AllTrue) :
    g.dropRepeated.toTrigger.AllTrue :=
  allTrue_map h fun a _ => dropRepeated_alternate _ a

theorem withoutOverlaps_alternate (anyHits : Bool) (group : List Clause) :
    let merged := (mergeOverlaps anyHits false group).value
    join merged = join group ∨ Lower weighAlternate (join merged) (join group) := by
  refine eq_or_lower_alternate (fun hnil => ?_)
    ((mergeOverlaps_eq_or_lt anyHits false group).imp (congrArg join) .inl)
  by_contra hne
  exact mergeOverlaps_ne_nil (fun h => hne (join_eq_nil.mpr h)) (join_eq_nil.mp hnil)

/-- **Merging clauses of one quantity lowers a trigger that it changes.** -/
theorem atMost_withoutOverlaps (g : ClauseGroups) :
    AtMost g.withoutOverlaps.toTrigger g.toTrigger :=
  atMost_map ((mergeOverlaps_eq_or_lt _ true g.core).imp (congrArg join) .inl)
    fun a _ => withoutOverlaps_alternate _ a

theorem allTrue_withoutOverlaps {g : ClauseGroups} (h : g.toTrigger.AllTrue) :
    g.withoutOverlaps.toTrigger.AllTrue :=
  allTrue_map h fun a _ => withoutOverlaps_alternate _ a

/-- **Merging bit tests lowers a trigger that it changes.** -/
theorem atMost_withWholes (g : ClauseGroups) : AtMost g.withWholes.toTrigger g.toTrigger := by
  have hgroup (group : List Clause) : join (mergeBitTests group).value = join group ∨
      Lower weigh (join (mergeBitTests group).value) (join group) :=
    (mergeBitTests_eq_or_lt group).imp (congrArg join) .inl
  refine atMost_map (hgroup g.core) fun a _ => eq_or_lower_alternate (fun hnil => ?_) (hgroup a)
  by_contra hne
  exact mergeBitTests_ne_nil (fun h => hne (join_eq_nil.mpr h)) (join_eq_nil.mp hnil)

end ClauseGroups
end MemoryTrigger

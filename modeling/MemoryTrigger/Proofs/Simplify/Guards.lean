import MemoryTrigger.Proofs.ClauseMeaning
import MemoryTrigger.Proofs.Simplify.Provenance

/-! # Resets and pauses as filters

A reset that holds makes the trigger false, and so does the filter with the negated comparison, as
long as nothing pauses the group of the reset.  That is why the filters of an alternate's resets may
stand in the core: an alternate without pauses always resets when it should.  A pause makes its
group false, and a filter in its place does the same; that the group's resets are then no longer
ignored does not show where there are none.

Nothing here needs the clauses to be of any particular form, because `Clause.inverted?` only gives
filters where they say the opposite of the clause. -/
namespace MemoryTrigger

namespace Clause

variable (m : Memory)

/-- The filters of an inverted clause pass when the clause does not hold. -/
theorem passesIn_inverted? {c : Clause} {filters : List Clause} (h : c.inverted? = some filters) :
    passesIn m filters = !c.holdsIn m := by
  rw [passesIn_of_plain m fun d hd => role_of_isPlain (isPlain_of_mem_inverted? h hd),
    all_holdsIn_inverted? m h]

/-- Only guards turn into filters. -/
theorem filtersFor?_of_isTruthy {c : Clause} {role : Role} (h : c.role.isTruthy = true)
    (hrole : role.isGuard = true) : c.filtersFor? role = none := by
  have hne : (c.role == role) = false := by
    cases role <;> cases hc : c.role <;> simp_all [Role.isGuard, Role.isTruthy]
  rw [filtersFor?, hne]
  rfl

theorem invertRole_of_plain {role : Role} (hrole : role.isGuard = true) {group : List Clause}
    (h : ∀ c ∈ group, c.role = .plain) : invertRole role group = group := by
  have hkept : ∀ c ∈ group, (c.filtersFor? role).getD [c] = [c] := by
    intro c hc
    have htruthy : c.role.isTruthy = true := by
      rw [h c hc]
      rfl
    rw [filtersFor?_of_isTruthy htruthy hrole]
    rfl
  rw [invertRole, List.flatMap_def, List.map_congr_left hkept, ← List.flatMap_def,
    List.flatMap_singleton']

/-- Guards that are turned into filters pass as before. -/
theorem passesIn_invertRole {role : Role} (hrole : role.isGuard = true) (group : List Clause) :
    passesIn m (invertRole role group) = passesIn m group := by
  apply passesIn_flatMap
  intro c _
  cases h : c.filtersFor? role with
  | none => rfl
  | some filters =>
    obtain ⟨hc, hinv⟩ := filtersFor?_eq_some.mp h
    rw [Option.getD_some, passesIn_inverted? m hinv, passesIn_guard m (hc ▸ hrole)]

/-- Turning clauses of one role into filters makes no clause of another role than plain. -/
theorem role_of_mem_invertRole {role : Role} {group : List Clause} {d : Clause}
    (h : d ∈ invertRole role group) : d ∈ group ∨ d.role = .plain := by
  rcases mem_invertRole h with hd | ⟨c, -, -, filters, hinverted, hd⟩
  · exact .inl hd
  · exact .inr (role_of_isPlain (isPlain_of_mem_inverted? hinverted hd))

/-! ## Resets of an alternate -/

/-- The filters that an alternate hands to the core pass when none of its resets that can be turned
into filters holds. -/
theorem passesIn_resetFilters (group : List Clause) :
    passesIn m (resetFilters group) = true ↔
      ∀ c ∈ group, (c.filtersFor? .resetIf).isSome = true → c.holdsIn m = false := by
  induction group with
  | nil => simp [resetFilters, passesIn_iff]
  | cons c rest ih =>
    change passesIn m ((c.filtersFor? .resetIf).getD [] ++ resetFilters rest) = true ↔ _
    rw [passesIn_append, Bool.and_eq_true, ih, List.forall_mem_cons]
    cases h : c.filtersFor? .resetIf with
    | none => simp [passesIn_iff]
    | some filters =>
      rw [Option.getD_some, passesIn_inverted? m (filtersFor?_eq_some.mp h).2]
      simp

/-- The rest of an alternate agrees with its clauses that are no filters of the core. -/
theorem agreeIn_withoutResetFilters (group : List Clause) :
    AgreeIn m (withoutResetFilters group)
      (group.filter fun c => (c.filtersFor? .resetIf).isNone) := by
  unfold withoutResetFilters
  simp only
  split
  · rename_i hempty
    rw [List.isEmpty_iff.mp hempty]
    exact agreeIn_alwaysTrueGroup m
  · exact .refl _

/-- An alternate that cannot pause resets when one of the filters it hands to the core fails, or when
what is left of it resets. -/
theorem resetsIn_eq_false_iff {group : List Clause} (h : anyRole group .pauseIf = false) :
    resetsIn m group = false ↔
      passesIn m (resetFilters group) = true ∧ resetsIn m (withoutResetFilters group) = false := by
  have hpaused := isPausedIn_of_anyRole_eq_false m h
  have hpaused' : isPausedIn m (group.filter fun c => (c.filtersFor? .resetIf).isNone) = false :=
    (not_isPausedIn_iff m).mpr fun c hc =>
      (not_isPausedIn_iff m).mp hpaused c (List.mem_filter.mp hc).1
  rw [(agreeIn_withoutResetFilters m group).resets, passesIn_resetFilters, ← Bool.not_eq_true,
    ← Bool.not_eq_true, resetsIn_iff, resetsIn_iff]
  simp only [hpaused, hpaused', true_and, not_exists, not_and, Bool.not_eq_true,
    List.mem_filter, and_imp, Option.isNone_iff_eq_none]
  constructor
  · intro hall
    refine ⟨fun c hc hsome => ?_, fun c hc _ => hall c hc⟩
    obtain ⟨filters, hfilters⟩ := Option.isSome_iff_exists.mp hsome
    exact hall c hc (filtersFor?_eq_some.mp hfilters).1
  · rintro ⟨hsome, hnone⟩ c hc hrole
    cases hfilters : c.filtersFor? .resetIf with
    | none => exact hnone c hc hfilters hrole
    | some filters => exact hsome c hc (by rw [hfilters]; rfl)

/-- Handing resets to the core does not change what has to hold in an alternate. -/
theorem allHoldIn_withoutResetFilters (group : List Clause) :
    allHoldIn m (withoutResetFilters group) = allHoldIn m group := by
  have hkept : ∀ c ∈ group, c.role ≠ .resetIf →
      c ∈ group.filter fun c => (c.filtersFor? .resetIf).isNone := by
    intro c hc hrole
    refine List.mem_filter.mpr ⟨hc, ?_⟩
    cases hfilters : c.filtersFor? .resetIf with
    | none => rfl
    | some filters => exact absurd (filtersFor?_eq_some.mp hfilters).1 hrole
  rw [(agreeIn_withoutResetFilters m group).holds, Bool.eq_iff_iff, allHoldIn_iff, allHoldIn_iff,
    not_isPausedIn_iff, not_isPausedIn_iff]
  constructor
  · rintro ⟨hpause, hall⟩
    refine ⟨fun c hc hrole => hpause c (hkept c hc (by simp [hrole])) hrole, ?_⟩
    intro c hc htruthy
    refine hall c (hkept c hc ?_) htruthy
    rintro hrole
    rw [hrole] at htruthy
    cases htruthy
  · rintro ⟨hpause, hall⟩
    exact ⟨fun c hc => hpause c (List.mem_filter.mp hc).1,
      fun c hc => hall c (List.mem_filter.mp hc).1⟩

end Clause

namespace ClauseGroups
open Clause
variable (m : Memory)

theorem passesIn_flatMap_resetFilters (alternates : List (List Clause)) :
    passesIn m (alternates.flatMap resetFilters) = true ↔
      ∀ a ∈ alternates, passesIn m (resetFilters a) = true := by
  induction alternates with
  | nil => simp [passesIn_iff]
  | cons a rest ih =>
    rw [List.flatMap_cons, passesIn_append, Bool.and_eq_true, ih, List.forall_mem_cons]

/-- **Resets as filters of the core** make the trigger false in the same frames. -/
theorem firesIn_filterResets (g : ClauseGroups) : g.filterResets.firesIn m = g.firesIn m := by
  have hcore := passesIn_invertRole m (show Role.isGuard .resetIf = true from rfl) g.core
  have hholds : ∀ a, allHoldIn m
      (if anyRole a .pauseIf = true then a else withoutResetFilters a) = allHoldIn m a := by
    intro a
    split
    · rfl
    · exact allHoldIn_withoutResetFilters m a
  rw [Bool.eq_iff_iff, firesIn_iff, firesIn_iff]
  simp only [filterResets, passesIn_append, hcore, Bool.and_eq_true,
    passesIn_flatMap_resetFilters, List.mem_filter, Bool.not_eq_true', List.forall_mem_map,
    List.isEmpty_map, List.any_map, Function.comp_def, hholds]
  constructor
  · rintro ⟨⟨hcore, hfilters⟩, hresets, hsome⟩
    refine ⟨hcore, fun a ha => ?_, hsome⟩
    have hrest := hresets a ha
    cases hpause : anyRole a .pauseIf with
    | true => simpa [hpause] using hrest
    | false =>
      rw [hpause, if_neg (by simp)] at hrest
      exact (resetsIn_eq_false_iff m hpause).mpr ⟨hfilters a ⟨ha, hpause⟩, hrest⟩
  · rintro ⟨hcore, hresets, hsome⟩
    refine ⟨⟨hcore, fun a ha => ?_⟩, fun a ha => ?_, hsome⟩
    · exact ((resetsIn_eq_false_iff m ha.2).mp (hresets a ha.1)).1
    · cases hpause : anyRole a .pauseIf with
      | true => simpa using hresets a ha
      | false =>
        rw [if_neg (by simp)]
        exact ((resetsIn_eq_false_iff m hpause).mp (hresets a ha)).2

theorem passesIn_filterPauses (group : List Clause) :
    passesIn m (filterPauses group) = passesIn m group := by
  unfold filterPauses
  split
  · rfl
  · exact passesIn_invertRole m rfl group

/-- A group whose pauses become filters has no resets, so that it resets as little as before and
holds in the same frames. -/
theorem filterPauses_facts (group : List Clause) :
    Clause.resetsIn m (filterPauses group) = Clause.resetsIn m group ∧
      allHoldIn m (filterPauses group) = allHoldIn m group := by
  by_cases hsensitive : isPauseSensitive group = true
  · rw [filterPauses, if_pos hsensitive]
    exact ⟨rfl, rfl⟩
  · have hreset : anyRole group .resetIf = false := by
      simp only [isPauseSensitive, Bool.or_eq_true, not_or, Bool.not_eq_true] at hsensitive
      exact hsensitive.1.2
    have hgroup := role_ne_of_anyRole_eq_false hreset
    have hfiltered : ∀ c ∈ filterPauses group, c.role ≠ .resetIf := by
      intro c hc
      rw [filterPauses, if_neg hsensitive] at hc
      rcases role_of_mem_invertRole hc with hc | hrole
      · exact hgroup c hc
      · simp [hrole]
    refine ⟨?_, ?_⟩
    · rw [resetsIn_of_anyRole_eq_false m hreset, ← Bool.not_eq_true, resetsIn_iff]
      rintro ⟨-, c, hc, hrole, -⟩
      exact hfiltered c hc hrole
    · rw [allHoldIn_eq_passesIn m hfiltered, allHoldIn_eq_passesIn m hgroup,
        passesIn_filterPauses]

/-- **Resets and pauses that guard nothing may become filters**: the trigger fires as before,
whatever its clauses are. -/
theorem firesIn_filterGuards (g : ClauseGroups) : g.filterGuards.firesIn m = g.firesIn m := by
  have hpauses : ∀ g : ClauseGroups,
      (ClauseGroups.mk (filterPauses g.core) (g.alternates.map filterPauses)).firesIn m =
        g.firesIn m := by
    intro g
    refine firesIn_congr (passesIn_filterPauses m g.core) (by simp) ?_ ?_
    · simp only [List.any_map, Function.comp_def, fun a => (filterPauses_facts m a).1]
    · simp only [List.any_map, Function.comp_def, fun a => (filterPauses_facts m a).2]
  unfold filterGuards
  simp only
  split
  · exact hpauses g
  · rw [hpauses, firesIn_filterResets]

/-- Filters alone stay as they are. -/
theorem filterGuards_of_plain {core : List Clause} (h : ∀ c ∈ core, c.role = .plain) :
    filterGuards ⟨core, []⟩ = ⟨core, []⟩ := by
  have hkept : invertRole .resetIf core = core := invertRole_of_plain rfl h
  have hresets : filterResets ⟨core, []⟩ = ⟨core, []⟩ := by simp [filterResets, hkept]
  have hpauses : filterPauses core = core := by
    rw [filterPauses, invertRole_of_plain rfl h, ite_self]
  rw [filterGuards, hresets, ite_self]
  simp [hpauses]

theorem trigger_normalizeGuards (t : Trigger) :
    (normalizeGuards.run t).trigger = (ofTrigger t).filterGuards.toTrigger := rfl

end ClauseGroups
end MemoryTrigger

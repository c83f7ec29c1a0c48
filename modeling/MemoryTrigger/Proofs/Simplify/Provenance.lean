import MemoryTrigger.Proofs.GroupMeaning
import MemoryTrigger.Simplify.Guards
import MemoryTrigger.ValueSet

/-! # Where clauses come from

A pass keeps clauses, and the clauses that it makes are of few kinds: the two constant rows, the
filters of an inverted clause, a clause that is not measured with another comparison on its terminal
row, and an equality test of a read.  A property of clauses that survives these steps
(`Clause.Closed`) survives every pass, which each pass states for itself as a fact about
`ClauseGroups.All`.  Most such properties are about the rows of a clause (`Row.Preserved`). -/
namespace MemoryTrigger

theorem Role.isMeasured_of_isGuard {role : Role} (h : role.isGuard = true) :
    role.isMeasured = false := by
  revert h
  cases role <;> simp [isGuard, isMeasured]

/-- A property that holds of the clauses a pass makes, given that it holds of those it makes them
from. -/
structure Clause.Closed (P : Clause → Prop) : Prop where
  alwaysTrue : P (single .alwaysTrue)
  alwaysFalse : P (single .alwaysFalse)
  inverted : ∀ {c d : Clause} {filters : List Clause},
    P c → c.inverted? = some filters → d ∈ filters → P d
  withSet : ∀ {c d : Clause} {s t : ValueSet},
    P c → c.role.isMeasured = false → c.valueSet? = some s → c.withSet? t = some d → P d
  equalityTest : ∀ {o : Operand} (value : UInt32),
    o.isMemory = true → P (single (.comparing o .eq (.literal value)))

namespace Clause

theorem Closed.congr {P Q : Clause → Prop} (hP : Closed P) (h : ∀ c, P c ↔ Q c) : Closed Q := by
  obtain rfl : P = Q := funext fun c => propext (h c)
  exact hP

theorem isTerminated_single {r : Row} (h : r.role.isCombining = false) :
    (single r).IsTerminated :=
  ⟨fun _ hr => absurd hr List.not_mem_nil, h⟩

end Clause

theorem Role.isModifier_of_not_isCombining {role : Role} (h : role.isCombining = false) :
    role.isModifier = false := by
  revert h
  cases role <;> simp [isCombining, isModifier]

/-- A property of rows that the rows of the clauses a pass makes have, given that those it makes them
from do. -/
structure Row.Preserved (P : Row → Prop) : Prop where
  alwaysTrue : P .alwaysTrue
  alwaysFalse : P .alwaysFalse
  inverted : ∀ {r : Row}, P r → r.role.isModifier = false → r.isComparison = true → P r.inverted
  bounded : ∀ {r : Row} (relation : Relation) (value : UInt32), P r → r.role.isMeasured = false →
    r.role.isModifier = false →
      P { r with operator := .compare relation, right := { r.right with value } }
  equalityTest : ∀ {o : Operand} (value : UInt32),
    o.isMemory = true → P (.comparing o .eq (.literal value))

namespace Clause

/-- The rows of clauses that end in terminal rows go on having a property that is preserved. -/
theorem closed_of_preserved {P : Row → Prop} (hP : Row.Preserved P) :
    Closed fun c => c.IsTerminated ∧ ∀ r ∈ c.rows, P r := by
  have hsingle {r : Row} (hrole : r.role.isCombining = false) (hr : P r) :
      (single r).IsTerminated ∧ ∀ s ∈ (single r).rows, P s :=
    ⟨isTerminated_single hrole, List.forall_mem_singleton.mpr hr⟩
  have hwithTerminal {c : Clause} {r : Row} (hc : c.IsTerminated ∧ ∀ r ∈ c.rows, P r)
      (hrole : r.role.isCombining = false) (hr : P r) :
      IsTerminated ⟨c.lead, r⟩ ∧ ∀ s ∈ rows ⟨c.lead, r⟩, P s :=
    ⟨⟨hc.1.lead, hrole⟩, List.forall_mem_append.mpr
      ⟨fun s hs => hc.2 s (List.mem_append_left _ hs), List.forall_mem_singleton.mpr hr⟩⟩
  refine ⟨hsingle rfl hP.alwaysTrue, hsingle rfl hP.alwaysFalse, ?_, ?_,
    fun value hmemory => hsingle rfl (hP.equalityTest value hmemory)⟩
  · intro c d filters hc h hd
    have hterminal := Role.isModifier_of_not_isCombining hc.1.terminal
    obtain ⟨-, hcompares, ⟨-, rfl⟩ | ⟨hlead, hrows, rfl⟩⟩ := inverted?_cases h
    · rw [List.mem_singleton.mp hd]
      exact hwithTerminal hc rfl (hP.inverted (hc.2 _ c.terminal_mem_rows) hterminal hcompares)
    · obtain ⟨r, hr, rfl⟩ := List.mem_map.mp hd
      refine hsingle rfl (hP.inverted (hc.2 r hr) ?_ (hrows r hr))
      rcases List.mem_append.mp hr with hr | hr
      · rw [hlead r hr]
        rfl
      · rwa [List.mem_singleton.mp hr]
  · intro c d s t hc hrole _ h
    obtain ⟨relation, value, -, rfl⟩ := withSet?_eq_some.mp h
    exact hwithTerminal hc hc.1.terminal (hP.bounded relation value (hc.2 _ c.terminal_mem_rows)
      hrole (Role.isModifier_of_not_isCombining hc.1.terminal))

/-- Terminal rows stay terminal in every pass. -/
theorem closed_isTerminated : Closed IsTerminated :=
  (closed_of_preserved (P := fun _ => True) ⟨trivial, trivial, fun _ _ _ => trivial,
    fun _ _ _ _ _ => trivial, fun _ _ => trivial⟩).congr fun c => by simp

theorem filtersFor?_eq_some {role : Role} {c : Clause} {filters : List Clause} :
    c.filtersFor? role = some filters ↔ c.role = role ∧ c.inverted? = some filters := by
  unfold filtersFor?
  split
  · rename_i h
    simp [beq_iff_eq.mp h]
  · rename_i h
    simp only [beq_iff_eq] at h
    simp [h]

/-- A group with guards turned into filters consists of its clauses and of filters of guards. -/
theorem mem_invertRole {role : Role} {group : List Clause} {d : Clause}
    (h : d ∈ invertRole role group) :
    d ∈ group ∨
      ∃ c ∈ group, c.role = role ∧ ∃ filters, c.inverted? = some filters ∧ d ∈ filters := by
  obtain ⟨c, hc, hd⟩ := List.mem_flatMap.mp h
  cases hfilters : c.filtersFor? role with
  | none =>
    rw [hfilters, Option.getD_none, List.mem_singleton] at hd
    exact .inl (hd ▸ hc)
  | some filters =>
    rw [hfilters, Option.getD_some] at hd
    obtain ⟨hrole, hinverted⟩ := filtersFor?_eq_some.mp hfilters
    exact .inr ⟨c, hc, hrole, filters, hinverted, hd⟩

/-- What an alternate hands to the core are filters of its resets. -/
theorem mem_resetFilters {group : List Clause} {d : Clause} (h : d ∈ resetFilters group) :
    ∃ c ∈ group, c.role = .resetIf ∧ ∃ filters, c.inverted? = some filters ∧ d ∈ filters := by
  obtain ⟨c, hc, hd⟩ := List.mem_flatMap.mp h
  cases hfilters : c.filtersFor? .resetIf with
  | none =>
    rw [hfilters] at hd
    cases hd
  | some filters =>
    rw [hfilters, Option.getD_some] at hd
    obtain ⟨hrole, hinverted⟩ := filtersFor?_eq_some.mp hfilters
    exact ⟨c, hc, hrole, filters, hinverted, hd⟩

end Clause

namespace ClauseGroups
open Clause
variable {P : Clause → Prop}

theorem forall_mem_alwaysTrueGroup (hP : Closed P) : ∀ c ∈ alwaysTrueGroup, P c := by
  intro c hc
  rw [List.mem_singleton.mp hc]
  exact hP.alwaysTrue

theorem forall_mem_invertRole (hP : Closed P) {role : Role} {group : List Clause}
    (h : ∀ c ∈ group, P c) : ∀ d ∈ invertRole role group, P d := by
  intro d hd
  rcases mem_invertRole hd with hd | ⟨c, hc, -, filters, hinverted, hd⟩
  · exact h d hd
  · exact hP.inverted (h c hc) hinverted hd

theorem forall_mem_resetFilters (hP : Closed P) {group : List Clause} (h : ∀ c ∈ group, P c) :
    ∀ d ∈ resetFilters group, P d := by
  intro d hd
  obtain ⟨c, hc, -, filters, hinverted, hd⟩ := mem_resetFilters hd
  exact hP.inverted (h c hc) hinverted hd

theorem forall_mem_withoutResetFilters (hP : Closed P) {group : List Clause}
    (h : ∀ c ∈ group, P c) : ∀ d ∈ withoutResetFilters group, P d := by
  unfold withoutResetFilters
  simp only
  split
  · exact forall_mem_alwaysTrueGroup hP
  · exact fun d hd => h d (List.mem_filter.mp hd).1

theorem forall_mem_filterPauses (hP : Closed P) {group : List Clause} (h : ∀ c ∈ group, P c) :
    ∀ d ∈ filterPauses group, P d := by
  unfold filterPauses
  split
  · exact h
  · exact forall_mem_invertRole hP h

theorem All.filterResets (hP : Closed P) {g : ClauseGroups} (h : g.All P) :
    g.filterResets.All P := by
  obtain ⟨hcore, halternates⟩ := all_iff.mp h
  refine all_iff.mpr ⟨fun c hc => ?_, fun group hgroup => ?_⟩
  · rcases List.mem_append.mp hc with hc | hc
    · exact forall_mem_invertRole hP hcore c hc
    · obtain ⟨a, ha, hc⟩ := List.mem_flatMap.mp hc
      exact forall_mem_resetFilters hP (halternates a (List.mem_filter.mp ha).1) c hc
  · obtain ⟨a, ha, rfl⟩ := List.mem_map.mp hgroup
    split
    · exact halternates a ha
    · exact forall_mem_withoutResetFilters hP (halternates a ha)

theorem All.filterGuards (hP : Closed P) {g : ClauseGroups} (h : g.All P) :
    g.filterGuards.All P := by
  unfold ClauseGroups.filterGuards
  simp only
  generalize hg : (if g.anyHits = true then g else g.filterResets) = g'
  have hall : g'.All P := by
    rw [← hg]
    split
    · exact h
    · exact h.filterResets hP
  obtain ⟨hcore, halternates⟩ := all_iff.mp hall
  refine all_iff.mpr ⟨forall_mem_filterPauses hP hcore, fun group hgroup => ?_⟩
  obtain ⟨a, ha, rfl⟩ := List.mem_map.mp hgroup
  exact forall_mem_filterPauses hP (halternates a ha)

end ClauseGroups
end MemoryTrigger

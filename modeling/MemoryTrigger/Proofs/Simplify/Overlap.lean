import MemoryTrigger.Proofs.Simplify.Provenance
import MemoryTrigger.Proofs.Steps
import MemoryTrigger.Simplify.Guards
import MemoryTrigger.Simplify.Overlap
import Mathlib.Data.List.Nodup

/-! # Merging clauses of a group keeps its meaning

A merge exchanges two clauses for one.  What the one means is a short list of cases (`MergesTo`): two
filters become one that holds when both do, two guards one that holds when either does, and of a
reset and the filter that negates it one is enough.  All of it is about clauses that compare behind
modifier rows (`Clause.IsDirect`); behind `orNext` and `addHits` rows equal leads do not make the
terminal comparisons decide.

In the core a merge may turn a reset into a filter, so that only passing is kept; in an alternate
the new group stands for the old one.  Merging ends with groups that hold no clause twice
(`nodup_mergeOverlaps`), which is what the comparison of alternates relies on. -/
namespace MemoryTrigger

namespace Clause
variable (m : Memory)

/-- A comparison behind modifier rows. -/
structure IsDirect (c : Clause) : Prop where
  lead : c.lead.all (·.role.isModifier) = true
  terminal : c.terminal.isComparison = true

/-- A comparison behind modifier rows is joined to nothing and lent no hits. -/
theorem IsDirect.stateIn {c : Clause} (h : c.IsDirect) :
    (c.stateIn m).pending = none ∧ (c.stateIn m).hits = 0 :=
  ChainState.foldl_step_modifiers m c.lead {} h.lead

theorem stateIn_eq_of_lead_eq {a b : Clause} (h : a.lead = b.lead) :
    a.stateIn m = b.stateIn m := by
  rw [stateIn, stateIn, h]

end Clause

/-- The clause that a merge leaves of two. -/
def Merge.result (a b : Clause) : Merge → Clause
  | keepFirst => a
  | keepSecond => b
  | replace c => c

namespace Clause
variable (m : Memory)

/-! ## What the rules do -/

section Rules
variable {anyHits inCore : Bool} {a b : Clause} {s t : ValueSet} {e : Merge}

theorem hasLargerTarget_iff :
    a.hasLargerTarget b = true ↔ a.role = .plain ∧
      { a.terminal with hits := 0 } = { b.terminal with hits := 0 } ∧
      b.terminal.hits < a.terminal.hits := by
  simp [hasLargerTarget, and_assoc]

theorem isResetOfFilter_iff :
    a.isResetOfFilter b = true ↔ a.role = .resetIf ∧ b.role = .plain ∧
      a.terminal.left = b.terminal.left ∧ a.terminal.right = b.terminal.right ∧
      a.terminal.operator.inverse = b.terminal.operator := by
  simp [isResetOfFilter, and_assoc]

theorem role_of_hasLargerTarget (h : a.hasLargerTarget b = true) :
    a.role = .plain ∧ b.role = .plain := by
  obtain ⟨hrole, hsame, -⟩ := hasLargerTarget_iff.mp h
  exact ⟨hrole, (congrArg Row.role hsame).symm.trans hrole⟩

theorem mergeFilters_cases (h : mergeFilters a s t = some e) :
    (e = .keepFirst ∧ s.intersect t = s) ∨ (e = .keepSecond ∧ s.intersect t = t) ∨
      (e = .replace (single .alwaysFalse) ∧ (s.intersect t).bound? = some .empty) ∨
      ∃ c, e = .replace c ∧ a.withSet? (s.intersect t) = some c := by
  unfold mergeFilters at h
  simp only at h
  split at h
  · exact .inl ⟨(Option.some.inj h).symm, ‹_›⟩
  split at h
  · exact .inr (.inl ⟨(Option.some.inj h).symm, ‹_›⟩)
  split at h
  · exact .inr (.inr (.inl ⟨(Option.some.inj h).symm, ‹_›⟩))
  · obtain ⟨c, hc, rfl⟩ := Option.map_eq_some_iff.mp h
    exact .inr (.inr (.inr ⟨c, rfl, hc⟩))

theorem mergeGuards_cases (h : mergeGuards a s t = some e) :
    (e = .keepFirst ∧ s.union t = s) ∨ (e = .keepSecond ∧ s.union t = t) ∨
      ∃ c, e = .replace c ∧ a.withSet? (s.union t) = some c := by
  unfold mergeGuards at h
  simp only at h
  split at h
  · exact .inl ⟨(Option.some.inj h).symm, ‹_›⟩
  split at h
  · exact .inr (.inl ⟨(Option.some.inj h).symm, ‹_›⟩)
  · obtain ⟨c, hc, rfl⟩ := Option.map_eq_some_iff.mp h
    exact .inr (.inr ⟨c, rfl, hc⟩)

theorem mergeByValues_cases (h : mergeByValues a b = some e) :
    a.role = b.role ∧ a.sameQuantity b = true ∧
      ∃ s t, a.valueSet? = some s ∧ b.valueSet? = some t ∧
        ((a.role = .plain ∧ mergeFilters a s t = some e) ∨
          (a.role.isGuard = true ∧ mergeGuards a s t = some e)) := by
  unfold mergeByValues at h
  split at h
  · cases h
  rename_i hguard
  obtain ⟨hrole, hq⟩ : a.role = b.role ∧ a.sameQuantity b = true := by simpa using hguard
  refine ⟨hrole, hq, ?_⟩
  split at h
  · rename_i s t hs ht
    refine ⟨s, t, hs, ht, ?_⟩
    split at h
    · exact .inl ⟨‹_›, h⟩
    · rename_i hreset
      exact .inr ⟨by rw [hreset]; rfl, h⟩
    · rename_i hpause
      exact .inr ⟨by rw [hpause]; rfl, h⟩
    · cases h
  · cases h

/-- The rules of `merge?` beside equality: a larger target, a reset beside its negation, and two
comparisons of one quantity. -/
theorem merge?_cases (h : merge? anyHits inCore a b = some e) :
    (a = b ∧ e = .keepFirst) ∨ (a.lead = b.lead ∧
      ((a.hasLargerTarget b = true ∧ e = .keepFirst) ∨
        (a.hasHits = false ∧ b.hasHits = false ∧
          ((a.isResetOfFilter b = true ∧
              ((e = .keepFirst ∧ anyHits = true) ∨
                (e = .keepSecond ∧ anyHits = false ∧ inCore = true))) ∨
            mergeByValues a b = some e)))) := by
  unfold merge? at h
  split at h
  · exact .inl ⟨‹_›, (Option.some.inj h).symm⟩
  split at h
  · cases h
  rename_i hlead
  refine .inr ⟨Decidable.not_not.mp hlead, ?_⟩
  split at h
  · exact .inl ⟨‹_›, (Option.some.inj h).symm⟩
  split at h
  · cases h
  rename_i hhits
  obtain ⟨hahits, hbhits⟩ : a.hasHits = false ∧ b.hasHits = false := by simpa using hhits
  refine .inr ⟨hahits, hbhits, ?_⟩
  split at h
  · rename_i hreset
    refine .inl ⟨hreset, ?_⟩
    split at h
    · exact .inl ⟨(Option.some.inj h).symm, ‹_›⟩
    rename_i hnone
    split at h
    · exact .inr ⟨(Option.some.inj h).symm, Bool.not_eq_true _ ▸ hnone, ‹_›⟩
    · cases h
  · exact .inr h

/-- A property of clauses that passes keep is kept by a merge. -/
theorem Closed.merge? {P : Clause → Prop} (hP : Closed P) (ha : P a) (hb : P b)
    (h : merge? anyHits inCore a b = some e) : P (e.result a b) := by
  rcases merge?_cases h with ⟨-, rfl⟩ | ⟨-, ⟨-, rfl⟩ | ⟨-, -, ⟨-, ⟨rfl, -⟩ | ⟨rfl, -⟩⟩ | hvalues⟩⟩
  · exact ha
  · exact ha
  · exact ha
  · exact hb
  · obtain ⟨-, -, s, t, hs, -, ⟨hplain, hmerge⟩ | ⟨hguard, hmerge⟩⟩ := mergeByValues_cases hvalues
    · rcases mergeFilters_cases hmerge with ⟨rfl, -⟩ | ⟨rfl, -⟩ | ⟨rfl, -⟩ | ⟨c, rfl, hc⟩
      · exact ha
      · exact hb
      · exact hP.alwaysFalse
      · exact hP.withSet ha (by rw [hplain]; rfl) hs hc
    · rcases mergeGuards_cases hmerge with ⟨rfl, -⟩ | ⟨rfl, -⟩ | ⟨c, rfl, hc⟩
      · exact ha
      · exact hb
      · exact hP.withSet ha (Role.isMeasured_of_isGuard hguard) hs hc

end Rules

/-! ## What a merge means -/

/-- What becomes of two clauses that are merged, by their roles. -/
inductive MergesTo (inCore : Bool) (a b : Clause) : Clause → Prop
  | same : a = b → MergesTo inCore a b a
  | filters {c : Clause} : a.role = .plain → b.role = .plain → c.role = .plain →
      (c.holdsIn m = true ↔ a.holdsIn m = true ∧ b.holdsIn m = true) → MergesTo inCore a b c
  | guards {c : Clause} : a.role.isGuard = true → a.role = b.role → a.role = c.role →
      (c.holdsIn m = true ↔ a.holdsIn m = true ∨ b.holdsIn m = true) → MergesTo inCore a b c
  | reset : a.role = .resetIf → b.role = .plain → b.holdsIn m = (!a.holdsIn m) →
      MergesTo inCore a b a
  | filter : inCore = true → a.role = .resetIf → b.role = .plain →
      b.holdsIn m = (!a.holdsIn m) → MergesTo inCore a b b

section Merging
variable {m} {anyHits inCore : Bool} {a b : Clause} {s t : ValueSet} {e : Merge}

theorem role_withSet? {c d : Clause} (h : c.withSet? s = some d) : d.role = c.role := by
  obtain ⟨_, _, -, rfl⟩ := withSet?_eq_some.mp h
  rfl

/-- Two filters of one quantity become one that holds when both do. -/
theorem mergesTo_of_mergeFilters (hq : a.sameQuantity b = true) (hs : a.valueSet? = some s)
    (ht : b.valueSet? = some t) (ha : a.terminal.hits = 0) (hb : b.terminal.hits = 0)
    (harole : a.role = .plain) (hbrole : b.role = .plain) (h : mergeFilters a s t = some e) :
    MergesTo m inCore a b (e.result a b) := by
  have hlimit := limit_eq_of_sameQuantity hq hs ht
  have hle := quantityIn_le_limit m hs
  have hboth := mem_intersect_iff_holdsIn m hq hs ht ha hb
  rcases mergeFilters_cases h with ⟨rfl, heq⟩ | ⟨rfl, heq⟩ | ⟨rfl, hempty⟩ | ⟨c, rfl, hc⟩
  · refine .filters harole hbrole harole ?_
    rw [← hboth, heq]
    exact holdsIn_iff_mem m hs ha
  · refine .filters harole hbrole hbrole ?_
    rw [← hboth, heq, quantityIn_eq_of_sameQuantity m hq]
    exact holdsIn_iff_mem m ht hb
  · refine .filters harole hbrole rfl ?_
    rw [← hboth, ValueSet.mem_iff_of_bound? hempty (by change _ ≤ min _ _; omega)]
    simp [Merge.result, Bound.Allows]
  · refine .filters harole hbrole ((role_withSet? hc).trans harole) ?_
    rw [← hboth]
    exact holdsIn_withSet? m hs hc ha (by change _ ≤ min _ _; omega)

/-- Two guards of one quantity become one that holds when either does. -/
theorem mergesTo_of_mergeGuards (hq : a.sameQuantity b = true) (hs : a.valueSet? = some s)
    (ht : b.valueSet? = some t) (ha : a.terminal.hits = 0) (hb : b.terminal.hits = 0)
    (hguard : a.role.isGuard = true) (hrole : a.role = b.role) (h : mergeGuards a s t = some e) :
    MergesTo m inCore a b (e.result a b) := by
  have heither := mem_union_iff_holdsIn m hq hs ht ha hb
  rcases mergeGuards_cases h with ⟨rfl, heq⟩ | ⟨rfl, heq⟩ | ⟨c, rfl, hc⟩
  · refine .guards hguard hrole rfl ?_
    rw [← heither, heq]
    exact holdsIn_iff_mem m hs ha
  · refine .guards hguard hrole hrole ?_
    rw [← heither, heq, quantityIn_eq_of_sameQuantity m hq]
    exact holdsIn_iff_mem m ht hb
  · refine .guards hguard hrole (role_withSet? hc).symm ?_
    rw [← heither]
    exact holdsIn_withSet? m hs hc ha (by change _ ≤ max _ _; omega)

/-- Two clauses of one quantity become one that says what both do. -/
theorem mergesTo_of_mergeByValues (ha : a.terminal.hits = 0) (hb : b.terminal.hits = 0)
    (h : mergeByValues a b = some e) : MergesTo m inCore a b (e.result a b) := by
  obtain ⟨hrole, hq, s, t, hs, ht, ⟨hplain, hmerge⟩ | ⟨hguard, hmerge⟩⟩ := mergeByValues_cases h
  · exact mergesTo_of_mergeFilters hq hs ht ha hb hplain (hrole ▸ hplain) hmerge
  · exact mergesTo_of_mergeGuards hq hs ht ha hb hguard hrole hmerge

/-- Behind the same rows, the larger of two hit targets is the harder to reach.  A row without a
target has to hold itself, so that it is not enough to lend the other one its hits. -/
theorem holdsIn_of_hasLargerTarget (hlead : a.lead = b.lead) (h : a.hasLargerTarget b = true)
    (hlent : b.terminal.hits = 0 → (a.stateIn m).hits < a.terminal.hits.toNat)
    (hholds : a.holdsIn m = true) : b.holdsIn m = true := by
  obtain ⟨-, hsame, hlarger⟩ := hasLargerTarget_iff.mp h
  have hlt := UInt32.lt_iff_toNat_lt.mp hlarger
  have htruth : (a.stateIn m).truthOf m a.terminal = (a.stateIn m).truthOf m b.terminal := by
    have heq := congrArg (ChainState.truthOf m (a.stateIn m)) hsame
    exact heq
  have hne : a.terminal.hits ≠ 0 := by
    intro hzero
    rw [hzero] at hlt
    simp at hlt
  rw [holdsIn_eq, if_neg hne, decide_eq_true_iff, htruth] at hholds
  rw [holdsIn_eq, ← stateIn_eq_of_lead_eq m hlead]
  split
  · rename_i hzero
    have hlent := hlent hzero
    -- without a hit of its own the target would be out of reach
    cases hown : (a.stateIn m).truthOf m b.terminal with
    | true => rfl
    | false =>
      rw [hown, Bool.toInt_false] at hholds
      omega
  · rw [decide_eq_true_iff]
    omega

theorem mergesTo_of_hasLargerTarget (ha : a.IsDirect) (hlead : a.lead = b.lead)
    (h : a.hasLargerTarget b = true) : MergesTo m inCore a b a := by
  obtain ⟨hrole, hrole'⟩ := role_of_hasLargerTarget h
  refine .filters hrole hrole' hrole ⟨fun hholds => ⟨hholds, ?_⟩, And.left⟩
  refine holdsIn_of_hasLargerTarget hlead h (fun _ => ?_) hholds
  have hlt := UInt32.lt_iff_toNat_lt.mp (hasLargerTarget_iff.mp h).2.2
  rw [(ha.stateIn m).2]
  omega

/-- A reset and the filter that negates it join opposite tests to the same rows. -/
theorem holdsIn_of_isResetOfFilter (hlead : a.lead = b.lead) (hahits : a.terminal.hits = 0)
    (hbhits : b.terminal.hits = 0) (hcompares : a.terminal.isComparison = true)
    (h : a.isResetOfFilter b = true) :
    ∃ test, a.holdsIn m = (a.stateIn m).joined test ∧ b.holdsIn m = (a.stateIn m).joined !test := by
  obtain ⟨-, -, hleft, hright, hop⟩ := isResetOfFilter_iff.mp h
  refine ⟨a.terminal.testIn m (a.stateIn m).base (a.stateIn m).sum,
    holdsIn_of_hits_eq_zero m hahits, ?_⟩
  rw [holdsIn_of_hits_eq_zero m hbhits, ← stateIn_eq_of_lead_eq m hlead, ChainState.truthOf,
    ← Row.testIn_inverted m _ _ hcompares]
  simp only [Row.testIn, Row.inverted, hleft, hright, hop]

/-- **Every merge is one of the five.** -/
theorem mergesTo_of_merge? (ha : a.IsDirect)
    (h : merge? anyHits inCore a b = some e) : MergesTo m inCore a b (e.result a b) := by
  rcases merge?_cases h with ⟨heq, rfl⟩ | ⟨hlead, ⟨hlarger, rfl⟩ | ⟨hahits, hbhits, hrule⟩⟩
  · exact .same heq
  · exact mergesTo_of_hasLargerTarget ha hlead hlarger
  · have hahits := hits_eq_zero_of_not_hasHits hahits _ a.terminal_mem_rows
    have hbhits := hits_eq_zero_of_not_hasHits hbhits _ b.terminal_mem_rows
    rcases hrule with ⟨hreset, hkept⟩ | hvalues
    · obtain ⟨harole, hbrole, -⟩ := isResetOfFilter_iff.mp hreset
      have hholds : b.holdsIn m = !a.holdsIn m := by
        obtain ⟨test, hatest, hbtest⟩ :=
          holdsIn_of_isResetOfFilter (m := m) hlead hahits hbhits ha.terminal hreset
        rw [hatest, hbtest, ChainState.joined, ChainState.joined, (ha.stateIn m).1]
      rcases hkept with ⟨rfl, -⟩ | ⟨rfl, -, hcore⟩
      · exact .reset harole hbrole hholds
      · exact .filter hcore harole hbrole hholds
    · exact mergesTo_of_mergeByValues hahits hbhits hvalues

/-- A group of two clauses passes when what they are merged to does. -/
theorem MergesTo.passes {c : Clause} (h : MergesTo m inCore a b c) :
    passesIn m [c] = passesIn m [a, b] := by
  rw [show [a, b] = [a] ++ [b] from rfl, passesIn_append]
  cases h with
  | same heq => rw [← heq, Bool.and_self]
  | filters ha hb hc hholds =>
    rw [passesIn_plain m ha, passesIn_plain m hb, passesIn_plain m hc, Bool.eq_iff_iff,
      Bool.and_eq_true]
    exact hholds
  | guards hguard hb hc hholds =>
    rw [passesIn_guard m (hc ▸ hguard), passesIn_guard m hguard, passesIn_guard m (hb ▸ hguard),
      ← Bool.not_or, Bool.not_inj_iff, Bool.eq_iff_iff, Bool.or_eq_true]
    exact hholds
  | reset ha hb hholds =>
    rw [passesIn_guard m (c := a) (by rw [ha]; rfl), passesIn_plain m hb, hholds, Bool.and_self]
  | filter _ ha hb hholds =>
    rw [passesIn_guard m (c := a) (by rw [ha]; rfl), passesIn_plain m hb, hholds, Bool.and_self]

theorem MergesTo.guardAlike {a b c : Clause} (h : MergesTo m false a b c) :
    GuardAlike m [c] [a, b] := by
  cases h with
  | same heq => exact .of_mem (by simp [heq])
  | filters ha hb hc _ =>
    exact .of_forall (by simp [isGuard_of_plain hc])
      (by simp [isGuard_of_plain ha, isGuard_of_plain hb])
  | guards _ hb hc hholds =>
    intro role _
    rw [Bool.eq_iff_iff, someHolds_iff, someHolds_iff]
    simp [← hb, ← hc, hholds, and_or_left]
  | reset _ hb _ => exact .of_filter hb
  | filter hcore => cases hcore

/-- In an alternate, what two clauses are merged to stands for them. -/
theorem MergesTo.standsFor {c : Clause} (h : MergesTo m false a b c) : StandsFor m [c] [a, b] :=
  h.guardAlike.standsFor h.passes

/-- **Merging two clauses keeps what pauses and resets**, unless a reset gives way to a filter: that
is done only in the core, and where no hits are counted. -/
theorem guardAlike_merge? (hkeeps : anyHits = true ∨ inCore = false)
    (h : merge? anyHits inCore a b = some e) : GuardAlike m [e.result a b] [a, b] := by
  rcases merge?_cases h with ⟨rfl, rfl⟩ | ⟨-, ⟨hlarger, rfl⟩ | ⟨hahits, hbhits, hrule⟩⟩
  · exact .of_mem (by simp [Merge.result])
  · exact .of_filter (role_of_hasLargerTarget hlarger).2
  · rcases hrule with ⟨hreset, ⟨rfl, -⟩ | ⟨-, hnone, hcore⟩⟩ | hvalues
    · exact .of_filter (isResetOfFilter_iff.mp hreset).2.1
    · simp [hnone, hcore] at hkeeps
    · refine MergesTo.guardAlike (mergesTo_of_mergeByValues ?_ ?_ hvalues)
      · exact hits_eq_zero_of_not_hasHits hahits _ a.terminal_mem_rows
      · exact hits_eq_zero_of_not_hasHits hbhits _ b.terminal_mem_rows

end Merging

/-! ## Groups -/

section Groups
variable {m} {anyHits inCore : Bool}

/-- A step merges the clauses at two places of the group. -/
theorem mergeStep_places {group group' : List Clause} {event : Event}
    (h : mergeStep anyHits inCore group = some (group', event)) :
    ∃ i j a b e, i ≠ j ∧ group[i]? = some a ∧ group[j]? = some b ∧
      merge? anyHits inCore a b = some e ∧ group' = applyMerge group i j e := by
  obtain ⟨⟨i, j, e⟩, hfind, heq⟩ := Option.map_eq_some_iff.mp h
  cases heq
  obtain ⟨⟨a, i⟩, ha, hfind⟩ := List.exists_of_findSome?_eq_some hfind
  obtain ⟨⟨b, j⟩, hb, hfind⟩ := List.exists_of_findSome?_eq_some hfind
  simp only at hfind
  split at hfind
  · cases hfind
  rename_i hij
  obtain ⟨e, hmerge, heq⟩ := Option.map_eq_some_iff.mp hfind
  cases heq
  exact ⟨i, j, a, b, e, hij, List.mk_mem_zipIdx_iff_getElem?.mp ha,
    List.mk_mem_zipIdx_iff_getElem?.mp hb, hmerge, rfl⟩

/-- A step exchanges two clauses of the group for what they are merged to. -/
theorem mergeStep_eq_some {group group' : List Clause} {event : Event}
    (h : mergeStep anyHits inCore group = some (group', event)) :
    ∃ a b e rest, merge? anyHits inCore a b = some e ∧ group.Perm (a :: b :: rest) ∧
      group'.Perm (e.result a b :: rest) := by
  obtain ⟨i, j, a, b, e, hij, hi, hj, hmerge, rfl⟩ := mergeStep_places h
  cases e with
  | keepFirst =>
    obtain ⟨rest, hgroup, hgroup'⟩ := Places.perm_eraseIdx hi hj hij
    exact ⟨a, b, .keepFirst, rest, hmerge, hgroup, hgroup'⟩
  | keepSecond =>
    obtain ⟨rest, hgroup, hgroup'⟩ := Places.perm_eraseIdx hj hi (Ne.symm hij)
    exact ⟨a, b, .keepSecond, rest, hmerge, hgroup.trans (.swap _ _ _), hgroup'⟩
  | replace c =>
    obtain ⟨rest, hgroup, hgroup'⟩ := Places.perm_set_eraseIdx hi hj hij c
    exact ⟨a, b, .replace c, rest, hmerge, hgroup, hgroup'⟩

/-- A step keeps what all merges keep. -/
theorem forall_mem_mergeStep_of_merge? {P : Clause → Prop}
    (hP : ∀ {a b : Clause} {e : Merge}, P a → P b → merge? anyHits inCore a b = some e →
      P (e.result a b))
    {group group' : List Clause} {event : Event}
    (h : mergeStep anyHits inCore group = some (group', event))
    (hgroup : ∀ c ∈ group, P c) : ∀ c ∈ group', P c := by
  obtain ⟨a, b, e, rest, hmerge, hperm, hperm'⟩ := mergeStep_eq_some h
  have hall : ∀ c ∈ a :: b :: rest, P c := fun c hc => hgroup c (hperm.mem_iff.mpr hc)
  intro c hc
  rcases List.mem_cons.mp (hperm'.mem_iff.mp hc) with rfl | hc
  · exact hP (hall a (by simp)) (hall b (by simp)) hmerge
  · exact hall c (by simp [hc])

theorem forall_mem_mergeStep {P : Clause → Prop} (hP : Closed P) {group group' : List Clause}
    {event : Event} (h : mergeStep anyHits inCore group = some (group', event))
    (hgroup : ∀ c ∈ group, P c) : ∀ c ∈ group', P c :=
  forall_mem_mergeStep_of_merge? hP.merge? h hgroup

theorem forall_mem_mergeOverlaps {P : Clause → Prop} (hP : Closed P) {group : List Clause}
    (h : ∀ c ∈ group, P c) : ∀ c ∈ (mergeOverlaps anyHits inCore group).value, P c :=
  Logged.exhaust_keeps (fun _ _ _ hstep => forall_mem_mergeStep hP hstep) _ group h

/-- What a step makes of a group passes when the group does and, in an alternate, stands for it. -/
theorem mergeStep_meaning {group group' : List Clause} {event : Event}
    (hdirect : ∀ c ∈ group, c.IsDirect)
    (h : mergeStep anyHits inCore group = some (group', event)) :
    passesIn m group' = passesIn m group ∧ (inCore = false → StandsFor m group' group) := by
  obtain ⟨a, b, e, rest, hmerge, hperm, hperm'⟩ := mergeStep_eq_some h
  have ha : a.IsDirect := hdirect a (hperm.mem_iff.mpr (by simp))
  have hmerges : MergesTo m inCore a b (e.result a b) := mergesTo_of_merge? ha hmerge
  have hold : AgreeIn m ([a, b] ++ rest) group := .of_perm hperm.symm
  have hnew : AgreeIn m group' ([e.result a b] ++ rest) := .of_perm hperm'
  refine ⟨?_, ?_⟩
  · rw [hnew.passes, ← hold.passes, passesIn_append, passesIn_append, hmerges.passes]
  · rintro rfl
    exact (StandsFor.of_agreeIn hnew).trans
      ((hmerges.standsFor.append_right rest).trans (.of_agreeIn hold))

/-- Passes make direct clauses of direct clauses. -/
theorem closed_isDirect : Closed IsDirect where
  alwaysTrue := ⟨rfl, rfl⟩
  alwaysFalse := ⟨rfl, rfl⟩
  inverted := by
    intro c d filters hc h hd
    obtain ⟨-, hcompares, ⟨hmod, rfl⟩ | ⟨-, hrows, rfl⟩⟩ := inverted?_cases h
    · rw [List.mem_singleton.mp hd]
      exact ⟨hmod, Row.isComparison_inverted hcompares⟩
    · obtain ⟨r, hr, rfl⟩ := List.mem_map.mp hd
      exact ⟨rfl, Row.isComparison_inverted (hrows r hr)⟩
  withSet := by
    intro c d s t hc _ _ h
    obtain ⟨_, _, -, rfl⟩ := withSet?_eq_some.mp h
    exact ⟨hc.lead, rfl⟩
  equalityTest _ _ := ⟨rfl, rfl⟩

/-- **Merging keeps the meaning of a group** of direct clauses. -/
theorem mergeOverlaps_meaning {group : List Clause} (hdirect : ∀ c ∈ group, c.IsDirect) :
    passesIn m (mergeOverlaps anyHits inCore group).value = passesIn m group ∧
      (inCore = false → StandsFor m (mergeOverlaps anyHits inCore group).value group) := by
  refine (Logged.exhaust_keeps (P := fun group' => (∀ c ∈ group', c.IsDirect) ∧
    passesIn m group' = passesIn m group ∧ (inCore = false → StandsFor m group' group))
    ?_ _ group ⟨hdirect, rfl, fun _ => .of_agreeIn (.refl group)⟩).2
  rintro a b event hstep ⟨ha, hpasses, hstands⟩
  obtain ⟨hpasses', hstands'⟩ := mergeStep_meaning (m := m) ha hstep
  exact ⟨forall_mem_mergeStep closed_isDirect hstep ha, hpasses'.trans hpasses,
    fun hcore => (hstands' hcore).trans (hstands hcore)⟩

theorem guardAlike_mergeOverlaps (hkeeps : anyHits = true ∨ inCore = false)
    (group : List Clause) : GuardAlike m (mergeOverlaps anyHits inCore group).value group := by
  refine Logged.exhaust_keeps (P := fun group' => GuardAlike m group' group) ?_ _ group
    fun _ _ => rfl
  intro before after event hstep hbefore
  obtain ⟨x, y, e, rest, hmerge, hperm, hperm'⟩ := mergeStep_eq_some hstep
  refine GuardAlike.trans ?_ hbefore
  exact (GuardAlike.of_perm hperm').trans
    (((guardAlike_merge? hkeeps hmerge).append_right rest).trans (.of_perm hperm.symm))

/-- Merging goes on while two clauses merge. -/
theorem mergeStep_mergeOverlaps (anyHits inCore : Bool) (group : List Clause) :
    mergeStep anyHits inCore (mergeOverlaps anyHits inCore group).value = none := by
  refine Logged.exhaust_eq_none List.length ?_ _ group (Nat.le_refl _)
  intro a b event hstep
  obtain ⟨_, _, _, rest, -, hperm, hperm'⟩ := mergeStep_eq_some hstep
  simp [hperm.length_eq, hperm'.length_eq]

theorem merge?_eq_none_of_mergeStep {group : List Clause}
    (hdone : mergeStep anyHits inCore group = none) {i j : Nat} (hij : i ≠ j) {a b : Clause}
    (ha : group[i]? = some a) (hb : group[j]? = some b) : merge? anyHits inCore a b = none := by
  have hnone := List.findSome?_eq_none_iff.mp (Option.map_eq_none_iff.mp hdone)
  have hfirst := hnone (a, i) (List.mk_mem_zipIdx_iff_getElem?.mpr ha)
  have hsecond := List.findSome?_eq_none_iff.mp hfirst (b, j)
    (List.mk_mem_zipIdx_iff_getElem?.mpr hb)
  simpa [hij] using hsecond

/-- Merged groups hold no clause twice. -/
theorem nodup_mergeOverlaps (group : List Clause) :
    (mergeOverlaps anyHits inCore group).value.Nodup := by
  have hdone := mergeStep_mergeOverlaps anyHits inCore group
  rw [List.nodup_iff_getElem?_ne_getElem?]
  intro i j hij hj heq
  have hget := List.getElem?_eq_getElem hj
  have hnone := merge?_eq_none_of_mergeStep hdone (Nat.ne_of_lt hij) (heq.trans hget) hget
  simp [merge?] at hnone

end Groups

end Clause

/-! ## Triggers -/

namespace ClauseGroups
open Clause

/-- A trigger with the clauses of each group merged. -/
def withoutOverlaps (g : ClauseGroups) : ClauseGroups where
  core := (mergeOverlaps g.anyHits true g.core).value
  alternates := g.alternates.map fun group => (mergeOverlaps g.anyHits false group).value

theorem trigger_removeRedundancies (t : Trigger) :
    (removeRedundancies.run t).trigger = (ofTrigger t).withoutOverlaps.toTrigger := by
  simp [removeRedundancies, Pass.onClauses, withoutOverlaps, anyHits]

theorem All.withoutOverlaps {P : Clause → Prop} (hP : Closed P) {g : ClauseGroups} (h : g.All P) :
    g.withoutOverlaps.All P := by
  obtain ⟨hcore, halternates⟩ := all_iff.mp h
  refine all_iff.mpr ⟨forall_mem_mergeOverlaps hP hcore, fun group hgroup => ?_⟩
  obtain ⟨a, ha, rfl⟩ := List.mem_map.mp hgroup
  exact forall_mem_mergeOverlaps hP (halternates a ha)

/-- **Merging clauses that constrain one quantity keeps the firing of the trigger.** -/
theorem firesIn_withoutOverlaps (m : Memory) {g : ClauseGroups} (h : g.All IsDirect) :
    g.withoutOverlaps.firesIn m = g.firesIn m := by
  obtain ⟨hcore, halternates⟩ := all_iff.mp h
  exact firesIn_of_standsFor (mergeOverlaps_meaning hcore).1 fun a ha =>
    (mergeOverlaps_meaning (halternates a ha)).2 rfl

end ClauseGroups
end MemoryTrigger

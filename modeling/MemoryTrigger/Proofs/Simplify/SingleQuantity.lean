import MemoryTrigger.Proofs.Simplify.Invariants
import MemoryTrigger.Proofs.Simplify.ReadTests
import MemoryTrigger.Proofs.Simplify.Soundness

/-! # Tests of one read are decided

The simplifier merges tests of one read two at a time, and only where one comparison says what both
do.  That is enough to find out whether any value passes all of them, and whether every value does
(`Trigger.simplify_conjunction_iff`).

When no two tests can be merged any more, and each is passed by some value, one value passes them
all: zero, or the least value of a test that excludes zero (`Clause.exists_forall_holdsAt`).  So
where no value passes all tests, a round leaves one that no value passes, which the next round
settles.  Tests that all values pass are settled at once. -/
namespace MemoryTrigger

/-! ## Pairs of tests -/

namespace Clause
variable {o : Operand} {anyHits inCore : Bool}

section Pair
variable {r s relation : Relation} {p q : Operand} {value : UInt32}

theorem valueSet?_comparing (ho : o.isMemory = true) (hp : p.isLiteral = true) :
    (single (.comparing o r p)).valueSet? =
      some (.ofComparison r p.value o.maxValue.toNat) := by
  have hmax : quantityMax? [] o = some o.maxValue.toNat := by simp [quantityMax?, ho]
  exact valueSet?_eq_some.mpr ⟨r, o.maxValue.toNat, rfl, hmax, hp, rfl⟩

/-- Two filters of one quantity, which together say what one comparison says, are merged. -/
theorem exists_mergeFilters {a : Clause} {x y : UInt32} {limit : Nat}
    (hlimit : limit < UInt32.size)
    (h : ∀ n : Nat, (r.holds n x.toNat = true ∧ s.holds n y.toNat = true) ↔
      relation.holds n value.toNat = true) :
    ∃ e, mergeFilters a (.ofComparison r x limit) (.ofComparison s y limit) = some e := by
  obtain ⟨bound, hbound⟩ := ValueSet.exists_bound?_ofComparison relation value hlimit
  unfold mergeFilters
  rw [ValueSet.intersect_ofComparison h]
  simp only
  split
  · exact ⟨_, rfl⟩
  rename_i hfirst
  split
  · exact ⟨_, rfl⟩
  split
  · exact ⟨_, rfl⟩
  rename_i hempty
  cases bound with
  | empty => exact absurd hbound hempty
  | compare relation' value' => exact ⟨_, congrArg _ (withSet?_eq_some.mpr ⟨_, _, hbound, rfl⟩)⟩
  | full =>
    -- what both allow is everything, and so is what the first one allows
    refine absurd ?_ hfirst
    refine ValueSet.eq_of_mem_iff (ValueSet.areSeparate_ofRanges _ _)
      (ValueSet.areSeparate_ofRanges _ _) rfl fun n => ⟨fun hn => ?_, fun hn => ?_⟩
    · obtain ⟨hle, hn⟩ := (ValueSet.mem_ofComparison ..).mp hn
      exact (ValueSet.mem_ofComparison ..).mpr ⟨hle, ((h n).mpr hn).1⟩
    · exact (ValueSet.mem_iff_of_bound? hbound ((ValueSet.mem_ofComparison ..).mp hn).1).mpr trivial

/-- **Two tests of one read, which together say what one comparison says, are merged.** -/
theorem exists_merge? (anyHits inCore : Bool) (ho : o.isMemory = true) (hp : p.isLiteral = true)
    (hq : q.isLiteral = true)
    (h : ∀ n : Nat, (r.holds n p.value.toNat = true ∧ s.holds n q.value.toNat = true) ↔
      relation.holds n value.toNat = true) :
    ∃ e, merge? anyHits inCore (single (.comparing o r p)) (single (.comparing o s q)) =
      some e := by
  unfold merge?
  split
  · exact ⟨_, rfl⟩
  rw [if_neg (by simp [single])]
  split
  · exact ⟨_, rfl⟩
  rw [if_neg (by simp [hasHits, rows, single, Row.comparing]),
    if_neg (by simp [isResetOfFilter, role, single, Row.comparing])]
  unfold mergeByValues
  rw [if_neg (by simp [sameQuantity, role, single, Row.comparing]), valueSet?_comparing ho hp,
    valueSet?_comparing ho hq]
  exact exists_mergeFilters (UInt32.toNat_lt_size _) h

end Pair

/-! ## Groups of tests -/

section Groups
variable {rows : List Row}

theorem merge?_eq_none_of_mem (hdone : mergeStep anyHits inCore (rows.map single) = none)
    {r s : Row} (hr : r ∈ rows) (hs : s ∈ rows) (hne : r ≠ s) :
    merge? anyHits inCore (single r) (single s) = none := by
  obtain ⟨i, hi⟩ := List.mem_iff_getElem?.mp hr
  obtain ⟨j, hj⟩ := List.mem_iff_getElem?.mp hs
  refine merge?_eq_none_of_mergeStep (i := i) (j := j) hdone ?_ (by simp [hi]) (by simp [hj])
  rintro rfl
  exact hne (Option.some.inj (hi.symm.trans hj))

/-- **Bounds that no merge brings together leave a value**, if each of them does.  Zero is one, or
else the least value of a bound that excludes zero: a bound that excluded this value as well would
have been merged with that one. -/
theorem exists_forall_holdsAt (ho : o.isMemory = true) (hrows : ∀ r ∈ rows, r.IsBoundOf o)
    (hdone : mergeStep anyHits inCore (rows.map single) = none)
    (heach : ∀ r ∈ rows, ∃ x ≤ o.maxValue, r.holdsAt o x = true) :
    ∃ x ≤ o.maxValue, ∀ r ∈ rows, r.holdsAt o x = true := by
  have hconstant {truth : Bool} (h : .constant truth ∈ rows) : truth = true := by
    obtain ⟨x, -, hx⟩ := heach _ h
    rwa [Row.holdsAt_constant ho] at hx
  by_cases hzero : ∀ r ∈ rows, r.holdsAt o 0 = true
  · exact ⟨0, UInt32.zero_le, hzero⟩
  obtain ⟨r, hr, hzero⟩ : ∃ r ∈ rows, r.holdsAt o 0 = false := by simpa using hzero
  cases hrows r hr with
  | constant truth =>
    rw [Row.holdsAt_constant ho, hconstant hr] at hzero
    cases hzero
  | comparing relation p hp =>
    obtain ⟨x, hx, hholds⟩ := heach _ hr
    rw [Row.holdsAt_comparing ho hp, ← Relation.holds_toNat] at hholds hzero
    obtain ⟨low, hle, hlow, hleast⟩ := Relation.exists_least hholds
    refine ⟨low, UInt32.le_trans hle hx, fun s hs => ?_⟩
    cases hrows s hs with
    | constant truth => rw [Row.holdsAt_constant ho, hconstant hs]
    | comparing relation' q hq =>
      rw [Row.holdsAt_comparing ho hq, ← Relation.holds_toNat]
      by_contra hexcluded
      have hne : Row.comparing o relation p ≠ .comparing o relation' q := by
        intro heq
        simp only [Row.comparing, Row.mk.injEq, Operator.compare.injEq] at heq
        obtain ⟨-, rfl, rfl, -⟩ := heq
        exact hexcluded hlow
      obtain ⟨both, value, hboth⟩ :=
        Relation.exists_holds_and hzero hlow hleast (eq_false_of_ne_true hexcluded)
      obtain ⟨e, he⟩ := exists_merge? anyHits inCore ho hp hq hboth
      rw [merge?_eq_none_of_mem hdone hr hs hne] at he
      cases he

/-- A single row that bounds the operand. -/
def IsBoundOf (o : Operand) (c : Clause) : Prop := c.lead = [] ∧ c.terminal.IsBoundOf o

theorem eq_single {c : Clause} (h : c.lead = []) : c = single c.terminal := by
  obtain ⟨lead, terminal⟩ := c
  rw [single, ← h]

theorem map_single_terminal {group : List Clause} (h : ∀ c ∈ group, c.IsBoundOf o) :
    (group.map terminal).map single = group := by
  rw [List.map_map]
  exact (List.map_congr_left fun c hc => (eq_single (h c hc).1).symm).trans (List.map_id _)

theorem IsBoundOf.comparingTo {c : Clause} {s : ValueSet} (h : c.IsBoundOf o)
    (hs : c.valueSet? = some s) (relation : Relation) (value : UInt32) :
    (c.comparingTo relation value).IsBoundOf o := by
  obtain ⟨lead, terminal⟩ := c
  obtain ⟨hlead, hbound⟩ := h
  refine ⟨hlead, ?_⟩
  obtain rfl : lead = [] := hlead
  cases hbound with
  | constant truth => cases truth <;> cases hs
  | comparing _ p hp => exact .comparing relation { p with value } hp

/-- Merging bounds of an operand gives a bound of it. -/
theorem IsBoundOf.merge? {a b : Clause} {e : Merge} (ha : a.IsBoundOf o) (hb : b.IsBoundOf o)
    (h : merge? anyHits inCore a b = some e) : (e.result a b).IsBoundOf o := by
  obtain ⟨hlead, hbound⟩ := ha
  have hrole : a.role = .plain := hbound.isFilter.role
  rcases merge?_cases h with ⟨-, rfl⟩ | ⟨-, ⟨-, rfl⟩ | ⟨-, -, ⟨-, ⟨rfl, -⟩ | ⟨rfl, -⟩⟩ | hvalues⟩⟩
  · exact ⟨hlead, hbound⟩
  · exact ⟨hlead, hbound⟩
  · exact ⟨hlead, hbound⟩
  · exact hb
  obtain ⟨-, -, s, t, hs, -, ⟨-, hmerge⟩ | ⟨hguard, -⟩⟩ := mergeByValues_cases hvalues
  · rcases mergeFilters_cases hmerge with ⟨rfl, -⟩ | ⟨rfl, -⟩ | ⟨rfl, -⟩ | ⟨c, rfl, hc⟩
    · exact ⟨hlead, hbound⟩
    · exact hb
    · exact ⟨rfl, .constant false⟩
    · obtain ⟨relation, value, -, rfl⟩ := withSet?_eq_some.mp hc
      exact IsBoundOf.comparingTo ⟨hlead, hbound⟩ hs relation value
  · rw [hrole] at hguard
    cases hguard

theorem forall_isBoundOf_mergeOverlaps {group : List Clause} (h : ∀ c ∈ group, c.IsBoundOf o) :
    ∀ c ∈ (mergeOverlaps anyHits inCore group).value, c.IsBoundOf o :=
  Logged.exhaust_keeps (fun _ _ _ hstep => forall_mem_mergeStep_of_merge? IsBoundOf.merge? hstep) _
    group h

/-- Tests of one operand are not tests of parts of another. -/
theorem value_mergeBitTests_of_isBoundOf {group : List Clause}
    (h : ∀ c ∈ group, c.IsBoundOf o) : (mergeBitTests group).value = group := by
  refine Logged.exhaust_keeps (P := (· = group)) ?_ _ group rfl
  rintro _ next event hstep rfl
  obtain ⟨found, parts, hwhole, -⟩ := exists_isWhole_of_bitStep hstep
  have hsize : ∀ size ∈ found.2.size.parts, size = o.size := by
    rw [← hwhole.sizes]
    refine List.forall_mem_map.mpr fun t ht => ?_
    obtain ⟨c, hget, hc⟩ := hwhole.clause t ht
    have hmade := EqualityTest.isMadeBy_of_ofClause? hc
    have hleft : c.terminal.left = o :=
      (h c (List.mem_of_getElem? hget)).2.left_eq (hmade.left ▸ hmade.isMemory)
    exact congrArg Operand.size (hmade.left.symm.trans hleft)
  -- a whole has two parts at least, and no two of one size
  have htwo := Size.two_le_length_parts hwhole.parts_ne_nil
  have hone := List.nodup_replicate.mp (List.eq_replicate_of_mem hsize ▸ Size.nodup_parts _)
  omega

end Groups
end Clause

/-! ## Rounds -/

namespace ClauseGroups
open Clause
variable {o : Operand} {rows : List Row}

/-- Rows about one operand settle to bounds of it. -/
theorem isBoundOf_of_mem_settledClauses (ho : o.isMemory = true) (h : ∀ r ∈ rows, r.IsAbout o) :
    ∀ c ∈ settledClauses rows, c.IsBoundOf o := by
  rw [settledClauses_of_plain fun r hr => (h r hr).isFilter.role]
  intro c hc
  rcases mem_foldConstants hc with rfl | ⟨hc, -⟩
  · exact ⟨rfl, .constant false⟩
  · obtain ⟨r, hr, rfl⟩ := List.mem_map.mp hc
    exact ⟨rfl, (h r hr).normalize ho⟩

/-- One row that no value passes settles its group to `0=1`. -/
theorem settledClauses_of_unsatisfiable (ho : o.isMemory = true) (h : ∀ r ∈ rows, r.IsAbout o)
    {r : Row} (hr : r ∈ rows) (hnone : ∀ x ≤ o.maxValue, r.holdsAt o x = false) :
    settledClauses rows = [single .alwaysFalse] := by
  rw [settledClauses_of_plain fun r hr => (h r hr).isFilter.role]
  refine foldConstants_of_neverHolds (List.forall_mem_map.mpr fun r hr => ?_)
    (List.mem_map_of_mem hr) ?_
  · exact (r.role_normalize).trans (h r hr).isFilter.role
  · rw [(h r hr).normalize_eq_constant ho hnone]
    rfl

/-- Rows that all values pass settle to `1=1`. -/
theorem settledClauses_of_valid (ho : o.isMemory = true) (h : ∀ r ∈ rows, r.IsAbout o)
    (hne : rows ≠ []) (hall : ∀ r ∈ rows, ∀ x ≤ o.maxValue, r.holdsAt o x = true) :
    settledClauses rows = [single .alwaysTrue] := by
  obtain ⟨n, hn⟩ : ∃ n, rows.length = n + 1 :=
    Nat.exists_eq_succ_of_ne_zero fun hzero => hne (List.length_eq_zero_iff.mp hzero)
  have hsettled : rows.map (fun r => single r.normalize) =
      List.replicate (n + 1) (single .alwaysTrue) := by
    rw [← hn, ← List.map_const']
    refine List.map_congr_left fun r hr => ?_
    rw [(h r hr).normalize_eq_constant ho (hall r hr)]
    rfl
  rw [settledClauses_of_plain fun r hr => (h r hr).isFilter.role, hsettled,
    foldConstants_replicate_alwaysTrue]

end ClauseGroups

namespace Trigger
open Clause ClauseGroups
variable {o : Operand} {rows : List Row}

/-- The trigger of one group. -/
def conjunction (rows : List Row) : Trigger := { core := rows }

theorem isHitFree_conjunction (h : ∀ r ∈ rows, r.IsAbout o) : (conjunction rows).IsHitFree := by
  have hplain : ∀ r ∈ rows, r.role.isCombining = false := by
    intro r hr
    rw [(h r hr).isFilter.role]
    rfl
  refine ⟨fun r hr => ?_, fun group hgroup r hr => ?_⟩
  · have hr : r ∈ rows := by simpa [Trigger.rows, groups, conjunction] using hr
    have hfilter := (h r hr).isFilter
    exact Row.isHitFree_of_comparison hfilter.hits (hplain r hr) hfilter.compares
  · obtain rfl : group = rows := by simpa [groups, conjunction] using hgroup
    exact hplain r (List.mem_of_getLast? hr)

theorem firesIn_conjunction (ho : o.isMemory = true) (h : ∀ r ∈ rows, r.IsAbout o) (m : Memory) :
    (conjunction rows).firesIn m = true ↔ ∀ r ∈ rows, r.holdsAt o (m.read o) = true := by
  have hplain : ∀ r ∈ rows, r.role = .plain := fun r hr => (h r hr).isFilter.role
  have hpasses : (conjunction rows).firesIn m = passesIn m (rows.map single) := by
    rw [← firesIn_ofTrigger, ← split_of_plain hplain]
    simp [ClauseGroups.firesIn, ofTrigger, conjunction]
  rw [hpasses, passesIn_of_plain m (List.forall_mem_map.mpr hplain), List.all_eq_true,
    List.forall_mem_map]
  refine forall₂_congr fun r hr => ?_
  rw [holdsIn_single m (h r hr).isFilter.hits, (h r hr).testIn ho]

/-- In a round, tests of one read are settled and merged, and nothing else happens to them. -/
theorem ofTrigger_round_conjunction (ho : o.isMemory = true) (h : ∀ r ∈ rows, r.IsAbout o) :
    ∃ anyHits, ofTrigger (conjunction rows).round =
      ⟨(mergeOverlaps anyHits true (settledClauses rows).eraseDups).value, []⟩ := by
  have hbounds := isBoundOf_of_mem_settledClauses ho h
  have hdistinct : (conjunction rows).distinct = ⟨(settledClauses rows).eraseDups, []⟩ := by
    have hsettled : (conjunction rows).settledGroups = ⟨settledClauses rows, []⟩ := rfl
    have hplain : ∀ c ∈ settledClauses rows, c.role = .plain := fun c hc =>
      (hbounds c hc).2.isFilter.role
    rw [distinct, shared, hsettled, filterGuards_of_plain hplain]
    rfl
  refine ⟨(conjunction rows).distinct.anyHits, ?_⟩
  rw [ofTrigger_round ((isHitFree_conjunction h).hitFreeClauses.imp fun _ hc => hc.isTerminated),
    hdistinct]
  refine congrArg (ClauseGroups.mk · []) (value_mergeBitTests_of_isBoundOf (o := o) ?_)
  exact forall_isBoundOf_mergeOverlaps fun c hc => hbounds c (List.mem_eraseDups.mp hc)

/-- **A round on tests of one read** leaves bounds of the read, which no merge brings together and
which the same values pass. -/
theorem exists_round_conjunction (ho : o.isMemory = true) (h : ∀ r ∈ rows, r.IsAbout o) :
    ∃ rows', (conjunction rows).round = conjunction rows' ∧ (∀ r ∈ rows', r.IsBoundOf o) ∧
      (∃ anyHits, mergeStep anyHits true (rows'.map single) = none) ∧
      ∀ x ≤ o.maxValue,
        (∀ r ∈ rows', r.holdsAt o x = true) ↔ ∀ r ∈ rows, r.holdsAt o x = true := by
  obtain ⟨anyHits, hround⟩ := ofTrigger_round_conjunction ho h
  have hbounds : ∀ c ∈ (mergeOverlaps anyHits true (settledClauses rows).eraseDups).value,
      c.IsBoundOf o := forall_isBoundOf_mergeOverlaps fun c hc =>
    isBoundOf_of_mem_settledClauses ho h c (List.mem_eraseDups.mp hc)
  have hdone := mergeStep_mergeOverlaps anyHits true (settledClauses rows).eraseDups
  generalize (mergeOverlaps anyHits true (settledClauses rows).eraseDups).value = group
    at hround hbounds hdone
  have hrows : ∀ r ∈ group.map terminal, r.IsBoundOf o :=
    List.forall_mem_map.mpr fun c hc => (hbounds c hc).2
  have hround : (conjunction rows).round = conjunction (group.map terminal) := by
    rw [← toTrigger_ofTrigger (conjunction rows).round, hround]
    refine congrArg conjunction ?_
    calc join group = join ((group.map terminal).map single) := by rw [map_single_terminal hbounds]
      _ = group.map terminal := join_map_single _
  refine ⟨group.map terminal, hround, hrows, ⟨anyHits, ?_⟩, fun x hx => ?_⟩
  · rwa [map_single_terminal hbounds]
  · obtain ⟨m, rfl⟩ := Memory.exists_read_eq ho hx
    have hfires : (conjunction rows).round.firesIn m = (conjunction rows).firesIn m :=
      firesIn_round (isHitFree_conjunction h).hitFreeClauses m
    rw [← firesIn_conjunction ho h, ← hfires, hround,
      firesIn_conjunction ho fun r hr => .bound (hrows r hr)]

/-- **Tests of one read simplify to rows that the same values pass.** -/
theorem exists_simplify_conjunction (ho : o.isMemory = true) (h : ∀ r ∈ rows, r.IsAbout o) :
    ∃ rows', (conjunction rows).simplify = conjunction rows' ∧
      ∀ x ≤ o.maxValue,
        (∀ r ∈ rows', r.holdsAt o x = true) ↔ ∀ r ∈ rows, r.holdsAt o x = true := by
  rw [simplify_eq_iterate]
  induction Pass.maxRounds generalizing rows with
  | zero => exact ⟨rows, rfl, fun _ _ => Iff.rfl⟩
  | succ n ih =>
    obtain ⟨rows', hround, hbounds, -, hvalues⟩ := exists_round_conjunction ho h
    rw [Function.iterate_succ_apply, hround]
    obtain ⟨rows'', hrounds, hvalues'⟩ := ih fun r hr => .bound (hbounds r hr)
    exact ⟨rows'', hrounds, fun x hx => (hvalues' x hx).trans (hvalues x hx)⟩

theorem round_conjunction_constant (truth : Bool) :
    (conjunction [.constant truth]).round = conjunction [.constant truth] := by
  cases truth <;> decide +kernel

/-- A trigger that rounds have made constant stays so. -/
theorem simplify_of_iterate_round {t : Trigger} {truth : Bool} {n : Nat} (hn : n ≤ Pass.maxRounds)
    (h : round^[n] t = conjunction [.constant truth]) :
    t.simplify = conjunction [.constant truth] := by
  obtain ⟨k, hk⟩ := Nat.exists_eq_add_of_le' hn
  rw [simplify_eq_iterate, hk, Function.iterate_add_apply, h,
    Function.iterate_fixed (round_conjunction_constant truth)]

/-- Tests that no value passes come down to `0=1` in two rounds: the first leaves one that no value
passes, and the second settles it. -/
theorem round_round_of_unsatisfiable (ho : o.isMemory = true) (h : ∀ r ∈ rows, r.IsAbout o)
    (hnone : ¬ ∃ x ≤ o.maxValue, ∀ r ∈ rows, r.holdsAt o x = true) :
    round^[2] (conjunction rows) = conjunction [.constant false] := by
  obtain ⟨rows', hround, hbounds, ⟨anyHits, hdone⟩, hvalues⟩ := exists_round_conjunction ho h
  obtain ⟨r, hr, hr'⟩ : ∃ r ∈ rows', ∀ x ≤ o.maxValue, r.holdsAt o x = false := by
    by_contra hsome
    have heach : ∀ r ∈ rows', ∃ x ≤ o.maxValue, r.holdsAt o x = true := by
      simpa using hsome
    obtain ⟨x, hx, hall⟩ := exists_forall_holdsAt ho hbounds hdone heach
    exact hnone ⟨x, hx, (hvalues x hx).mp hall⟩
  have hsettled :
      (conjunction rows').settledGroups = (conjunction [.constant false]).settledGroups :=
    congrArg (ClauseGroups.mk · [])
      (settledClauses_of_unsatisfiable ho (fun r hr => .bound (hbounds r hr)) hr hr')
  rw [Function.iterate_succ_apply, hround, Function.iterate_one, round_congr hsettled,
    round_conjunction_constant]

/-- Tests that all values pass come down to `1=1` in one round. -/
theorem round_of_valid (ho : o.isMemory = true) (h : ∀ r ∈ rows, r.IsAbout o) (hne : rows ≠ [])
    (hall : ∀ x ≤ o.maxValue, ∀ r ∈ rows, r.holdsAt o x = true) :
    (conjunction rows).round = conjunction [.constant true] := by
  have hsettled : (conjunction rows).settledGroups = (conjunction [.constant true]).settledGroups :=
    congrArg (ClauseGroups.mk · [])
      (settledClauses_of_valid ho h hne fun r hr x hx => hall x hx r hr)
  rw [round_congr hsettled, round_conjunction_constant]

/-- **Tests of one read are decided**: they simplify to `0=1` exactly if no value of the read passes
them all, and to `1=1` exactly if every value does. -/
theorem simplify_conjunction_iff {o : Operand} (ho : o.isMemory = true) {rows : List Row}
    (hne : rows ≠ []) (hrows : ∀ r ∈ rows, r.isTestOf o = true) :
    (conjunction rows).simplify.alternates = [] ∧
      ((conjunction rows).simplify.core = [.alwaysFalse] ↔
        ¬ ∃ x ≤ o.maxValue, ∀ r ∈ rows, r.holdsAt o x = true) ∧
      ((conjunction rows).simplify.core = [.alwaysTrue] ↔
        ∀ x ≤ o.maxValue, ∀ r ∈ rows, r.holdsAt o x = true) := by
  have h : ∀ r ∈ rows, r.IsAbout o := fun r hr => Row.isAbout_of_isTestOf (hrows r hr)
  obtain ⟨rows', hsimplify, hvalues⟩ := exists_simplify_conjunction ho h
  have hpassed (truth : Bool) (hcore : (conjunction rows).simplify.core = [.constant truth])
      {x : UInt32} (hx : x ≤ o.maxValue) : (∀ r ∈ rows, r.holdsAt o x = true) ↔ truth = true := by
    obtain rfl : rows' = [.constant truth] := by rwa [hsimplify] at hcore
    rw [← hvalues x hx, List.forall_mem_singleton, Row.holdsAt_constant ho]
  refine ⟨by rw [hsimplify]; rfl, ⟨?_, fun hnone => ?_⟩, ⟨fun hcore x hx => ?_, fun hall => ?_⟩⟩
  · rintro hcore ⟨x, hx, hall⟩
    cases (hpassed false hcore hx).mp hall
  · rw [simplify_of_iterate_round (by decide) (round_round_of_unsatisfiable ho h hnone)]
    rfl
  · exact (hpassed true hcore hx).mpr rfl
  · rw [simplify_of_iterate_round (n := 1) (by decide) (round_of_valid ho h hne hall)]
    rfl

/-- A byte from two to four that is none of the three, with one literal on the left. -/
def squeezedByte : List Row :=
  let byte : Operand := .memory .byte 0x20
  [.comparing byte .ge (.literal 2), .comparing byte .ne (.literal 3),
    .comparing (.literal 4) .ge byte, .comparing byte .ne (.literal 2),
    .comparing byte .ne (.literal 4)]

theorem simplify_squeezedByte :
    (∀ r ∈ squeezedByte, r.isTestOf (.memory .byte 0x20) = true) ∧
      (conjunction squeezedByte).simplify.core = [.alwaysFalse] := by
  have htests : ∀ r ∈ squeezedByte, r.isTestOf (.memory .byte 0x20) = true := by decide
  refine ⟨htests, (simplify_conjunction_iff rfl (by decide) htests).2.1.mpr ?_⟩
  rintro ⟨x, -, hall⟩
  simp [squeezedByte, Row.holdsAt, Row.comparing, Operand.valueAt, Operand.memory, Operand.literal,
    Operator.test?, Relation.holds] at hall
  grind

end Trigger
end MemoryTrigger

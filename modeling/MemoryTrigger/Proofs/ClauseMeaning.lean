import MemoryTrigger.Proofs.RowMeaning
import MemoryTrigger.Proofs.ValueSets
import MemoryTrigger.Simplify.Guards

/-! # What rewriting a clause does to its truth

A clause tests its terminal row in the state that its lead prepares (`Clause.stateIn`).  A lead of
modifier rows prepares a place for the reads and a sum for the left side and nothing else, so that
such a clause compares one quantity (`Clause.quantityIn`).  From this follow the three facts that the
passes use: a clause with a static truth has it in every memory, the filters of `Clause.inverted?`
hold together exactly when the clause does not, and a clause that has a value set holds exactly
when its quantity is in the set. -/
namespace MemoryTrigger

namespace ChainState

/-- Modifier rows touch neither the truth nor the hits that earlier rows have handed on. -/
theorem foldl_step_modifiers (m : Memory) (lead : List Row) (s : ChainState)
    (h : lead.all (·.role.isModifier) = true) :
    (lead.foldl (step m) s).pending = s.pending ∧ (lead.foldl (step m) s).hits = s.hits := by
  induction lead generalizing s with
  | nil => exact ⟨rfl, rfl⟩
  | cons r rest ih =>
    rw [List.all_cons, Bool.and_eq_true] at h
    obtain ⟨hpending, hhits⟩ := ih (step m s r) h.2
    rw [List.foldl_cons, hpending, hhits]
    cases hrole : r.role <;> simp_all [step, Role.isModifier]

/-- Pointer rows only move the reads of the row behind them. -/
theorem foldl_step_pointers (m : Memory) {lead : List Row} (h : ∀ r ∈ lead, r.role = .addAddress)
    (s : ChainState) :
    lead.foldl (step m) s =
      { s with base := lead.foldl (fun base r => r.fedValue m base) s.base } := by
  induction lead generalizing s with
  | nil => rfl
  | cons r rest ih =>
    obtain ⟨hr, hrest⟩ := List.forall_mem_cons.mp h
    have hstep : step m s r = { s with base := r.fedValue m s.base } := by simp [step, hr]
    rw [List.foldl_cons, hstep, ih hrest]
    rfl

/-- The disjunction that a state has pending. -/
def pendingOr (s : ChainState) : Bool :=
  match s.pending with
  | some (.or, truth) => truth
  | _ => false

theorem joined_of_pending_or {s : ChainState} (h : ∀ j b, s.pending = some (j, b) → j = .or)
    (truth : Bool) : s.joined truth = (truth || s.pendingOr) := by
  unfold joined pendingOr
  cases hs : s.pending with
  | none => simp
  | some p =>
    obtain ⟨j, b⟩ := p
    cases h j b hs
    rfl

/-- A row behind `orNext` rows holds when its own test or one of theirs does. -/
theorem truthOf_foldl_orNext (m : Memory) (lead : List Row) (t : Row) (s : ChainState)
    (hbase : s.base = 0) (hsum : s.sum = 0) (hs : ∀ j b, s.pending = some (j, b) → j = .or)
    (h : ∀ r ∈ lead, r.role = .orNext) :
    (lead.foldl (step m) s).truthOf m t =
      (s.pendingOr || (lead ++ [t]).any (·.testIn m 0 0)) := by
  induction lead generalizing s with
  | nil => simp [truthOf, joined_of_pending_or hs, hbase, hsum, Bool.or_comm]
  | cons r rest ih =>
    have hstep : step m s r = { hits := s.hits, pending := some (.or, s.truthOf m r) } := by
      simp [step, h r List.mem_cons_self]
    rw [List.foldl_cons, hstep, ih _ rfl rfl (by simp)
      fun r' hr' => h r' (List.mem_cons_of_mem _ hr')]
    simp [pendingOr, truthOf, joined_of_pending_or hs, hbase, hsum, Bool.or_left_comm,
      Bool.or_assoc]

end ChainState

namespace Clause

/-- What the lead of a clause prepares for its terminal row. -/
def stateIn (m : Memory) (c : Clause) : ChainState := c.lead.foldl (ChainState.step m) {}

theorem holdsIn_eq (m : Memory) (c : Clause) :
    c.holdsIn m = if c.terminal.hits = 0 then (c.stateIn m).truthOf m c.terminal
      else decide (c.terminal.hits.toNat ≤
        (c.stateIn m).hits + ((c.stateIn m).truthOf m c.terminal).toInt) := rfl

theorem holdsIn_of_hits_eq_zero (m : Memory) {c : Clause} (h : c.terminal.hits = 0) :
    c.holdsIn m = (c.stateIn m).truthOf m c.terminal := by
  rw [holdsIn_eq, if_pos h]

theorem hits_eq_zero_of_not_hasHits {c : Clause} (h : c.hasHits = false) :
    ∀ r ∈ c.rows, r.hits = 0 := by
  intro r hr
  have hle : ¬ r.hits > 0 := by simpa using List.any_eq_false.mp h r hr
  rw [gt_iff_lt, UInt32.pos_iff_ne_zero] at hle
  exact Classical.not_not.mp hle

theorem terminal_mem_rows (c : Clause) : c.terminal ∈ c.rows := by simp [rows]

theorem hits_terminal_of_isPlain {c : Clause} (h : c.isPlain = true) : c.terminal.hits = 0 := by
  have hhits : c.hasHits = false := by simpa using (Bool.and_eq_true_iff.mp h).2
  exact hits_eq_zero_of_not_hasHits hhits _ c.terminal_mem_rows

theorem role_of_isPlain {c : Clause} (h : c.isPlain = true) : c.role = .plain := by
  simpa using (Bool.and_eq_true_iff.mp h).1

/-! ## Settled clauses -/

theorem constant?_eq_some {c : Clause} {truth : Bool} :
    c.constant? = some truth ↔ c.lead = [] ∧ c.terminal.evaluate? = some truth := by
  unfold constant?
  split
  · rename_i h
    simp [List.isEmpty_iff.mp h]
  · rename_i h
    simp only [reduceCtorEq, false_iff, not_and]
    intro hlead
    simp [hlead] at h

theorem truthOf_of_constant? (m : Memory) {c : Clause} {truth : Bool}
    (h : c.constant? = some truth) :
    c.stateIn m = {} ∧ (c.stateIn m).truthOf m c.terminal = truth := by
  obtain ⟨hlead, heval⟩ := constant?_eq_some.mp h
  have hstate : c.stateIn m = {} := by simp [stateIn, hlead]
  refine ⟨hstate, ?_⟩
  rw [hstate]
  exact Row.testIn_of_evaluate? m 0 heval

/-- A clause that is settled to be true holds, unless it has to count hits first. -/
theorem holdsIn_of_constant?_true (m : Memory) {c : Clause} (h : c.constant? = some true)
    (hhits : c.terminal.hits = 0) : c.holdsIn m = true := by
  rw [holdsIn_of_hits_eq_zero m hhits]
  exact (truthOf_of_constant? m h).2

/-- A clause that is settled to be false never holds, whatever its hit target. -/
theorem holdsIn_of_constant?_false (m : Memory) {c : Clause} (h : c.constant? = some false) :
    c.holdsIn m = false := by
  obtain ⟨hstate, htruth⟩ := truthOf_of_constant? m h
  rw [holdsIn_eq, htruth, hstate]
  split
  · rfl
  · rename_i hhits
    have hpos : c.terminal.hits.toNat ≠ 0 := by
      intro hzero
      exact hhits (UInt32.toNat_inj.mp (by simpa using hzero))
    simp only [Bool.toInt_false, Int.add_zero, decide_eq_false_iff_not]
    omega

@[simp] theorem holdsIn_alwaysTrue (m : Memory) : (single .alwaysTrue).holdsIn m = true :=
  holdsIn_of_constant?_true m rfl rfl

@[simp] theorem holdsIn_alwaysFalse (m : Memory) : (single .alwaysFalse).holdsIn m = false :=
  holdsIn_of_constant?_false m rfl

/-! ## Inverted clauses -/

/-- A lead of modifier rows leaves the terminal test as it is. -/
theorem truthOf_of_modifiers (m : Memory) {c : Clause}
    (h : c.lead.all (·.role.isModifier) = true) (r : Row) :
    (c.stateIn m).truthOf m r = r.testIn m (c.stateIn m).base (c.stateIn m).sum := by
  have hpending : (c.stateIn m).pending = none :=
    (ChainState.foldl_step_modifiers m c.lead {} h).1
  simp [ChainState.truthOf, ChainState.joined, hpending]

end Clause

theorem Row.testIn_inverted (m : Memory) (base sum : UInt32) {r : Row}
    (h : r.isComparison = true) : r.inverted.testIn m base sum = !r.testIn m base sum :=
  Operator.test?_inverse r.operator _ _ h

theorem Row.isComparison_inverted {r : Row} (h : r.isComparison = true) :
    r.inverted.isComparison = true := by
  cases hop : r.operator <;>
    simp_all [Row.isComparison, Row.inverted, Operator.isComparison, Operator.inverse]

namespace Clause

/-- A single row without a hit target holds when its test does. -/
theorem holdsIn_single (m : Memory) {r : Row} (h : r.hits = 0) :
    (single r).holdsIn m = r.testIn m 0 0 :=
  holdsIn_of_hits_eq_zero m (c := single r) h

/-- The two shapes of clauses that can be inverted: a comparison behind modifier rows, and a
disjunction of comparisons. -/
theorem inverted?_cases {c : Clause} {filters : List Clause} (h : c.inverted? = some filters) :
    (∀ r ∈ c.rows, r.hits = 0) ∧ c.terminal.isComparison = true ∧
      ((c.lead.all (·.role.isModifier) = true ∧ filters = [⟨c.lead, c.terminal.inverted⟩]) ∨
        ((∀ r ∈ c.lead, r.role = .orNext) ∧ (∀ r ∈ c.rows, r.isComparison = true) ∧
          filters = c.rows.map fun r => single r.inverted)) := by
  unfold inverted? at h
  split at h
  · cases h
  rename_i hguard
  obtain ⟨hhits, hcompares⟩ : c.hasHits = false ∧ c.terminal.isComparison = true := by
    simpa using hguard
  refine ⟨hits_eq_zero_of_not_hasHits hhits, hcompares, ?_⟩
  split at h
  · exact .inl ⟨‹_›, (Option.some.inj h).symm⟩
  split at h
  · rename_i hor
    have hlead : ∀ r ∈ c.lead, r.role = .orNext ∧ r.isComparison = true := by simpa using hor
    refine .inr ⟨fun r hr => (hlead r hr).1, fun r hr => ?_, (Option.some.inj h).symm⟩
    rcases List.mem_append.mp hr with hr | hr
    · exact (hlead r hr).2
    · rw [List.mem_singleton.mp hr]
      exact hcompares
  · cases h

/-- **The filters of an inverted clause hold together exactly when the clause does not**: behind
modifier rows the comparison is negated, and a disjunction falls by De Morgan into its links. -/
theorem all_holdsIn_inverted? (m : Memory) {c : Clause} {filters : List Clause}
    (h : c.inverted? = some filters) : filters.all (·.holdsIn m) = !c.holdsIn m := by
  obtain ⟨hzero, hcompares, ⟨hmod, rfl⟩ | ⟨hrole, hrows, rfl⟩⟩ := inverted?_cases h
  · have hterminal := hzero _ c.terminal_mem_rows
    have hfilter : (⟨c.lead, c.terminal.inverted⟩ : Clause).holdsIn m =
        (c.stateIn m).truthOf m c.terminal.inverted :=
      holdsIn_of_hits_eq_zero m hterminal
    rw [List.all_cons, List.all_nil, Bool.and_true, hfilter, holdsIn_of_hits_eq_zero m hterminal,
      truthOf_of_modifiers m hmod, truthOf_of_modifiers m hmod,
      Row.testIn_inverted m _ _ hcompares]
  · have hrow : ∀ r ∈ c.rows, (single r.inverted).holdsIn m = !r.testIn m 0 0 := by
      intro r hr
      have hinverted : r.inverted.hits = 0 := hzero r hr
      rw [holdsIn_single m hinverted, Row.testIn_inverted m 0 0 (hrows r hr)]
    have hchain : (c.stateIn m).truthOf m c.terminal = c.rows.any (·.testIn m 0 0) :=
      ChainState.truthOf_foldl_orNext m c.lead c.terminal {} rfl rfl (by simp) hrole
    rw [holdsIn_of_hits_eq_zero m (hzero _ c.terminal_mem_rows), hchain, List.all_map,
      List.not_any_eq_all_not, Bool.eq_iff_iff, List.all_eq_true, List.all_eq_true]
    constructor
    · exact fun hall r hr => by rw [← hrow r hr]; exact hall r hr
    · exact fun hall r hr => by rw [Function.comp, hrow r hr]; exact hall r hr

/-- Inverted clauses are plain filters without hit targets. -/
theorem isPlain_of_mem_inverted? {c d : Clause} {filters : List Clause}
    (h : c.inverted? = some filters) (hd : d ∈ filters) : d.isPlain = true := by
  obtain ⟨hzero, -, ⟨-, rfl⟩ | ⟨-, -, rfl⟩⟩ := inverted?_cases h
  · have hrows : ∀ r ∈ c.lead ++ [c.terminal.inverted], r.hits = 0 := by
      intro r hr
      rcases List.mem_append.mp hr with hr | hr
      · exact hzero r (List.mem_append_left _ hr)
      · rw [List.mem_singleton.mp hr]
        exact hzero c.terminal c.terminal_mem_rows
    have hhits : (⟨c.lead, c.terminal.inverted⟩ : Clause).hasHits = false := by
      rw [hasHits, List.any_eq_false]
      exact fun r hr => by simp [hrows r hr]
    rw [List.mem_singleton.mp hd, isPlain, hhits]
    rfl
  · obtain ⟨r, hr, rfl⟩ := List.mem_map.mp hd
    simp [isPlain, role, single, hasHits, rows, Row.inverted, hzero r hr]

/-! ## Clauses that compare one quantity -/

/-- What the terminal row of a clause compares: its left operand, moved and added to by the lead. -/
def quantityIn (m : Memory) (c : Clause) : UInt32 :=
  c.terminal.left.valueIn m (c.stateIn m).base + (c.stateIn m).sum

theorem sameQuantity_iff {c d : Clause} :
    c.sameQuantity d = true ↔ c.lead = d.lead ∧ c.terminal.left = d.terminal.left := by
  simp [sameQuantity]

theorem quantityIn_eq_of_sameQuantity (m : Memory) {c d : Clause}
    (h : c.sameQuantity d = true) : c.quantityIn m = d.quantityIn m := by
  obtain ⟨hlead, hleft⟩ := sameQuantity_iff.mp h
  simp [quantityIn, stateIn, hlead, hleft]

theorem valueSet?_eq_some {c : Clause} {s : ValueSet} :
    c.valueSet? = some s ↔ ∃ relation limit, c.terminal.operator = .compare relation ∧
      quantityMax? c.lead c.terminal.left = some limit ∧ c.terminal.right.isLiteral = true ∧
      s = ValueSet.ofComparison relation c.terminal.right.value limit := by
  unfold valueSet?
  split
  · rename_i relation limit hop hmax
    rw [hop, hmax]
    split
    · rename_i hlit
      simp [hlit, eq_comm]
    · rename_i hlit
      simp [hlit]
  · rename_i hnone
    simp only [reduceCtorEq, false_iff]
    rintro ⟨relation, limit, hop, hmax, -, -⟩
    exact hnone relation limit hop hmax

theorem modifiers_of_quantityMax? {lead : List Row} {left : Operand} {limit : Nat}
    (h : quantityMax? lead left = some limit) : lead.all (·.role.isModifier) = true := by
  unfold quantityMax? at h
  split at h
  · cases h
  · rename_i hall
    simpa using hall

/-- The quantity of a clause lies in the range that is assumed of it. -/
theorem quantityIn_le_of_quantityMax? (m : Memory) {c : Clause} {limit : Nat}
    (h : quantityMax? c.lead c.terminal.left = some limit) : (c.quantityIn m).toNat ≤ limit := by
  unfold quantityMax? at h
  split at h
  · cases h
  · split at h
    · cases h
      have := (c.quantityIn m).toNat_lt
      simp only [UInt32.size]
      omega
    · rename_i hacc
      split at h
      · rename_i hmem
        cases h
        have hpointers : ∀ r ∈ c.lead, r.role = .addAddress := by simpa using hacc
        have hsum : (c.stateIn m).sum = 0 := by
          rw [Clause.stateIn, ChainState.foldl_step_pointers m hpointers]
        rw [quantityIn, hsum, UInt32.add_zero]
        exact UInt32.le_iff_toNat_le.mp (Operand.valueIn_le m _ hmem)
      · cases h

/-- A comparison of a quantity with a literal holds when the quantity passes it. -/
theorem holdsIn_of_compare (m : Memory) {c : Clause} {relation : Relation}
    (hlead : c.lead.all (·.role.isModifier) = true) (hhits : c.terminal.hits = 0)
    (hop : c.terminal.operator = .compare relation) (hright : c.terminal.right.isLiteral = true) :
    c.holdsIn m = relation.holds (c.quantityIn m).toNat c.terminal.right.value.toNat := by
  rw [holdsIn_of_hits_eq_zero m hhits, truthOf_of_modifiers m hlead, Relation.holds_toNat]
  simp [Row.testIn, hop, Operator.test?, quantityIn, Operand.valueIn_of_isLiteral m _ hright]

theorem quantityIn_le_limit (m : Memory) {c : Clause} {s : ValueSet} (h : c.valueSet? = some s) :
    (c.quantityIn m).toNat ≤ s.limit := by
  obtain ⟨relation, limit, -, hmax, -, rfl⟩ := valueSet?_eq_some.mp h
  exact quantityIn_le_of_quantityMax? m hmax

/-- **A clause with a value set holds exactly when its quantity is in the set.** -/
theorem holdsIn_iff_mem (m : Memory) {c : Clause} {s : ValueSet} (h : c.valueSet? = some s)
    (hhits : c.terminal.hits = 0) : c.holdsIn m = true ↔ (c.quantityIn m).toNat ∈ s := by
  obtain ⟨relation, limit, hop, hmax, hright, rfl⟩ := valueSet?_eq_some.mp h
  rw [holdsIn_of_compare m (modifiers_of_quantityMax? hmax) hhits hop hright,
    ValueSet.mem_ofComparison]
  exact (and_iff_right (quantityIn_le_of_quantityMax? m hmax)).symm

/-- The clause with another relation and another literal on its terminal row. -/
def comparingTo (c : Clause) (relation : Relation) (value : UInt32) : Clause :=
  { c with terminal := { c.terminal with
      operator := .compare relation, right := { c.terminal.right with value } } }

theorem withSet?_eq_some {c d : Clause} {s : ValueSet} :
    c.withSet? s = some d ↔
      ∃ relation value, s.bound? = some (.compare relation value) ∧
        d = c.comparingTo relation value := by
  unfold withSet?
  split
  · rename_i relation value hbound
    rw [hbound]
    constructor
    · rintro ⟨⟩
      exact ⟨relation, value, rfl, rfl⟩
    · rintro ⟨_, _, ⟨⟩, rfl⟩
      rfl
  · rename_i hnone
    simp only [reduceCtorEq, false_iff]
    rintro ⟨relation, value, hbound, -⟩
    exact hnone relation value hbound

/-- A clause that was given the comparison of a set holds when its quantity is in that set. -/
theorem holdsIn_withSet? (m : Memory) {c d : Clause} {s t : ValueSet} (hs : c.valueSet? = some s)
    (hd : c.withSet? t = some d) (hhits : c.terminal.hits = 0) (hlimit : s.limit ≤ t.limit) :
    d.holdsIn m = true ↔ (c.quantityIn m).toNat ∈ t := by
  have hle : (c.quantityIn m).toNat ≤ t.limit :=
    Nat.le_trans (quantityIn_le_limit m hs) hlimit
  obtain ⟨_, limit, -, hmax, hright, -⟩ := valueSet?_eq_some.mp hs
  obtain ⟨relation, value, hbound, rfl⟩ := withSet?_eq_some.mp hd
  have hcompare : (c.comparingTo relation value).holdsIn m =
      relation.holds (c.quantityIn m).toNat value.toNat :=
    holdsIn_of_compare m (modifiers_of_quantityMax? hmax) hhits rfl hright
  rw [hcompare, ValueSet.mem_iff_of_bound? hbound hle, Bound.Allows]

/-- Clauses of one quantity have sets in one range. -/
theorem limit_eq_of_sameQuantity {c d : Clause} {s t : ValueSet} (h : c.sameQuantity d = true)
    (hs : c.valueSet? = some s) (ht : d.valueSet? = some t) : s.limit = t.limit := by
  obtain ⟨hlead, hleft⟩ := sameQuantity_iff.mp h
  obtain ⟨_, limit, -, hmax, -, rfl⟩ := valueSet?_eq_some.mp hs
  obtain ⟨_, limit', -, hmax', -, rfl⟩ := valueSet?_eq_some.mp ht
  rw [hlead, hleft, hmax'] at hmax
  exact (Option.some.inj hmax).symm

/-- A quantity with a range is a read, or lies behind modifier rows. -/
theorem lead_ne_nil_or_isMemory {c : Clause} {s : ValueSet} (h : c.valueSet? = some s) :
    c.lead ≠ [] ∨ c.terminal.left.isMemory = true := by
  obtain ⟨relation, limit, -, hmax, -, -⟩ := valueSet?_eq_some.mp h
  unfold quantityMax? at hmax
  split at hmax
  · cases hmax
  split at hmax
  · rename_i hany
    refine .inl fun hnil => ?_
    simp [hnil] at hany
  split at hmax
  · exact .inr ‹_›
  · cases hmax

/-- A comparison with a constant truth compares no quantity. -/
theorem valueSet?_of_constant? {c : Clause} {truth : Bool} (h : c.constant? = some truth) :
    c.valueSet? = none := by
  refine Option.eq_none_iff_forall_ne_some.mpr fun s hs => ?_
  obtain ⟨_, _, -, -, hright, -⟩ := valueSet?_eq_some.mp hs
  obtain ⟨hlead, hevaluate⟩ := constant?_eq_some.mp h
  have hleft : c.terminal.left.isMemory = true :=
    (lead_ne_nil_or_isMemory hs).resolve_left fun hne => hne hlead
  have hliteral : c.terminal.left.isLiteral = false := by
    cases hkind : c.terminal.left.kind <;> simp_all [Operand.isMemory, Operand.isLiteral]
  have hdiffer : c.terminal.left ≠ c.terminal.right := fun heq => by
    rw [heq, hright] at hliteral
    cases hliteral
  simp [Row.evaluate?, hliteral, hdiffer] at hevaluate

section SameQuantity
variable (m : Memory) {c d : Clause} {s t : ValueSet}

/-- Both of two clauses hold when their quantity lies in the common part of their sets. -/
theorem mem_intersect_iff_holdsIn (hq : c.sameQuantity d = true) (hs : c.valueSet? = some s)
    (ht : d.valueSet? = some t) (hc : c.terminal.hits = 0) (hd : d.terminal.hits = 0) :
    (c.quantityIn m).toNat ∈ s.intersect t ↔ c.holdsIn m = true ∧ d.holdsIn m = true := by
  have hlimit := limit_eq_of_sameQuantity hq hs ht
  have hle := quantityIn_le_limit m hs
  rw [ValueSet.mem_intersect, holdsIn_iff_mem m hs hc, holdsIn_iff_mem m ht hd,
    ← quantityIn_eq_of_sameQuantity m hq]
  exact and_iff_left (by omega)

/-- One of two clauses holds when their quantity lies in one of their sets. -/
theorem mem_union_iff_holdsIn (hq : c.sameQuantity d = true) (hs : c.valueSet? = some s)
    (ht : d.valueSet? = some t) (hc : c.terminal.hits = 0) (hd : d.terminal.hits = 0) :
    (c.quantityIn m).toNat ∈ s.union t ↔ c.holdsIn m = true ∨ d.holdsIn m = true := by
  have hle := quantityIn_le_limit m hs
  rw [ValueSet.mem_union, holdsIn_iff_mem m hs hc, holdsIn_iff_mem m ht hd,
    ← quantityIn_eq_of_sameQuantity m hq]
  exact and_iff_left (by omega)

end SameQuantity

end Clause
end MemoryTrigger

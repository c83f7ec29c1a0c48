import MemoryTrigger.Proofs.Lowering.Provenance
import MemoryTrigger.Proofs.Simplify.Invariants

/-! # The rows of a compiled trigger

Lowering says where the rows of a trigger come from and simplifying says what becomes of them.  A
property that the former gives to rows and that the latter preserves holds of all rows of a compiled
trigger, simplified or not (`Trigger.forall_mem_rows_of_compile`).  Two facts follow.

*Shape.*  Modifier rows count no hits and do not compare, all other rows compare two operands, and
every group ends in a terminal row, so that no modifier feeds a clause that it was not made for.
Simplifying keeps any trigger in this shape, compiled or not.

*Targets.*  All measured rows with a target have the same one.  Lowering compares the target of each
with the first target met, which it threads through the whole condition, and the simplifier leaves
measured rows alone: it neither settles them nor bounds them, and inverting makes plain rows. -/
namespace MemoryTrigger

namespace Trigger
variable {s : Setting} {c : Condition} {t : Trigger}

/-- **Rows of a compiled trigger have what lowering gives and simplifying preserves.** -/
theorem forall_mem_rows_of_compile {P : FirstTarget → Row → Prop} (hP : Row.Emitted P)
    (hpreserved : ∀ first, Row.Preserved (P first))
    (hsettled : ∀ {first : FirstTarget} {r : Row} (after : Bool), P first r →
      P first (r.settled after))
    (h : compile s c = .ok t) :
    (∀ group ∈ t.groups, Clause.EndsClause group) ∧ ∃ first, ∀ r ∈ t.rows, P first r := by
  obtain ⟨u, first, hlower, hcases⟩ := exists_lower_of_compile h
  have hemitted := (Condition.isEmitted_of_lower hP hlower).2
  rcases hcases with rfl | rfl
  · obtain ⟨hends, hrows⟩ :=
      forall_mem_rows_simplify (hpreserved first) hsettled hemitted.ends hemitted.rows
    exact ⟨hends, first, hrows⟩
  · exact ⟨hemitted.ends, first, hemitted.rows⟩

end Trigger

/-! ## Shape -/

/-- The operand reads memory or is a literal. -/
def Operand.hasValue (o : Operand) : Bool := o.isMemory || o.isLiteral

theorem Operand.hasValue_iff {o : Operand} : o.hasValue = true ↔ o.kind ≠ .unused := by
  unfold hasValue isMemory isLiteral
  cases o.kind <;> simp

/-- **A row in the shape its role asks for**: a modifier row counts no hits and has an arithmetic
operator or none, and every other row compares two operands. -/
structure Row.IsWellFormed (r : Row) : Prop where
  modifier : r.role.isModifier = true →
    r.hits = 0 ∧ (r.operator = .absent ∨ r.operator.isArithmetic = true)
  comparison : r.role.isModifier = false →
    r.operator.isComparison = true ∧ r.left.hasValue = true ∧ r.right.hasValue = true

instance (r : Row) : Decidable r.IsWellFormed :=
  decidable_of_iff
    ((r.role.isModifier = true →
        r.hits = 0 ∧ (r.operator = .absent ∨ r.operator.isArithmetic = true)) ∧
      (r.role.isModifier = false →
        r.operator.isComparison = true ∧ r.left.hasValue = true ∧ r.right.hasValue = true))
    ⟨fun h => ⟨h.1, h.2⟩, fun h => ⟨h.modifier, h.comparison⟩⟩

/-- **A trigger of well-formed rows whose groups end in terminal rows.** -/
structure Trigger.IsWellFormed (t : Trigger) : Prop where
  ends : ∀ group ∈ t.groups, Clause.EndsClause group
  rows : ∀ r ∈ t.rows, r.IsWellFormed

instance (t : Trigger) : Decidable t.IsWellFormed :=
  decidable_of_iff ((∀ group ∈ t.groups, Clause.EndsClause group) ∧ ∀ r ∈ t.rows, r.IsWellFormed)
    ⟨fun h => ⟨h.1, h.2⟩, fun h => ⟨h.ends, h.rows⟩⟩

theorem Operator.absent_or_isArithmetic {op : Operator} :
    (op = .absent ∨ op.isArithmetic = true) ↔ op.isComparison = false := by
  cases op <;> simp [isArithmetic, isComparison]

namespace Row

theorem isWellFormed_of_comparison {r : Row} (hrole : r.role.isModifier = false)
    (hcompares : r.operator.isComparison = true) (hleft : r.left.hasValue = true)
    (hright : r.right.hasValue = true) : r.IsWellFormed :=
  ⟨fun hmodifier => absurd hmodifier (by simp [hrole]), fun _ => ⟨hcompares, hleft, hright⟩⟩

theorem IsFeeding.isWellFormed {r : Row} (h : r.IsFeeding) : r.IsWellFormed :=
  ⟨fun _ => ⟨h.hits, Operator.absent_or_isArithmetic.mpr h.operator⟩,
    fun hrole => absurd h.role (by simp [hrole])⟩

/-- A row that is not a modifier has its shape whatever its role and hit target are. -/
theorem IsWellFormed.of_eq {r r' : Row} (h : r.IsWellFormed) (hrole : r.role.isModifier = false)
    (hrole' : r'.role.isModifier = false) (hleft : r'.left = r.left)
    (hoperator : r'.operator = r.operator) (hright : r'.right = r.right) : r'.IsWellFormed := by
  obtain ⟨hcompares, hvalues⟩ := h.comparison hrole
  rw [← hoperator] at hcompares
  rw [← hleft, ← hright] at hvalues
  exact isWellFormed_of_comparison hrole' hcompares hvalues.1 hvalues.2

theorem isWellFormed_constant (truth : Bool) : (constant truth).IsWellFormed := by
  cases truth <;> exact isWellFormed_of_comparison rfl rfl rfl rfl

theorem inherited_isWellFormed : Inherited IsWellFormed where
  linear := by
    rintro _ ⟨c, rfl, hc⟩
    obtain ⟨left, relation, right, hterminal, hleft, hright⟩ := hc.terminal
    refine List.forall_mem_append.mpr ⟨fun r hr => (hc.lead r hr).isWellFormed, ?_⟩
    rw [List.forall_mem_singleton, hterminal]
    exact isWellFormed_of_comparison rfl rfl (Operand.hasValue_iff.mpr hleft.1)
      (Operand.hasValue_iff.mpr hright.1)
  constant := isWellFormed_constant
  ending hr hrole hrole' _ := hr.of_eq hrole hrole' rfl rfl rfl
  counting _ hr hplain := hr.of_eq (by rw [hplain]; rfl) (by rw [hplain]; rfl) rfl rfl rfl

theorem emitted_isWellFormed : Emitted fun _ => IsWellFormed where
  inherited _ := inherited_isWellFormed
  measured {_ _ _ role} hr hplain hmeasured _ := by
    have hrole : role.isModifier = false := by
      revert hmeasured
      cases role <;> simp [Role.isMeasured, Role.isModifier]
    exact hr.of_eq (by rw [hplain]; rfl) hrole rfl rfl rfl
  later _ hr := hr

theorem preserved_isWellFormed : Preserved IsWellFormed where
  alwaysTrue := isWellFormed_constant true
  alwaysFalse := isWellFormed_constant false
  inverted hr hrole hcompares :=
    isWellFormed_of_comparison rfl (isComparison_inverted hcompares) (hr.comparison hrole).2.1
      (hr.comparison hrole).2.2
  bounded _ _ hr _ hrole :=
    isWellFormed_of_comparison hrole rfl (hr.comparison hrole).2.1 (hr.comparison hrole).2.2
  equalityTest _ hmemory :=
    isWellFormed_of_comparison rfl rfl (by simp [comparing, Operand.hasValue, hmemory]) rfl

/-- Both operands have a value where they did: turning a row around swaps them, and a settled row
compares literals. -/
theorem hasValue_normalize {r : Row} (hleft : r.left.hasValue = true)
    (hright : r.right.hasValue = true) :
    r.normalize.left.hasValue = true ∧ r.normalize.right.hasValue = true := by
  have hliteral : r.literalRight.left.hasValue = true ∧ r.literalRight.right.hasValue = true := by
    unfold literalRight
    split
    · exact ⟨hright, hleft⟩
    · exact ⟨hleft, hright⟩
  rcases r.normalize_cases with heq | heq | ⟨truth, heq⟩ | ⟨relation, value, -, -, heq⟩ <;> rw [heq]
  · exact ⟨hleft, hright⟩
  · exact hliteral
  · cases truth <;> exact ⟨rfl, rfl⟩
  · exact hliteral

theorem IsWellFormed.settled {r : Row} (h : r.IsWellFormed) (after : Bool) :
    (r.settled after).IsWellFormed := by
  cases hrole : r.role.isModifier with
  | true =>
    have hcompares : r.isComparison = false :=
      Operator.absent_or_isArithmetic.mp (h.modifier hrole).2
    rwa [settled_of_not_isComparison after hcompares]
  | false =>
    obtain ⟨hcompares, hleft, hright⟩ := h.comparison hrole
    obtain ⟨hleft', hright'⟩ := hasValue_normalize hleft hright
    refine isWellFormed_of_comparison (by rwa [role_settled])
      ((isComparison_settled after r).trans hcompares) ?_ ?_
    all_goals
      unfold Row.settled
      split <;> assumption

end Row

namespace Trigger

/-- **Compiled triggers are well-formed, and simplifying keeps well-formed triggers so**, whether
they were compiled or not. -/
theorem isWellFormed_of_compile_and_simplify :
    (∀ (s : Setting) (c : Condition) (t : Trigger), compile s c = .ok t → t.IsWellFormed) ∧
      ∀ t : Trigger, t.IsWellFormed → t.simplify.IsWellFormed := by
  refine ⟨fun s c t h => ?_, fun t h => ?_⟩
  · obtain ⟨hends, _, hrows⟩ := forall_mem_rows_of_compile Row.emitted_isWellFormed
      (fun _ => Row.preserved_isWellFormed) (fun after hr => hr.settled after) h
    exact ⟨hends, hrows⟩
  · obtain ⟨hends, hrows⟩ := forall_mem_rows_simplify Row.preserved_isWellFormed
      (fun after hr => hr.settled after) h.ends h.rows
    exact ⟨hends, hrows⟩

end Trigger

/-- Ten hits of a comparison or a score of ten behind a pointer, which counts while there are lives.
Progress is shown either way, and the hits are paused by a comparison of two reads. -/
def Condition.tenHitsOrScore : Condition :=
  let lives : Value := .read "byte" (.constant 0x10)
  let score : Value := .read "word" (.add (.read "dword" (.constant 0x20)) (.constant 4))
  .or
    (.and (.measured (.repeated 10 (.compare lives .ne (.constant 0))) none none)
      (.pauseIf (.compare lives .gt score)))
    (.measured (.compare score .ge (.constant 10)) (some (.compare lives .gt (.constant 0)))
      (some .percent))

namespace Trigger

/-- What the condition compiles to. -/
def tenHitsOrScore : Trigger :=
  let lives : Operand := .memory .byte 0x10
  let score : Operand := .memory .word 4
  let pointer : Row := .modifier .addAddress (.memory .dword 0x20)
  { alternates :=
      [[{ Row.comparing lives .ne (.literal 0) with role := .measured, hits := 10 },
        .modifier .addSource (.literal 0xFFFF), pointer, .modifier .subSource score,
        { Row.comparing lives .gt (.literal 0xFFFF) with role := .pauseIf }],
      [pointer, { Row.comparing score .ge (.literal 10) with role := .measuredPercent },
        { Row.comparing lives .ne (.literal 0) with role := .measuredIf }]] }

/-- A link that never holds in front of a sum, whose reset has its literal on the wrong side. -/
def linkedSum : Trigger :=
  { core :=
      [{ Row.comparing (.literal 0) .eq (.literal 1) with role := .resetNextIf },
        .modifier .addSource (.memory .byte 1),
        { Row.comparing (.memory .byte 2) .eq (.literal 3) with role := .measured, hits := 2 },
        { Row.comparing (.literal 0xFE) .lt (.memory .byte 4) with role := .resetIf }] }

theorem isWellFormed_of_compile_and_simplify_linkedSum :
    compile {} Condition.tenHitsOrScore = .ok tenHitsOrScore ∧ tenHitsOrScore.IsWellFormed ∧
      linkedSum.IsWellFormed ∧ linkedSum.simplify ≠ linkedSum ∧
        linkedSum.simplify.IsWellFormed := by
  have hcompile : compile {} Condition.tenHitsOrScore = .ok tenHitsOrScore := by decide +kernel
  have hlinked : linkedSum.IsWellFormed := by decide
  exact ⟨hcompile, isWellFormed_of_compile_and_simplify.1 _ _ _ hcompile, hlinked,
    by decide +kernel, isWellFormed_of_compile_and_simplify.2 _ hlinked⟩

end Trigger

/-! ## Targets -/

namespace FirstTarget
variable {first first' : FirstTarget}

/-- A first target stays the first one, and a target that is accepted is the first one from then
on. -/
theorem eq_some_of_measure {target : Option UInt32} (h : first.measure target = .ok first') :
    (∀ x, first = some x → first' = some x) ∧ ∀ x, target = some x → first' = some x := by
  unfold measure at h
  split at h
  · cases h
    simp
  · cases h
    simp
  · split at h
    · rename_i heq
      cases h
      simp [heq]
    · simp at h

end FirstTarget

/-- A measured row with a target has the first one. -/
def Row.IsOnTarget (first : FirstTarget) (r : Row) : Prop :=
  r.role.isMeasured = true → ∀ x, r.target? = some x → first = some x

namespace Row

theorem isOnTarget_of_not_isMeasured {first : FirstTarget} {r : Row}
    (h : r.role.isMeasured = false) : r.IsOnTarget first := by
  intro hmeasured
  rw [h] at hmeasured
  cases hmeasured

theorem inherited_isOnTarget (first : FirstTarget) : Inherited (IsOnTarget first) where
  linear := by
    rintro _ ⟨c, rfl, hc⟩
    obtain ⟨left, relation, right, hterminal, -, -⟩ := hc.terminal
    refine List.forall_mem_append.mpr ⟨fun r hr => isOnTarget_of_not_isMeasured ?_, ?_⟩
    · have hrole := (hc.lead r hr).role
      revert hrole
      cases r.role <;> simp [Role.isModifier, Role.isMeasured]
    · rw [List.forall_mem_singleton, hterminal]
      exact isOnTarget_of_not_isMeasured rfl
  constant truth := isOnTarget_of_not_isMeasured (by cases truth <;> rfl)
  ending _ _ _ hrole := isOnTarget_of_not_isMeasured hrole
  counting _ _ hplain := isOnTarget_of_not_isMeasured (by rw [hplain]; rfl)

theorem emitted_isOnTarget : Emitted IsOnTarget where
  inherited := inherited_isOnTarget
  measured := by
    intro first first' r role _ _ _ h _ x hx
    exact (FirstTarget.eq_some_of_measure h).2 x hx
  later := by
    intro first first' target r h hr hmeasured x hx
    exact (FirstTarget.eq_some_of_measure h).1 x (hr hmeasured x hx)

theorem preserved_isOnTarget (first : FirstTarget) : Preserved (IsOnTarget first) where
  alwaysTrue := isOnTarget_of_not_isMeasured rfl
  alwaysFalse := isOnTarget_of_not_isMeasured rfl
  inverted _ _ _ := isOnTarget_of_not_isMeasured rfl
  bounded _ _ _ hrole _ := isOnTarget_of_not_isMeasured hrole
  equalityTest _ _ := isOnTarget_of_not_isMeasured rfl

/-- Measured rows are not settled. -/
theorem IsOnTarget.settled {first : FirstTarget} {r : Row} (h : r.IsOnTarget first) (after : Bool) :
    (r.settled after).IsOnTarget first := by
  cases hrole : r.role.isMeasured with
  | true =>
    have hfree : r.isFree after = false := by simp [isFree, hrole]
    simpa [Row.settled, hfree] using h
  | false => exact isOnTarget_of_not_isMeasured (by rwa [role_settled])

end Row

namespace Trigger

/-- **Measured targets agree**: two measured rows of a compiled trigger that both have a target, be
it a hit target or the literal of a comparison, have the same one. -/
theorem target?_eq_of_compile {s : Setting} {c : Condition} {t : Trigger} (h : compile s c = .ok t)
    {r r' : Row} (hr : r ∈ t.rows) (hr' : r' ∈ t.rows) (hmeasured : r.role.isMeasured = true)
    (hmeasured' : r'.role.isMeasured = true) {x y : UInt32} (hx : r.target? = some x)
    (hy : r'.target? = some y) : x = y := by
  obtain ⟨-, first, hrows⟩ := forall_mem_rows_of_compile Row.emitted_isOnTarget
    Row.preserved_isOnTarget (fun after hr => hr.settled after) h
  have hfirst := hrows r hr hmeasured x hx
  have hfirst' := hrows r' hr' hmeasured' y hy
  exact Option.some.inj (hfirst.symm.trans hfirst')

/-- One target is a number of hits, the other a score. -/
theorem target?_eq_of_compile_tenHitsOrScore :
    ∃ r ∈ tenHitsOrScore.rows, ∃ r' ∈ tenHitsOrScore.rows, ∃ x y,
      compile {} Condition.tenHitsOrScore = .ok tenHitsOrScore ∧ r.role = .measured ∧
        r'.role = .measuredPercent ∧ 0 < r.hits ∧ r'.hits = 0 ∧ r.target? = some x ∧
          r'.target? = some y ∧ x = y := by
  have hcompile : compile {} Condition.tenHitsOrScore = .ok tenHitsOrScore := by decide +kernel
  have hhits : { Row.comparing (.memory .byte 0x10) .ne (.literal 0) with
      role := .measured, hits := 10 } ∈ tenHitsOrScore.rows := by decide
  have hscore : { Row.comparing (.memory .word 4) .ge (.literal 10) with
      role := .measuredPercent } ∈ tenHitsOrScore.rows := by decide
  exact ⟨_, hhits, _, hscore, 10, 10, hcompile, rfl, rfl, by decide, rfl, rfl, rfl,
    target?_eq_of_compile hcompile hhits hscore rfl rfl rfl rfl⟩

end Trigger
end MemoryTrigger

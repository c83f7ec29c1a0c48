import MemoryTrigger.Proofs.ReadValues
import MemoryTrigger.Proofs.Simplify.Settling
import Mathlib.Data.List.Forall2

/-! # Values that modifier rows feed

A modifier row feeds its left operand into the next row, and what it compares that with plays no
part.  Wire text may give it a comparison nevertheless, and then settling comparisons takes it for a
test unless it stands right behind another modifier row: its operands trade places, or both give way
to the truth of the test.  The modifier rows that are left are those that were there, each settled in
its place (`Row.feeders`, `Trigger.feeders_normalizeComparisons`), and a settled one feeds what it fed
exactly where its left operand is the same or a literal of the same value
(`Row.fedValue_normalize_iff`). -/
namespace MemoryTrigger

/-! ## Operands of one value -/

namespace Operand

/-- The value of an operand that does not read memory. -/
def constant? (o : Operand) : Option UInt32 :=
  match o.kind with
  | .literal => some o.value
  | .unused => some 0
  | _ => none

/-- Whether two operands are the same or have one value without reading memory. -/
def isAlike (o p : Operand) : Bool := o == p || (o.constant?.isSome && o.constant? == p.constant?)

theorem isAlike_refl (o : Operand) : o.isAlike o = true := by simp [isAlike]

theorem valueIn_of_constant? {o : Operand} {value : UInt32} (h : o.constant? = some value)
    (m : Memory) (base : UInt32) : o.valueIn m base = value := by
  obtain ⟨kind, size, address⟩ := o
  cases kind <;> simp_all [constant?, valueIn]

theorem isMemory_of_constant?_eq_none {o : Operand} (h : o.constant? = none) :
    o.isMemory = true := by
  obtain ⟨kind, size, value⟩ := o
  cases kind <;> simp_all [constant?, isMemory]

theorem valueIn_of_isAlike {o p : Operand} (h : o.isAlike p = true) (m : Memory)
    (base : UInt32) : o.valueIn m base = p.valueIn m base := by
  rcases Bool.or_eq_true_iff.mp h with h | h
  · rw [beq_iff_eq.mp h]
  · obtain ⟨hsome, heq⟩ := Bool.and_eq_true_iff.mp h
    obtain ⟨value, hvalue⟩ := Option.isSome_iff_exists.mp hsome
    rw [valueIn_of_constant? hvalue, valueIn_of_constant? (beq_iff_eq.mp heq ▸ hvalue)]

/-- No value is what a read gives in every memory. -/
theorem exists_valueIn_ne {o : Operand} (h : o.isMemory = true) (value : UInt32) :
    ∃ m, o.valueIn m 0 ≠ value := by
  have hvalueIn (m : Memory) : o.valueIn m 0 = m.read o := by
    obtain ⟨kind, size, address⟩ := o
    cases kind with
    | unused => cases h
    | literal => cases h
    | _ => simp only [valueIn, UInt32.add_zero]
  have hone : (1 : UInt32) ≤ o.maxValue := UInt32.le_iff_toNat_le.mpr (maxValue_pos h)
  by_cases hzero : value = 0
  · obtain ⟨m, hm⟩ := Memory.exists_read_eq h hone
    refine ⟨m, ?_⟩
    rw [hvalueIn, hm, hzero]
    decide
  · refine ⟨.zero, ?_⟩
    rw [hvalueIn]
    exact Ne.symm hzero

/-- Operands of which one does not read memory have one value only if neither does. -/
theorem isAlike_of_forall_valueIn {o p : Operand}
    (h : ∀ m base, o.valueIn m base = p.valueIn m base)
    (hconstant : o.constant?.isSome = true ∨ p.constant?.isSome = true) : o.isAlike p = true := by
  have hread {o p : Operand} (h : ∀ m base, o.valueIn m base = p.valueIn m base) {value : UInt32}
      (hvalue : o.constant? = some value) : p.constant? = some value := by
    cases hp : p.constant? with
    | none =>
      obtain ⟨m, hm⟩ := exists_valueIn_ne (isMemory_of_constant?_eq_none hp) value
      rw [← h, valueIn_of_constant? hvalue] at hm
      exact absurd rfl hm
    | some value' =>
      have heq := h .zero 0
      rw [valueIn_of_constant? hvalue, valueIn_of_constant? hp] at heq
      rw [heq]
  have hboth : o.constant?.isSome = true ∧ o.constant? = p.constant? := by
    rcases hconstant with hsome | hsome
    · obtain ⟨value, hvalue⟩ := Option.isSome_iff_exists.mp hsome
      rw [hvalue, hread h hvalue]
      exact ⟨rfl, rfl⟩
    · obtain ⟨value, hvalue⟩ := Option.isSome_iff_exists.mp hsome
      rw [hvalue, hread (fun m base => (h m base).symm) hvalue]
      exact ⟨rfl, rfl⟩
  rw [isAlike, hboth.1, beq_iff_eq.mpr hboth.2]
  exact Bool.or_true _

end Operand

/-! ## What a settled row feeds -/

namespace Row

theorem fedValue_of_isComparison {r : Row} (h : r.isComparison = true) (m : Memory)
    (base : UInt32) : r.fedValue m base = r.left.valueIn m base := by
  cases hop : r.operator with
  | compare relation => rw [fedValue, hop]
  | absent => simp [isComparison, hop, Operator.isComparison] at h
  | arith => simp [isComparison, hop, Operator.isComparison] at h

theorem left_literalRight (r : Row) :
    r.literalRight.left = r.left ∨ r.left.isLiteral = true := by
  unfold literalRight
  split
  · rename_i h
    exact .inr (Bool.and_eq_true_iff.mp h).1
  · exact .inl rfl

/-- The left operand of a settled row is the one that it had, or one of the two is no read. -/
theorem left_normalize (r : Row) :
    r.normalize.left = r.left ∨ r.normalize.left.constant?.isSome = true ∨
      r.left.constant?.isSome = true := by
  have hliteral (h : r.left.isLiteral = true) : r.left.constant?.isSome = true := by
    simp_all [Operand.isLiteral, Operand.constant?]
  have hswapped : r.literalRight.left = r.left ∨ r.literalRight.left.constant?.isSome = true ∨
      r.left.constant?.isSome = true :=
    r.left_literalRight.imp_right fun h => .inr (hliteral h)
  rcases r.normalize_cases with h | h | ⟨truth, h⟩ | ⟨relation, value, -, -, h⟩
  · exact .inl (by rw [h])
  · rwa [h]
  · refine .inr (.inl ?_)
    rw [h]
    cases truth <;> rfl
  · rwa [h]

/-- **What a row feeds once it is settled**: the same in every memory exactly where its left operand
is the one that it had, or both are literals of one value. -/
theorem fedValue_normalize_iff (r : Row) :
    (∀ m base, r.normalize.fedValue m base = r.fedValue m base) ↔
      r.normalize.left.isAlike r.left = true := by
  cases hcompares : r.isComparison with
  | false =>
    have hself : r.normalize = r := by rw [normalize, if_pos (by simp [hcompares])]
    simp [hself, Operand.isAlike_refl]
  | true =>
    simp only [fedValue_of_isComparison hcompares,
      fedValue_of_isComparison ((r.isComparison_normalize).trans hcompares)]
    refine ⟨fun h => ?_, Operand.valueIn_of_isAlike⟩
    rcases r.left_normalize with heq | hconstant
    · rw [heq]
      exact Operand.isAlike_refl _
    · exact Operand.isAlike_of_forall_valueIn h hconstant

end Row

/-! ## Modifier rows in their places -/

/-- A modifier row, and whether it stands right behind another one. -/
structure Feeder where
  row : Row
  afterModifier : Bool
  deriving DecidableEq, Repr

/-- The modifier row as settling comparisons leaves it. -/
def Feeder.settled (f : Feeder) : Row := f.row.settled f.afterModifier

namespace Row
open Clause

/-- The modifier rows of a group in their places. -/
def feeders (afterModifier : Bool) : List Row → List Feeder
  | [] => []
  | r :: rest =>
      if r.role.isModifier then ⟨r, afterModifier⟩ :: feeders true rest else feeders false rest

/-- The rows of a group that feed a value into the next one. -/
def modifiers (rows : List Row) : List Row := rows.filter (·.role.isModifier)

theorem map_row_feeders (afterModifier : Bool) (rows : List Row) :
    (feeders afterModifier rows).map Feeder.row = modifiers rows := by
  induction rows generalizing afterModifier with
  | nil => rfl
  | cons r rest ih =>
    rw [feeders, modifiers, List.filter_cons]
    split
    · exact congrArg (r :: ·) (ih true)
    · exact ih false

theorem isModifier_of_mem_feeders {afterModifier : Bool} {rows : List Row} {f : Feeder}
    (h : f ∈ feeders afterModifier rows) : f.row.role.isModifier = true := by
  have hmem : f.row ∈ modifiers rows := map_row_feeders afterModifier rows ▸ List.mem_map_of_mem h
  exact (List.mem_filter.mp hmem).2

/-- A modifier row is settled like a test unless it stands right behind another one. -/
theorem settled_of_isModifier {r : Row} (h : r.role.isModifier = true) (afterModifier : Bool) :
    r.settled afterModifier = if afterModifier then r else r.normalize := by
  have hmeasured : r.role.isMeasured = false := by
    revert h
    cases r.role <;> simp [Role.isModifier, Role.isMeasured]
  cases afterModifier <;> simp [settled, isFree, hmeasured]

theorem modifiers_normalizeRows (afterModifier : Bool) (rows : List Row) :
    modifiers (normalizeRows afterModifier rows).value =
      (feeders afterModifier rows).map Feeder.settled := by
  induction rows generalizing afterModifier with
  | nil => rfl
  | cons r rest ih =>
    have ih : modifiers (normalizeRows r.role.isModifier rest).value =
        (feeders r.role.isModifier rest).map Feeder.settled := ih r.role.isModifier
    rw [value_normalizeRows_cons, modifiers, List.filter_cons, role_settled, feeders]
    split
    · rename_i hmodifier
      rw [hmodifier] at ih ⊢
      exact congrArg (r.settled afterModifier :: ·) ih
    · rename_i hmodifier
      rw [eq_false_of_ne_true hmodifier] at ih ⊢
      exact ih

/-- Folding what is settled leaves clauses out, and puts at most `0=1` behind the others. -/
theorem modifiers_foldConstants (group : List Clause) :
    (modifiers (join (foldConstants group))).Sublist (modifiers (join group)) := by
  rcases foldConstants_cases group with h | ⟨c, -, -, h⟩
  · exact (h.flatMap rows).filter _
  · have hsub : ((group.filter fun c => !c.neverFires).filter isGuard).Sublist group :=
      List.filter_sublist.trans List.filter_sublist
    have hfalse : modifiers (join [single .alwaysFalse]) = [] := rfl
    rw [h, join_append, modifiers, List.filter_append, ← modifiers, ← modifiers, hfalse,
      List.append_nil]
    exact (hsub.flatMap rows).filter _

theorem modifiers_settledRows (rows : List Row) :
    (modifiers (settledRows rows)).Sublist ((feeders false rows).map Feeder.settled) := by
  rw [← modifiers_normalizeRows]
  refine (modifiers_foldConstants _).trans ?_
  rw [join_split]
  exact (sublist_removeIdentityLinks none _).filter _

end Row

namespace Trigger
open Row

/-- **What becomes of modifier rows when comparisons are settled.**  Those that remain in a group are
rows of it in their places, each settled there.  A row right behind another modifier row, and one
that does not compare, is as it was; and any other feeds what it fed, in every memory and behind
every pointer, exactly where settling has left it its operand or a literal of the same value. -/
theorem feeders_normalizeComparisons (t : Trigger) :
    List.Forall₂ (fun after before => ∃ kept : List Feeder, kept.Sublist (feeders false before) ∧
        modifiers after = kept.map Feeder.settled ∧
        ∀ f ∈ kept, (f.afterModifier = true ∨ f.row.isComparison = false → f.settled = f.row) ∧
          ((∀ m base, f.settled.fedValue m base = f.row.fedValue m base) ↔
            f.settled.left.isAlike f.row.left = true))
      (normalizeComparisons.run t).trigger.groups t.groups := by
  have hgroups : (normalizeComparisons.run t).trigger.groups = t.groups.map settledRows := by
    rw [trigger_normalizeComparisons_rows]
    rfl
  rw [hgroups, List.forall₂_map_left_iff, List.forall₂_same]
  intro rows _
  obtain ⟨kept, hkept, hmodifiers⟩ := List.sublist_map_iff.mp (modifiers_settledRows rows)
  refine ⟨kept, hkept, hmodifiers, fun f hf => ?_⟩
  have hsettled := settled_of_isModifier (isModifier_of_mem_feeders (hkept.subset hf))
    f.afterModifier
  refine ⟨?_, ?_⟩
  · rintro (hafter | hcompares)
    · rw [Feeder.settled, hsettled, hafter]
      rfl
    · exact settled_of_not_isComparison _ hcompares
  · cases hafter : f.afterModifier with
    | true =>
      have hself : f.settled = f.row := by rw [Feeder.settled, hsettled, hafter]; rfl
      simp [hself, Operand.isAlike_refl]
    | false =>
      have hnormal : f.settled = f.row.normalize := by rw [Feeder.settled, hsettled, hafter]; rfl
      rw [hnormal]
      exact f.row.fedValue_normalize_iff

/-- A row that feeds ten, and compares it with zero, feeds zero once it is settled. -/
example :
    (normalizeComparisons.run { core := [
      { Row.comparing (.literal 10) .eq (.literal 0) with role := .addSource },
      .comparing (.memory .byte 1) .eq (.literal 5)] }).trigger.core = [
        { Row.comparing (.literal 0) .eq (.literal 1) with role := .addSource },
        .comparing (.memory .byte 1) .eq (.literal 5)] := by decide

end Trigger
end MemoryTrigger

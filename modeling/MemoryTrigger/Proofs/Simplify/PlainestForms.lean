import MemoryTrigger.Proofs.Simplify.ReadTests
import Mathlib.Logic.ExistsUnique

/-! # What the plainest form of a comparison shows

A comparison over one read (`Row.IsOver`) has a literal or the read on each side.  Its plainest form
holds for the same values of the read, and shows how many these are: it is `1=1` or `0=1` where all
values agree, and otherwise an equation where a single one is right (`Row.isPlainestOf_normalize`).

Whether an equation is due is decided at the ends of the range.  A comparison in its plainest form
that is no equation holds for the two smallest values, for the two largest, or for two of the three
smallest. -/
namespace MemoryTrigger

/-! ## Comparisons of a value in a range -/

namespace RangeTest
variable {max value value' : UInt32} {relation relation' : Relation}

theorem holds_of_compare (h : ofBit max (ofRange max relation value) = compare relation' value')
    {x : UInt32} (hx : x ≤ max) : relation'.holds x value' = relation.holds x value := by
  have hpasses := passes_ofBit hx (ofRange max relation value)
  rwa [h, passes_ofRange hx] at hpasses

theorem holds_of_always {truth : Bool}
    (h : ofBit max (ofRange max relation value) = always truth) {x : UInt32} (hx : x ≤ max) :
    relation.holds x value = truth := by
  have hpasses := passes_ofBit hx (ofRange max relation value)
  rw [h, passes_ofRange hx] at hpasses
  exact hpasses.symm

/-- A comparison that is left open holds for some values of the range and fails for others. -/
theorem exists_holds_of_compare (hmax : 0 < max)
    (h : ofBit max (ofRange max relation value) = compare relation' value') (truth : Bool) :
    ∃ x ≤ max, relation.holds x value = truth := by
  by_contra hnone
  push Not at hnone
  have hsettled := ofBit_ofRange_of_forall hmax fun x hx => Bool.eq_not.mpr (hnone x hx)
  rw [hsettled] at h
  cases h

/-- A comparison in its plainest form that holds for one value at most is an equation. -/
theorem eq_of_subsingleton (hmax : 0 < max)
    (h : ofBit max (ofRange max relation value) = compare relation value)
    (hunique : ∀ x ≤ max, ∀ y ≤ max,
      relation.holds x value = true → relation.holds y value = true → x = y) :
    relation = .eq := by
  have hsmallest := hunique 0 UInt32.zero_le 1
  have houter := hunique 0 UInt32.zero_le 2
  have hsmaller := hunique 1 (by grind) 2
  have hlargest := hunique max (UInt32.le_refl _) (max - 1)
  cases relation <;> simp only [ofRange, Relation.holds] at *
  all_goals grind [ofBit]

/-- **The plainest form is an equation exactly where one value of the range is right.** -/
theorem eq_iff_existsUnique (hmax : 0 < max)
    (h : ofBit max (ofRange max relation value) = compare relation' value') :
    relation' = .eq ↔ ∃! x, x ≤ max ∧ relation.holds x value = true := by
  constructor
  · rintro rfl
    have hvalue {x : UInt32} (hx : x ≤ max ∧ relation.holds x value = true) : x = value' := by
      rw [← holds_of_compare h hx.1] at hx
      exact of_decide_eq_true hx.2
    obtain ⟨x, hx⟩ := exists_holds_of_compare hmax h true
    exact ⟨x, hx, fun y hy => (hvalue hy).trans (hvalue hx).symm⟩
  · intro hunique
    refine eq_of_subsingleton hmax (ofBit_ofRange_of_eq h) fun x hx y hy hholdsx hholdsy => ?_
    rw [holds_of_compare h hx] at hholdsx
    rw [holds_of_compare h hy] at hholdsy
    exact hunique.unique ⟨hx, hholdsx⟩ ⟨hy, hholdsy⟩

end RangeTest

/-! ## Comparisons over one read -/

namespace Row

/-- A comparison that has a literal or the read `o` on each side. -/
structure IsOver (o : Operand) (r : Row) : Prop where
  compares : r.isComparison = true
  left : r.left = o ∨ r.left.isLiteral = true
  right : r.right = o ∨ r.right.isLiteral = true

/-- All values of the read agree on the comparison. -/
def IsFixedOver (o : Operand) (r : Row) : Prop :=
  ∀ x ≤ o.maxValue, ∀ y ≤ o.maxValue, r.holdsAt o x = r.holdsAt o y

/-- What a plainest form `s` of a comparison `r` over the read `o` keeps, and what it shows. -/
structure IsPlainestOf (o : Operand) (r s : Row) : Prop where
  /-- Both hold for the same values of the read. -/
  truth : ∀ x ≤ o.maxValue, s.holdsAt o x = r.holdsAt o x
  role : s.role = r.role
  hits : s.hits = r.hits
  /-- It is `1=1` or `0=1` exactly where all values agree. -/
  settled : (∃ truth, s = r.withTruth truth) ↔ r.IsFixedOver o
  /-- Where they do not, it is an equation exactly where one value is right. -/
  equation : ¬r.IsFixedOver o →
    (s.operator = .compare .eq ↔ ∃! x, x ≤ o.maxValue ∧ r.holdsAt o x = true)
  /-- It is its own plainest form. -/
  final : s.normalize = s

/-- Role and hit target play no part in the plainest form, and are kept. -/
theorem normalize_with (r : Row) (role : Role) (hits : UInt32) :
    normalize { r with role, hits } = { r.normalize with role, hits } := by
  have hright : literalRight { r with role, hits } = { r.literalRight with role, hits } := by
    unfold literalRight
    split <;> rfl
  have hcompares : isComparison { r with role, hits } = r.isComparison := rfl
  have hevaluate (s : Row) : evaluate? { s with role, hits } = s.evaluate? := rfl
  unfold normalize
  simp only [hright, hcompares, hevaluate]
  split
  · rfl
  split
  · rfl
  split
  · split
    · split <;> rfl
    · rfl
  · rfl

section
variable {o p : Operand} {r : Row} {relation : Relation} {truth : Bool}

theorem normalize_of_evaluate? (hcompares : r.isComparison = true) (hright : r.literalRight = r)
    (h : r.evaluate? = some truth) : r.normalize = r.withTruth truth := by
  simp [normalize, hcompares, hright, h]

/-- A comparison over one read is settled by what stands on its sides, or compares the read with a
literal that can be brought to its right. -/
theorem IsOver.cases (ho : o.isMemory = true) (h : r.IsOver o) :
    (∃ truth, r.literalRight = r ∧ r.evaluate? = some truth) ∨
      ∃ relation p, p.isLiteral = true ∧
        r.literalRight = { comparing o relation p with role := r.role, hits := r.hits } := by
  obtain ⟨left, operator, right, role, hits⟩ := r
  obtain ⟨hcompares, hleft, hright⟩ := h
  have hliteral := Operand.isLiteral_of_isMemory ho
  cases operator with
  | absent => cases hcompares
  | arith => cases hcompares
  | compare relation =>
    dsimp only at hleft hright
    rcases hleft with rfl | hleft <;> rcases hright with rfl | hright
    · exact .inl ⟨relation.holds (0 : UInt32) 0, by simp [literalRight, hliteral],
        by simp [evaluate?, hliteral, ho, Operator.test?]⟩
    · exact .inr ⟨relation, right, hright, by simp [literalRight, hliteral, comparing]⟩
    · exact .inr ⟨relation.reverse, left, hleft,
        by simp [literalRight, hleft, hliteral, comparing, Operator.reverse]⟩
    · exact .inl ⟨relation.holds left.value right.value, by simp [literalRight, hright],
        by simp [evaluate?, hleft, hright, Operator.test?]⟩

/-- A row on which all values of the read agree is as plain as can be once it is settled. -/
theorem isPlainestOf_withTruth (ho : o.isMemory = true)
    (hall : ∀ x ≤ o.maxValue, r.holdsAt o x = truth) : r.IsPlainestOf o (r.withTruth truth) := by
  have hfixed : r.IsFixedOver o := fun x hx y hy => (hall x hx).trans (hall y hy).symm
  exact {
    truth := fun x hx => (holdsAt_constant ho).trans (hall x hx).symm
    role := rfl
    hits := rfl
    settled := iff_of_true ⟨truth, rfl⟩ hfixed
    equation := fun hopen => absurd hfixed hopen
    final := r.normalize_withTruth truth }

/-- A comparison of the read that is left open in its plainest form. -/
theorem isPlainestOf_comparing (ho : o.isMemory = true) (hp : p.isLiteral = true)
    (hholds : ∀ x, r.holdsAt o x = relation.holds x p.value) {relation' : Relation}
    {value : UInt32} (hopen : RangeTest.ofBit o.maxValue (.ofRange o.maxValue relation p.value) =
      .compare relation' value)
    (hfinal : r.normalize =
      { comparing o relation' { p with value } with role := r.role, hits := r.hits }) :
    r.IsPlainestOf o r.normalize := by
  have hmax : 0 < o.maxValue := UInt32.lt_iff_toNat_lt.mpr (Operand.maxValue_pos ho)
  have hvaries : ¬r.IsFixedOver o := by
    intro hfixed
    obtain ⟨x, hx, hright⟩ := RangeTest.exists_holds_of_compare hmax hopen true
    obtain ⟨y, hy, hwrong⟩ := RangeTest.exists_holds_of_compare hmax hopen false
    have hsame := hfixed x hx y hy
    simp [hholds, hright, hwrong] at hsame
  have hopen' : ¬∃ truth, r.normalize = r.withTruth truth := by
    rintro ⟨truth, hsettled⟩
    have hleft : (r.withTruth truth).left = o := by rw [← hsettled, hfinal]; rfl
    cases truth <;> exact Operand.ne_of_isLiteral ho rfl hleft
  refine ⟨fun x hx => ?_, role_normalize r, hits_normalize r, iff_of_false hopen' hvaries,
    fun _ => ?_, normalize_normalize r⟩
  · rw [hfinal, hholds, ← RangeTest.holds_of_compare hopen hx]
    exact holdsAt_comparing ho (p := { p with value }) hp
  · simp only [hholds, ← RangeTest.eq_iff_existsUnique hmax hopen, hfinal, comparing,
      Operator.compare.injEq]

/-- **Normalizing a comparison over one read gives its plainest form.** -/
theorem isPlainestOf_normalize (ho : o.isMemory = true) (h : r.IsOver o) :
    r.IsPlainestOf o r.normalize := by
  rcases h.cases ho with ⟨truth, hright, hevaluate⟩ | ⟨relation, p, hp, hright⟩
  · rw [normalize_of_evaluate? h.compares hright hevaluate]
    exact isPlainestOf_withTruth ho fun x _ =>
      test?_of_evaluate? (fun _ hp => Operand.valueAt_of_isLiteral ho hp x) hevaluate
  have hholds (x : UInt32) : r.holdsAt o x = relation.holds x p.value := by
    rw [← holdsAt_literalRight, hright]
    exact holdsAt_comparing ho hp
  have hplainest : r.normalize = { (RangeTest.ofBit o.maxValue
      (.ofRange o.maxValue relation p.value)).toRow o p with role := r.role, hits := r.hits } := by
    rw [← normalize_literalRight h.compares, hright, normalize_with, normalize_comparing ho hp]
  cases htest : RangeTest.ofBit o.maxValue (.ofRange o.maxValue relation p.value) with
  | always truth =>
    rw [htest] at hplainest
    have hsettled : r.normalize = r.withTruth truth := hplainest
    rw [hsettled]
    exact isPlainestOf_withTruth ho fun x hx =>
      (hholds x).trans (RangeTest.holds_of_always htest hx)
  | compare relation' value =>
    rw [htest] at hplainest
    exact isPlainestOf_comparing ho hp hholds htest hplainest

end

/-- A reset with a hit target whose literal stands on the left, one below the largest decimal byte. -/
def decimalOver98 : Row :=
  { comparing (.literal 98) .lt ⟨.bcd, .byte, 0x10⟩ with role := .resetIf, hits := 3 }

theorem isPlainestOf_normalize_decimalOver98 :
    Operand.isMemory ⟨.bcd, .byte, 0x10⟩ = true ∧ decimalOver98.IsOver ⟨.bcd, .byte, 0x10⟩ ∧
      decimalOver98.normalize =
        { comparing ⟨.bcd, .byte, 0x10⟩ .eq (.literal 99) with role := .resetIf, hits := 3 } ∧
      decimalOver98.IsPlainestOf ⟨.bcd, .byte, 0x10⟩ decimalOver98.normalize := by
  have hover : decimalOver98.IsOver ⟨.bcd, .byte, 0x10⟩ := ⟨rfl, .inr rfl, .inl rfl⟩
  exact ⟨rfl, hover, by decide, isPlainestOf_normalize rfl hover⟩

end Row
end MemoryTrigger

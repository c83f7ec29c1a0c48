import MemoryTrigger.Proofs.Lowering.Denotation
import MemoryTrigger.Proofs.Lowering.Solving

/-! # Orders with both sides raised

An order that subtracts reads is kept from falling below zero by raising both sides by the most that
can be subtracted.  The sum is then never negative, and the bound is rejected where it does not fit
32 bits; the additive part is not looked at.  So the rows test the order exactly as long as both
parts together fit (`Comparison.truthIn_raised_of_fits`), and hold wrongly for a sum that reaches
`2 ^ 32` and is small again behind it.

The bound and the offset are computed with saturation.  It is never seen: a number that saturates is
rejected, and a bound of 64 bits is not brought below zero by it (`Comparison.compensated_eq`). -/
namespace MemoryTrigger

namespace Checked

theorem saturate_eq_min {n : Int} (h : Int64.minValue.toInt ≤ n) :
    saturate n = min Int64.maxValue.toInt n := by
  have hrange : Int64.minValue.toInt ≤ Int64.maxValue.toInt := by decide
  rw [saturate]
  omega

end Checked

/-! ## The range of a sum of terms -/

namespace Term

/-- The most that the factor of a term can be. -/
def most (t : Term) : Nat :=
  if t.modifier.isNone then t.cell.operand.maxValue.toNat else UInt32.size - 1

/-- The most that a term can contribute, without regard to its sign. -/
def weight (t : Term) : Int := t.coefficient.toInt.natAbs * t.most

/-- The terms that are added. -/
def added (ts : List Term) : List Term := ts.filter fun t => 0 < t.coefficient

/-- The terms that are subtracted. -/
def subtracted (ts : List Term) : List Term := ts.filter fun t => t.coefficient < 0

theorem weight_nonneg (t : Term) : 0 ≤ t.weight :=
  Int.mul_nonneg (Int.natCast_nonneg _) (Int.natCast_nonneg _)

theorem maxValue_eq {t : Term} (h : t.coefficient ≠ Int64.minValue) :
    t.maxValue = min Int64.maxValue.toInt t.weight := by
  have hweight := t.weight_nonneg
  have hmin := Int64.toInt_minValue_lt_zero
  have hproduct : (t.most : Int) * t.coefficient.abs.toInt = t.weight := by
    rw [Checked.toInt_abs h, Int.mul_comm, weight]
  change Checked.saturate (t.most * t.coefficient.abs.toInt) = _
  rw [hproduct, Checked.saturate_eq_min (by omega)]

section
variable (m : Memory)

theorem factorAs_le_most {t : Term} (ht : t.IsSound) : (t.factorAs m none).toNat ≤ t.most := by
  unfold factorAs most
  split
  · rename_i hmodifier
    rw [hmodifier, Cell.readAs, Operand.seenAs_none]
    exact UInt32.le_iff_toNat_le.mp (Operand.valueIn_le m _ ht.cell.operand)
  · rename_i a hmodifier
    rw [hmodifier]
    have hword := (a.arithmetic.apply (t.cell.readAs m none)
      ((a.right.seenAs none).valueIn m (t.cell.baseIn m))).toNat_lt_size
    exact Nat.le_sub_one_of_lt hword

theorem sizeIn_nonneg (t : Term) : 0 ≤ t.sizeIn m :=
  Int.mul_nonneg (Int.natCast_nonneg _) (Int.natCast_nonneg _)

theorem sizeIn_le_weight {t : Term} (ht : t.IsSound) : t.sizeIn m ≤ t.weight := by
  have hfactor : ((t.factorAs m none).toNat : Int) ≤ t.most := by
    have := factorAs_le_most m ht
    omega
  exact Int.mul_le_mul_of_nonneg_left hfactor (Int.natCast_nonneg _)

end

theorem total_le_total {f g : Term → Int} {ts : List Term} (h : ∀ t ∈ ts, f t ≤ g t) :
    total f ts ≤ total g ts := by
  induction ts with
  | nil => exact Int.le_refl 0
  | cons t ts ih =>
    obtain ⟨ht, hts⟩ := List.forall_mem_cons.mp h
    exact Int.add_le_add ht (ih hts)

theorem total_nonneg {f : Term → Int} (h : ∀ t, 0 ≤ f t) (ts : List Term) : 0 ≤ total f ts := by
  induction ts with
  | nil => exact Int.le_refl 0
  | cons t ts ih => exact Int.add_nonneg (h t) ih

/-- A sum comes apart into what is added and what is subtracted. -/
theorem total_eq_added_add_subtracted {f : Term → Int} (h : ∀ t, t.coefficient = 0 → f t = 0)
    (ts : List Term) : total f ts = total f (added ts) + total f (subtracted ts) := by
  induction ts with
  | nil => rfl
  | cons t ts ih =>
    have hzero : (0 : Int64).toInt = 0 := rfl
    unfold added subtracted at *
    rw [total_cons, ih, List.filter_cons, List.filter_cons]
    by_cases hpos : 0 < t.coefficient
    · have hneg : ¬ t.coefficient < 0 := Int64.lt_asymm hpos
      simp only [hpos, hneg, decide_true, decide_false, if_true, Bool.false_eq_true, if_false,
        total_cons, Int.add_assoc]
    by_cases hneg : t.coefficient < 0
    · simp only [hpos, hneg, decide_true, decide_false, if_true, Bool.false_eq_true, if_false,
        total_cons]
      omega
    · have hvanishes : t.coefficient = 0 := by
        apply Int64.toInt_inj.mp
        rw [Int64.lt_iff_toInt_lt, hzero] at hpos hneg
        omega
      simp only [hpos, hneg, decide_false, Bool.false_eq_true, if_false, h t hvanishes,
        Int.zero_add]

theorem total_weight_eq (ts : List Term) :
    total weight ts = total weight (added ts) + total weight (subtracted ts) := by
  apply total_eq_added_add_subtracted
  intro t ht
  simp [weight, ht]

section
variable (m : Memory)

theorem total_valueAs_added (ts : List Term) :
    total (valueAs m none) (added ts) = total (sizeIn m) (added ts) := by
  induction ts with
  | nil => rfl
  | cons t ts ih =>
    rw [added, List.filter_cons]
    split
    · rename_i hpos
      have hsign : t.signRole.sign = 1 := by
        rw [signRole, if_pos (of_decide_eq_true hpos)]
        rfl
      rw [total_cons, total_cons, ← sign_mul_sizeIn, hsign, Int.one_mul]
      exact congrArg (t.sizeIn m + ·) ih
    · exact ih

theorem total_valueAs_subtracted (ts : List Term) :
    total (valueAs m none) (subtracted ts) = -total (sizeIn m) (subtracted ts) := by
  induction ts with
  | nil => rfl
  | cons t ts ih =>
    rw [subtracted, List.filter_cons]
    split
    · rename_i hneg
      have hpos : ¬ 0 < t.coefficient := Int64.lt_asymm (of_decide_eq_true hneg)
      have hsign : t.signRole.sign = -1 := by
        rw [signRole, if_neg hpos]
        rfl
      rw [subtracted] at ih
      rw [total_cons, total_cons, ← sign_mul_sizeIn, hsign, ih]
      omega
    · exact ih

/-- The value of a sum is what is added less what is subtracted. -/
theorem total_valueAs_eq (ts : List Term) :
    total (valueAs m none) ts = total (sizeIn m) (added ts) - total (sizeIn m) (subtracted ts) := by
  rw [total_eq_added_add_subtracted (fun t ht => by simp [valueAs, ht]), total_valueAs_added,
    total_valueAs_subtracted, Int.sub_eq_add_neg]

theorem isSound_added {ts : List Term} (h : ∀ t ∈ ts, t.IsSound) : ∀ t ∈ added ts, t.IsSound :=
  fun t ht => h t (List.mem_of_mem_filter ht)

theorem isSound_subtracted {ts : List Term} (h : ∀ t ∈ ts, t.IsSound) :
    ∀ t ∈ subtracted ts, t.IsSound :=
  fun t ht => h t (List.mem_of_mem_filter ht)

theorem total_sizeIn_range {ts : List Term} (hts : ∀ t ∈ ts, t.IsSound) :
    0 ≤ total (sizeIn m) ts ∧ total (sizeIn m) ts ≤ total weight ts :=
  ⟨total_nonneg (sizeIn_nonneg m) ts, total_le_total fun t ht => sizeIn_le_weight m (hts t ht)⟩

/-- A sum lies between the most it can lose and the most it can gain. -/
theorem total_valueAs_range {ts : List Term} (hts : ∀ t ∈ ts, t.IsSound) :
    -total weight (subtracted ts) ≤ total (valueAs m none) ts ∧
      total (valueAs m none) ts ≤ total weight (added ts) := by
  obtain ⟨hgain0, hgain⟩ := total_sizeIn_range m (isSound_added hts)
  obtain ⟨hloss0, hloss⟩ := total_sizeIn_range m (isSound_subtracted hts)
  rw [total_valueAs_eq]
  omega

end

/-- Saturating along the way is saturating at the end, since nothing summed is negative. -/
theorem foldl_saturate {ts : List Term} (hts : ∀ t ∈ ts, t.coefficient ≠ Int64.minValue)
    {start : Int} (h0 : 0 ≤ start) (hmax : start ≤ Int64.maxValue.toInt) :
    ts.foldl (fun sum t => Checked.saturate (sum + t.maxValue)) start =
      min Int64.maxValue.toInt (start + total weight ts) := by
  have hmin := Int64.toInt_minValue_lt_zero
  induction ts generalizing start with
  | nil =>
    rw [total_nil, List.foldl_nil]
    omega
  | cons t ts ih =>
    obtain ⟨ht, hts⟩ := List.forall_mem_cons.mp hts
    have hweight := t.weight_nonneg
    have hrest := total_nonneg weight_nonneg ts
    have hstep : Checked.saturate (start + t.maxValue) =
        min Int64.maxValue.toInt (start + t.weight) := by
      rw [maxValue_eq ht, Checked.saturate_eq_min (by omega)]
      omega
    rw [List.foldl_cons, hstep, ih hts (by omega) (by omega), total_cons]
    omega

theorem ne_minValue_of_mapM {role : Term → Role} {ts : List Term} {chains : List (List Row)}
    (h : ts.mapM (fun t => t.accumulate (role t)) = .ok chains) :
    ∀ t ∈ ts, t.coefficient ≠ Int64.minValue := by
  induction Lowered.mapM_eq_ok.mp h with
  | nil => exact List.forall_mem_nil _
  | cons hrows hrest ih =>
    simp only [accumulate, Lowered.bind_eq_ok] at hrows
    obtain ⟨row, hrow, -⟩ := hrows
    exact List.forall_mem_cons.mpr ⟨ne_minValue_of_fedRow hrow, ih (Lowered.mapM_eq_ok.mpr hrest)⟩

end Term

/-! ## Raised rows -/

namespace Comparison

/-- Rows that could be assembled have no term with the smallest coefficient. -/
theorem ne_minValue_of_assemble {offset : Int} {terms : List Term} {relation : Relation}
    {right : Operand} {rows : List Row} (h : assemble offset terms relation right = .ok rows) :
    ∀ t ∈ terms, t.coefficient ≠ Int64.minValue := by
  simp only [assemble, Lowered.bind_eq_ok] at h
  obtain ⟨start, -, h⟩ := h
  split at h
  · rename_i before last behind hsplit
    obtain ⟨rfl, hlast⟩ := eq_append_of_splitLast? hsplit
    simp only [Lowered.bind_eq_ok] at h
    obtain ⟨chains, hchains, -⟩ := h
    obtain ⟨hbefore, hbehind⟩ := List.forall_mem_append.mp (Term.ne_minValue_of_mapM hchains)
    have hplain := Term.ne_minValue_of_isPlain (Bool.and_eq_true_iff.mp hlast).1
    exact List.forall_mem_append.mpr ⟨hbefore, List.forall_mem_cons.mpr ⟨hplain, hbehind⟩⟩
  · simp only [Lowered.bind_eq_ok] at h
    obtain ⟨chains, hchains, -⟩ := h
    exact Term.ne_minValue_of_mapM hchains

/-- Rows with both sides raised by the most that can be subtracted, with integers of any size. -/
def raised (terms : List Term) (relation : Relation) (bound : Int) : Lowered Comparison :=
  let loss := Term.total Term.weight (Term.subtracted terms)
  if bound + loss < 0 then .ok (.constant (relation == .gt || relation == .ge))
  else if UInt32.size ≤ loss || UInt32.size ≤ bound + loss then
    Lowered.reject .cannotCompensateSubtraction
  else do
    let right ← Operand.ofNumber (bound + loss)
    let rows ← assemble loss terms relation right
    pure (.rows rows)

/-- **Saturation does not show.** -/
theorem compensated_eq {left right : LinearForm} (hkept : keepsOffset left right = false)
    {terms : List Term} (hterms : ∀ t ∈ terms, t.coefficient ≠ Int64.minValue)
    (relation : Relation) {k : Int64} (hk : k ≠ Int64.minValue) :
    compensated left right terms relation (-k.toInt) = raised terms relation (-k.toInt) := by
  have hloss := Term.total_nonneg Term.weight_nonneg (Term.subtracted terms)
  have hbound := Checked.natAbs_le_of_ne_minValue hk
  have hnumbers : Int64.minValue.toInt + 1 = -Int64.maxValue.toInt := by decide
  have hsize : (UInt32.size : Int) ≤ Int64.maxValue.toInt := by decide
  have hfold : (terms.filter fun t => t.coefficient < 0).foldl
      (fun sum t => Checked.saturate (sum + t.maxValue)) 0 =
        min Int64.maxValue.toInt (Term.total Term.weight (Term.subtracted terms)) := by
    have hsubtracted : ∀ t ∈ Term.subtracted terms, t.coefficient ≠ Int64.minValue :=
      fun t ht => hterms t (List.mem_of_mem_filter ht)
    have := Term.foldl_saturate hsubtracted (Int.le_refl 0) (by decide)
    rwa [Int.zero_add] at this
  unfold compensated raised
  rw [hkept]
  simp only [Bool.false_eq_true, if_false]
  rw [hfold]
  generalize Term.total Term.weight (Term.subtracted terms) = loss at *
  rw [Checked.saturate_eq_min (by omega)]
  by_cases hfits : loss ≤ Int64.maxValue.toInt ∧ -k.toInt + loss ≤ Int64.maxValue.toInt
  · rw [Int.min_eq_right hfits.1, Int.min_eq_right hfits.2]
  · -- what saturates is too large for a row on either side
    have hnonneg : ¬ -k.toInt + loss < 0 := by omega
    have hrejects : (decide ((UInt32.size : Int) ≤ loss) ||
        decide ((UInt32.size : Int) ≤ -k.toInt + loss)) = true := by
      rw [Bool.or_eq_true, decide_eq_true_eq, decide_eq_true_eq]
      omega
    rw [if_neg hnonneg, if_pos hrejects, if_neg (by omega), if_pos]
    rw [Bool.or_eq_true, decide_eq_true_eq, decide_eq_true_eq]
    omega

section
variable (m : Memory) {terms : List Term} (hterms : ∀ t ∈ terms, t.IsSound) {relation : Relation}
  {bound : Int}
include hterms

/-- Raised rows compare the raised sum, as a word of 32 bits, with a bound that is one. -/
theorem truthIn_raised {rows : List Row} (h : raised terms relation bound = .ok (.rows rows)) :
    truthIn m (.rows rows) =
        relation.holds (UInt32.ofInt (Term.total Term.weight (Term.subtracted terms) +
            Term.total (Term.valueAs m none) terms))
          (UInt32.ofInt (bound + Term.total Term.weight (Term.subtracted terms))) ∧
      Term.total Term.weight (Term.subtracted terms) < UInt32.size ∧
      0 ≤ bound + Term.total Term.weight (Term.subtracted terms) ∧
      bound + Term.total Term.weight (Term.subtracted terms) < UInt32.size := by
  have hloss := Term.total_nonneg Term.weight_nonneg (Term.subtracted terms)
  have hmin := Int64.toInt_minValue_lt_zero
  have hsize : (UInt32.size : Int) ≤ Int64.maxValue.toInt := by decide
  unfold raised at h
  dsimp only at h
  split at h
  · cases h
  split at h
  · simp at h
  rename_i hfits
  rw [Bool.or_eq_true, decide_eq_true_eq, decide_eq_true_eq] at hfits
  simp only [Lowered.bind_eq_ok, Lowered.pure_eq_ok, Comparison.rows.injEq] at h
  obtain ⟨right, hright, rows', hrows, rfl⟩ := h
  obtain ⟨rfl, h0, hlt⟩ := Operand.eq_literal_of_ofNumber (by omega) (by omega) hright
  exact ⟨truthIn_assemble m hloss (by omega) hterms hrows, by omega, h0, hlt⟩

/-- Where the added terms fit 32 bits beside the subtracted ones, nothing wraps. -/
theorem truthIn_raised_of_fits {rows : List Row}
    (h : raised terms relation bound = .ok (.rows rows))
    (hfits : Term.total Term.weight terms < UInt32.size) :
    truthIn m (.rows rows) = relation.holds (Term.total (Term.valueAs m none) terms) bound := by
  obtain ⟨hgain, hloss⟩ := Term.total_valueAs_range m hterms
  obtain ⟨htruth, -, h0, hlt⟩ := truthIn_raised m hterms h
  rw [Term.total_weight_eq] at hfits
  rw [htruth, Relation.holds_ofInt _ (by omega) ⟨h0, hlt⟩]
  apply Relation.holds_eq_of_sub_eq
  omega

/-- A bound that is below zero even when raised is passed by every sum. -/
theorem holds_of_raised_eq_constant {truth : Bool} (heq : relation ≠ .eq) (hne : relation ≠ .ne)
    (h : raised terms relation bound = .ok (.constant truth)) :
    relation.holds (Term.total (Term.valueAs m none) terms) bound = truth := by
  obtain ⟨hleast, -⟩ := Term.total_valueAs_range m hterms
  unfold raised at h
  dsimp only at h
  split at h
  · cases h
    rw [Relation.holds_of_gt _ (by omega)]
    cases relation with
    | eq => exact absurd rfl heq
    | ne => exact absurd rfl hne
    | _ => rfl
  split at h
  · simp at h
  · simp only [Lowered.bind_eq_ok, Lowered.pure_eq_ok] at h
    obtain ⟨_, -, _, -, hrows⟩ := h
    cases hrows

end

/-! ## Comparisons that are raised -/

/-- The forms of the two sides of a comparison, and their difference. -/
structure HasForms (resolve : String → Option Size) (v w : Value) (f g d : LinearForm) : Prop where
  left : LinearForm.ofValue resolve v = .ok f
  right : LinearForm.ofValue resolve w = .ok g
  difference : f.minus g = .ok d

/-- An order with a difference of several reads is raised where its left side subtracts a read and
the relation is `<` or `<=`, and where no side can be moved across. -/
structure IsRaised (f g d : LinearForm) (relation : Relation) : Prop where
  several : 2 ≤ d.terms.length
  apart : f.cells? g = none
  order : relation ≠ .eq ∧ relation ≠ .ne
  raised : (relation = .lt ∨ relation = .le) ∧ subtractsRead f = true ∨
    rearranged? d.terms relation (-d.constant.toInt) = .ok none

namespace HasForms
variable {resolve : String → Option Size} {v w : Value} {f g d : LinearForm}
  (h : HasForms resolve v w f g d)
include h

theorem ofValues_eq (relation : Relation) :
    ofValues resolve v relation w = ofForms f relation g := by
  rw [ofValues, h.left, h.right]
  rfl

/-- The form of a difference is sound. -/
theorem isSound : d.IsSound := by
  obtain ⟨negated, hnegated, hplus⟩ := Lowered.bind_eq_ok.mp h.difference
  exact LinearForm.isSound_plus (LinearForm.isSound_ofValue h.left)
    (LinearForm.isSound_scaled (LinearForm.isSound_ofValue h.right) hnegated) hplus

variable (hv : v.isLinear = true) (hw : w.isLinear = true)
include hv hw

/-- The terms of the difference add up to what lies between the sides, less the constant. -/
theorem total_eq (m : Memory) : Term.total (Term.valueAs m none) d.terms =
    v.valueIn resolve m - w.valueIn resolve m + -d.constant.toInt := by
  have hdifference := LinearForm.valueAs_minus m none h.difference
  rw [LinearForm.valueAs_ofValue m hv h.left, LinearForm.valueAs_ofValue m hw h.right,
    LinearForm.valueAs] at hdifference
  rw [Value.valueIn, Value.valueIn]
  omega

/-- What a comparison says about its sides, it says about the terms of their difference. -/
theorem holds_eq (relation : Relation) (m : Memory) :
    relation.holds (v.valueIn resolve m) (w.valueIn resolve m) =
      relation.holds (Term.total (Term.valueAs m none) d.terms) (-d.constant.toInt) := by
  have htotal := h.total_eq hv hw m
  apply Relation.holds_eq_of_sub_eq
  omega

end HasForms

/-- A difference of which the constant has no negation is refused. -/
theorem ne_minValue_of_ofForms {f g d : LinearForm} (hd : f.minus g = .ok d) {relation : Relation}
    {c : Comparison} (h : ofForms f relation g = .ok c) : d.constant ≠ Int64.minValue := by
  obtain ⟨negated, hnegated, hplus⟩ := Lowered.bind_eq_ok.mp hd
  simp only [ofForms, hnegated, hplus, bind, Except.bind] at h
  intro hmin
  rw [if_pos hmin] at h
  simp at h

theorem ofForms_of_isRaised {f g d : LinearForm} (hd : f.minus g = .ok d)
    (hmin : d.constant ≠ Int64.minValue) {relation : Relation} (h : IsRaised f g d relation) :
    ofForms f relation g = compensated f g d.terms relation (-d.constant.toInt) := by
  obtain ⟨negated, hnegated, hplus⟩ := Lowered.bind_eq_ok.mp hd
  simp only [ofForms, hnegated, hplus, bind, Except.bind, if_neg hmin, h.apart]
  have hseveral := h.several
  split
  · rename_i hterms
    simp [hterms] at hseveral
  · rename_i hcells _
    cases hcells
  · rename_i hterms _
    simp [hterms] at hseveral
  · rw [if_neg (by simp [h.order])]
    unfold ordering
    rcases h.raised with ⟨hrelation, hsubtracts⟩ | hnone
    · have hkept : (relation == .lt || relation == .le) && subtractsRead f := by
        rcases hrelation with rfl | rfl <;> simp [hsubtracts]
      simp only [hkept, if_true]
      rfl
    · rw [hnone]
      by_cases hkept : (relation == .lt || relation == .le) && subtractsRead f
      · simp only [hkept, if_true]
        rfl
      · simp only [hkept, Bool.false_eq_true, if_false]
        rfl

/-- Rows that are raised have no term with the smallest coefficient, and show no saturation. -/
theorem raised_of_compensated {f g d : LinearForm} {relation : Relation} {rows : List Row}
    (hkept : keepsOffset f g = false) (hmin : d.constant ≠ Int64.minValue)
    (h : compensated f g d.terms relation (-d.constant.toInt) = .ok (.rows rows)) :
    raised d.terms relation (-d.constant.toInt) = .ok (.rows rows) := by
  have hterms : ∀ t ∈ d.terms, t.coefficient ≠ Int64.minValue := by
    unfold compensated at h
    rw [hkept] at h
    simp only [Bool.false_eq_true, if_false] at h
    split at h
    · cases h
    split at h
    · simp at h
    simp only [Lowered.bind_eq_ok] at h
    obtain ⟨right, -, rows', hrows, -⟩ := h
    exact ne_minValue_of_assemble hrows
  rw [← h, compensated_eq hkept hterms relation hmin]

/-- The bound of an order that is raised. -/
def raisedBound (d : LinearForm) : Int :=
  -d.constant.toInt + Term.total Term.weight (Term.subtracted d.terms)

/-- A difference that, raised by a bound, reaches `2 ^ 32`, and of which the rest passes the bound. -/
def WrapsBelow (relation : Relation) (difference bound : Int) : Prop :=
  UInt32.size ≤ difference + bound ∧
    relation.holds (difference + bound - UInt32.size) bound = true

section
variable {relation : Relation} (horder : relation = .lt ∨ relation = .le) {difference bound : Int}
include horder

/-- What wraps was too large. -/
theorem holds_eq_false_of_reaches (hbound : bound < UInt32.size)
    (h : UInt32.size ≤ difference + bound) : relation.holds difference 0 = false := by
  have hpositive : 0 < difference := by omega
  rw [relation.holds_of_gt hpositive]
  rcases horder with rfl | rfl <;> rfl

/-- A raised sum as a word: it is what it was, or has wrapped once. -/
theorem holds_emod_iff (h0 : 0 ≤ difference + bound)
    (hsum : difference + bound < UInt32.size + UInt32.size) (hbound : bound < UInt32.size) :
    relation.holds ((difference + bound) % UInt32.size) bound = true ↔
      relation.holds difference 0 = true ∨ WrapsBelow relation difference bound := by
  by_cases hwraps : UInt32.size ≤ difference + bound
  · have hrest : (difference + bound) % UInt32.size = difference + bound - UInt32.size := by
      rw [← Int.sub_emod_right]
      exact Int.emod_eq_of_lt (by omega) (by omega)
    rw [hrest]
    constructor
    · intro h
      exact .inr ⟨hwraps, h⟩
    · rintro (h | h)
      · rw [holds_eq_false_of_reaches horder hbound hwraps] at h
        cases h
      · exact h.2
  · have hraised : relation.holds (difference + bound) bound = relation.holds difference 0 :=
      relation.holds_eq_of_sub_eq (by omega)
    rw [Int.emod_eq_of_lt h0 (by omega), hraised]
    exact (or_iff_left fun h => hwraps h.1).symm

end

/-- **The rows of a raised order hold where the order does, and where its sum wraps below the
bound.**  Only the subtracted terms are held against 32 bits.  Where the added ones fit as well, but
not beside them, the raised sum can reach `2 ^ 32`, and then the rows hold wrongly; where all of them
fit together, the rows are exact. -/
theorem truthIn_isRaised_iff {resolve : String → Option Size} {v w : Value}
    (hv : v.isLinear = true) (hw : w.isLinear = true) {f g d : LinearForm}
    (hforms : HasForms resolve v w f g d) {relation : Relation}
    (horder : relation = .lt ∨ relation = .le) (hraised : IsRaised f g d relation)
    (hkept : keepsOffset f g = false)
    (hadded : Term.total Term.weight (Term.added d.terms) < UInt32.size) {rows : List Row}
    (h : ofValues resolve v relation w = .ok (.rows rows)) (m : Memory) :
    (truthIn m (.rows rows) = true ↔
      relation.holds (v.valueIn resolve m) (w.valueIn resolve m) = true ∨
      WrapsBelow relation (v.valueIn resolve m - w.valueIn resolve m) (raisedBound d)) ∧
    (WrapsBelow relation (v.valueIn resolve m - w.valueIn resolve m) (raisedBound d) →
      relation.holds (v.valueIn resolve m) (w.valueIn resolve m) = false) ∧
    (Term.total Term.weight d.terms < UInt32.size →
      truthIn m (.rows rows) = relation.holds (v.valueIn resolve m) (w.valueIn resolve m)) := by
  rw [hforms.ofValues_eq] at h
  have hmin := ne_minValue_of_ofForms hforms.difference h
  rw [ofForms_of_isRaised hforms.difference hmin hraised] at h
  have hrows := raised_of_compensated hkept hmin h
  have hsound := hforms.isSound
  obtain ⟨hleast, hmost⟩ := Term.total_valueAs_range m hsound
  obtain ⟨htruth, hloss, h0, hlt⟩ := truthIn_raised m hsound hrows
  have hsum : Term.total Term.weight (Term.subtracted d.terms) +
      Term.total (Term.valueAs m none) d.terms =
        v.valueIn resolve m - w.valueIn resolve m + raisedBound d := by
    rw [hforms.total_eq hv hw, raisedBound]
    omega
  rw [hsum] at htruth
  rw [← Relation.holds_sub relation (v.valueIn resolve m)]
  refine ⟨?_, fun hwraps => holds_eq_false_of_reaches horder hlt hwraps.1, ?_⟩
  · rw [htruth, Relation.holds_ofInt_emod _ _ ⟨h0, hlt⟩]
    exact holds_emod_iff horder (by omega) (by omega) hlt
  · intro hfits
    rw [truthIn_raised_of_fits m hsound hrows hfits, Relation.holds_sub, hforms.holds_eq hv hw]

end Comparison

/-- Memory that is zero but for one dword, which is as large as it can be. -/
def Memory.fullDword (address : UInt32) : Memory where
  read o := if o = ⟨.current, .dword, address⟩ then 0xFFFFFFFF else 0
  read_le o _ := by
    split
    · rename_i ho
      subst ho
      exact UInt32.le_refl _
    · exact Nat.zero_le _
  read_bit _ _ _ _ := by simp
  read_lowNibble _ _ _ := by simp
  read_highNibble _ _ _ := by simp

namespace Comparison

/-- A dword less a byte. -/
def dwordLessByte : Value :=
  .sub (.read "dword" (.constant 1)) (.read "byte" (.constant 8))

theorem truthIn_isRaised_iff_dwordLessByte :
    ∃ f g d rows, HasForms Size.ofAccessor? dwordLessByte (.constant 3) f g d ∧
      IsRaised f g d .le ∧ keepsOffset f g = false ∧
      Term.total Term.weight (Term.added d.terms) < UInt32.size ∧
      ofValues Size.ofAccessor? dwordLessByte .le (.constant 3) = .ok (.rows rows) ∧
      truthIn (Memory.fullDword 1) (.rows rows) = true ∧
      Relation.le.holds (dwordLessByte.valueIn Size.ofAccessor? (Memory.fullDword 1)) 3 =
        false := by
  let dword : Cell := ⟨[], .memory .dword 1⟩
  let byte : Cell := ⟨[], .memory .byte 8⟩
  let f : LinearForm := ⟨[{ cell := dword }, { cell := byte, coefficient := -1 }], 0⟩
  let d : LinearForm := { f with constant := -3 }
  let rows : List Row := [.modifier .addSource (.literal 255), .modifier .subSource byte.operand,
    .comparing dword.operand .le (.literal 258)]
  have hforms : HasForms Size.ofAccessor? dwordLessByte (.constant 3) f ⟨[], 3⟩ d :=
    ⟨by decide +kernel, by decide +kernel, by decide +kernel⟩
  have hraised : IsRaised f ⟨[], 3⟩ d .le :=
    ⟨by decide, by decide, by decide, .inl ⟨.inr rfl, by decide⟩⟩
  have hkept : keepsOffset f ⟨[], 3⟩ = false := by decide
  have hadded : Term.total Term.weight (Term.added d.terms) < UInt32.size := by decide +kernel
  have hrows : ofValues Size.ofAccessor? dwordLessByte .le (.constant 3) =
      .ok (.rows rows) := by decide +kernel
  have hwraps : WrapsBelow .le (dwordLessByte.valueIn Size.ofAccessor? (Memory.fullDword 1) -
      (Value.constant 3).valueIn Size.ofAccessor? (Memory.fullDword 1)) (raisedBound d) :=
    ⟨by decide +kernel, by decide +kernel⟩
  obtain ⟨hiff, hfalse, -⟩ := truthIn_isRaised_iff (by decide) (by decide) hforms (.inr rfl) hraised
    hkept hadded hrows (Memory.fullDword 1)
  exact ⟨f, ⟨[], 3⟩, d, rows, hforms, hraised, hkept, hadded, hrows, hiff.mpr (.inr hwraps),
    hfalse hwraps⟩

end Comparison
end MemoryTrigger

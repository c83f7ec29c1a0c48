import MemoryTrigger.Proofs.Lowering.Accumulation

/-! # Comparisons of one term

A comparison of one scaled term is solved for the term: its bound is divided by the coefficient,
down or up as the relation needs, and a negative coefficient turns the relation around.  What is left
compares a word of 32 bits with any integer, and is settled where the integer is no word.  All of
this is exact (`Comparison.truthIn_ofScaledTerm`), but for the one coefficient that has no
negation. -/
namespace MemoryTrigger

/-! ## Relations between integers -/

namespace Relation

/-- Words compare as the integers they stand for. -/
theorem holds_toInt (r : Relation) (a b : UInt32) :
    r.holds (a.toNat : Int) (b.toNat : Int) = r.holds a b := by
  rw [← holds_toNat]
  cases r <;> simp [holds]

/-- What a word is compared as where the other side is one. -/
theorem holds_ofInt_emod (r : Relation) (a : Int) {b : Int} (hb : 0 ≤ b ∧ b < UInt32.size) :
    r.holds (UInt32.ofInt a) (UInt32.ofInt b) = r.holds (a % UInt32.size) b := by
  rw [← holds_toInt, Word.toNat_ofInt, Word.toNat_ofInt_of_lt hb.1 hb.2]

theorem holds_ofInt (r : Relation) {a b : Int} (ha : 0 ≤ a ∧ a < UInt32.size)
    (hb : 0 ≤ b ∧ b < UInt32.size) : r.holds (UInt32.ofInt a) (UInt32.ofInt b) = r.holds a b := by
  rw [holds_ofInt_emod r a hb, Int.emod_eq_of_lt ha.1 ha.2]

theorem holds_sub (r : Relation) (a b : Int) : r.holds (a - b) 0 = r.holds a b := by
  cases r <;> simp only [holds, decide_eq_decide] <;> omega

/-- What stands in a relation depends on the difference only. -/
theorem holds_eq_of_sub_eq (r : Relation) {a b a' b' : Int} (h : a - b = a' - b') :
    r.holds a b = r.holds a' b' := by
  rw [← holds_sub, h, holds_sub]

theorem holds_neg (r : Relation) (a b : Int) : r.reverse.holds (-a) (-b) = r.holds a b := by
  cases r <;> simp [holds, reverse]

theorem holds_of_gt (r : Relation) {a b : Int} (h : b < a) :
    r.holds a b = Comparison.holdsAbove r := by
  cases r <;> simp only [holds, Comparison.holdsAbove, decide_eq_true_eq, decide_eq_false_iff_not] <;>
    omega

theorem holds_of_lt (r : Relation) {a b : Int} (h : a < b) :
    r.holds a b = Comparison.holdsBelow r := by
  cases r <;> simp only [holds, Comparison.holdsBelow, decide_eq_true_eq, decide_eq_false_iff_not] <;>
    omega

end Relation

namespace Comparison

/-- The bound on a term alone allows what the bound on its multiple allows: rounded down where the
relation reads the multiple from below, and up otherwise. -/
theorem holds_solvedBound? {relation : Relation} {bound scale solved : Int} (hscale : 0 < scale)
    (h : solvedBound? relation bound scale = some solved) (x : Int) :
    relation.holds x solved = relation.holds (scale * x) bound := by
  have hdown : x ≤ bound / scale ↔ scale * x ≤ bound := by
    rw [Int.le_ediv_iff_mul_le hscale, Int.mul_comm]
  have hup : -(-bound / scale) ≤ x ↔ bound ≤ scale * x := by
    have hneg : -x ≤ -bound / scale ↔ -x * scale ≤ -bound := Int.le_ediv_iff_mul_le hscale
    rw [Int.neg_mul, Int.mul_comm] at hneg
    omega
  cases relation with
  | eq | ne =>
    simp only [solvedBound?] at h
    split at h
    · rename_i hdivides
      cases h
      have hmul : scale * (bound / scale) = bound :=
        Int.mul_ediv_cancel_of_dvd (Int.dvd_of_emod_eq_zero hdivides)
      have hsolved : x = bound / scale ↔ scale * x = bound := by
        constructor
        · rintro rfl
          exact hmul
        · intro heq
          exact Int.eq_of_mul_eq_mul_left (Int.ne_of_gt hscale) (heq.trans hmul.symm)
      simp only [Relation.holds, ne_eq, hsolved]
    · cases h
  | gt | le =>
    cases h
    simp only [Relation.holds, decide_eq_decide]
    omega
  | ge | lt =>
    cases h
    simp only [Relation.holds, decide_eq_decide]
    omega

/-- An equality without a solution. -/
theorem holds_of_solvedBound?_eq_none {relation : Relation} {bound scale : Int}
    (h : solvedBound? relation bound scale = none) (x : Int) :
    relation.holds (scale * x) bound = decide (relation = .ne) := by
  have hdiffers : bound % scale ≠ 0 → scale * x ≠ bound := by
    rintro hrest rfl
    exact hrest (Int.mul_emod_right scale x)
  cases relation with
  | eq | ne =>
    simp only [solvedBound?] at h
    split at h
    · cases h
    · rename_i hrest
      simp [Relation.holds, hdiffers hrest]
  | _ => cases h

variable (m : Memory)

/-- A read is compared behind its pointer. -/
theorem truthIn_read {t : Term} (ht : t.IsSound) (hmodifier : t.modifier = none)
    (relation : Relation) (w : UInt32) :
    truthIn m (.rows (t.cell.pointer ++ [.comparing t.cell.operand relation (.literal w)])) =
      relation.holds (t.factorAs m none) w := by
  rw [truthIn_rows m ht.cell.pointer, ChainState.foldl_step_pointers m ht.cell.roles,
    Term.factorAs, hmodifier, Cell.readAs, Operand.seenAs_none]
  exact congrArg (relation.holds · _) (UInt32.add_zero _)

/-- A modified read is fed behind its pointer, and compared as it is added to zero. -/
theorem truthIn_modifiedRead {t : Term} (ht : t.IsSound) {a : Modifier}
    (hmodifier : t.modifier = some a) (relation : Relation) (w : UInt32) :
    truthIn m (.rows (t.cell.pointer ++ [Term.modifiedRow .addSource t.cell.operand a,
        .comparing (.literal 0) relation (.literal w)])) =
      relation.holds (t.factorAs m none) w := by
  have hfeeds := Row.isFeeding_arithmetic .addSource rfl
    (Operand.isRepresentable_of_isMemory ht.cell.operand) a.arithmetic (ht.right a hmodifier)
  have hlead : ∀ r ∈ t.cell.pointer ++ [Term.modifiedRow .addSource t.cell.operand a],
      r.IsFeeding :=
    List.forall_mem_append.mpr ⟨ht.cell.pointer, List.forall_mem_singleton.mpr hfeeds⟩
  have hfed : (Term.modifiedRow .addSource t.cell.operand a).fedValue m (t.cell.baseIn m) =
      t.factorAs m none := by
    simp [Row.fedValue, Term.modifiedRow, Row.modifier, Term.factorAs, hmodifier, Cell.readAs]
  have htruth := truthIn_rows m hlead (.literal 0) relation (.literal w)
  rw [List.append_assoc] at htruth
  rw [List.foldl_append, ChainState.foldl_step_pointers m ht.cell.roles, List.foldl_cons,
    List.foldl_nil, ChainState.step_accumulator m (.inl rfl)] at htruth
  rw [← hfed]
  simpa [Operand.valueIn, Operand.literal, Cell.baseIn, Word.ofInt_toNat, Role.sign,
    Term.modifiedRow, Row.modifier] using htruth

/-- **A comparison of one term with any integer.** -/
theorem truthIn_ofTerm {t : Term} (ht : t.IsSound) {relation : Relation} {bound : Int}
    {c : Comparison} (h : ofTerm t relation bound = .ok c) :
    c.truthIn m = relation.holds ((t.factorAs m none).toNat : Int) bound := by
  have hword := (t.factorAs m none).toNat_lt_size
  unfold ofTerm at h
  split at h
  · cases h
    exact (relation.holds_of_gt (by omega)).symm
  split at h
  · cases h
    exact (relation.holds_of_lt (by omega)).symm
  simp only [Lowered.bind_eq_ok] at h
  obtain ⟨right, hright, h⟩ := h
  have hmin := Int64.toInt_minValue_lt_zero
  have hmax : (UInt32.size : Int) ≤ Int64.maxValue.toInt := by decide
  obtain ⟨rfl, h0, hlt⟩ := Operand.eq_literal_of_ofNumber (by omega) (by omega) hright
  have hbound : relation.holds (t.factorAs m none) (UInt32.ofInt bound) =
      relation.holds ((t.factorAs m none).toNat : Int) bound := by
    rw [← Relation.holds_toInt, Word.toNat_ofInt_of_lt h0 hlt]
  rw [← hbound]
  split at h
  · rename_i hmodifier
    cases h
    exact truthIn_read m ht hmodifier relation _
  · rename_i a hmodifier
    cases h
    exact truthIn_modifiedRead m ht hmodifier relation _

/-- Rows for `scale * term relation bound`, for a scale that is positive. -/
def solvedFor (t : Term) (scale : Int64) (relation : Relation) (bound : Int) :
    Lowered Comparison :=
  if 1 < scale then
    match solvedBound? relation bound scale.toInt with
    | some bound => ofTerm t relation bound
    | none => .ok (.constant (decide (relation = .ne)))
  else ofTerm t relation bound

/-- A negative coefficient turns the relation around. -/
theorem ofScaledTerm_eq (t : Term) (relation : Relation) (bound : Int) :
    ofScaledTerm t relation bound =
      if t.coefficient < 0 then solvedFor t (-t.coefficient) relation.reverse (-bound)
      else solvedFor t t.coefficient relation bound := by
  unfold ofScaledTerm
  by_cases hnegative : t.coefficient < 0
  · simp only [hnegative, decide_true, if_true]
    rfl
  · simp only [hnegative, decide_false, Bool.false_eq_true, if_false]
    rfl

theorem truthIn_solvedFor {t : Term} (ht : t.IsSound) {scale : Int64} (hscale : 0 < scale.toInt)
    {relation : Relation} {bound : Int} {c : Comparison}
    (h : solvedFor t scale relation bound = .ok c) :
    c.truthIn m = relation.holds (scale.toInt * (t.factorAs m none).toNat) bound := by
  unfold solvedFor at h
  split at h
  · split at h
    · rename_i solved hsolved
      rw [truthIn_ofTerm m ht h, holds_solvedBound? hscale hsolved]
    · rename_i hsolved
      cases h
      exact (holds_of_solvedBound?_eq_none hsolved _).symm
  · rename_i hone
    have hunit : scale.toInt = 1 := by
      rw [Int64.lt_iff_toInt_lt] at hone
      have : (1 : Int64).toInt = 1 := rfl
      omega
    rw [truthIn_ofTerm m ht h, hunit, Int.one_mul]

/-- **A comparison of one scaled term**, whatever the sign of its coefficient. -/
theorem truthIn_ofScaledTerm {t : Term} (ht : t.IsSound) (h0 : t.coefficient ≠ 0)
    (hmin : t.coefficient ≠ Int64.minValue) {relation : Relation} {bound : Int} {c : Comparison}
    (h : ofScaledTerm t relation bound = .ok c) :
    c.truthIn m = relation.holds (t.valueAs m none) bound := by
  have hzero : (0 : Int64).toInt = 0 := rfl
  have hne : t.coefficient.toInt ≠ 0 := fun heq => h0 (Int64.toInt_inj.mp heq)
  rw [ofScaledTerm_eq] at h
  split at h
  · rename_i hnegative
    rw [Int64.lt_iff_toInt_lt, hzero] at hnegative
    have hpositive : 0 < (-t.coefficient).toInt := by
      rw [Checked.toInt_neg hmin]
      omega
    rw [truthIn_solvedFor m ht hpositive h, Checked.toInt_neg hmin, Int.neg_mul,
      Relation.holds_neg, Term.valueAs]
  · rename_i hnegative
    rw [Int64.lt_iff_toInt_lt, hzero] at hnegative
    rw [truthIn_solvedFor m ht (by omega) h, Term.valueAs]

end Comparison
end MemoryTrigger

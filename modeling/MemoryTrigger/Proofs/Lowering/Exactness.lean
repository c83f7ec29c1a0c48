import MemoryTrigger.Proofs.Lowering.Compensation
import MemoryTrigger.Proofs.ReadValues

/-! # Exact comparisons

A comparison of two expressions is lowered in one of six ways (`Comparison.LoweredAs`).  Three of
them never look at the size of a sum and are exact: nothing is left to compare, two reads are
compared as they are, or one read is left to solve for.  The other three accumulate words of 32 bits,
and are exact where everything that the difference can come to, beside its bound, fits a word
(`Comparison.truthIn_ofValues`).

A verdict needs no such condition.  It is only given where nothing or one read is left, or where the
most that can be subtracted does not reach the bound, and this is found with integers
(`Comparison.holds_of_ofValues_eq_constant`). -/
namespace MemoryTrigger

/-! ## Words and weights -/

/-- Integers less than `2 ^ 32` apart are equal as soon as their words are. -/
theorem Relation.holds_ofInt_of_near {r : Relation} (hr : r = .eq ∨ r = .ne) {a b : Int}
    (hlow : -UInt32.size < a - b) (hhigh : a - b < UInt32.size) :
    r.holds (UInt32.ofInt a) (UInt32.ofInt b) = r.holds a b := by
  have hwords : UInt32.ofInt a = UInt32.ofInt b ↔ a = b := by
    constructor
    · intro h
      have hrest : a % UInt32.size = b % UInt32.size := by
        rw [← Word.toNat_ofInt, ← Word.toNat_ofInt, h]
      have hsize : (UInt32.size : Int) = 4294967296 := rfl
      rw [hsize] at hlow hhigh hrest
      omega
    · rintro rfl
      rfl
  rcases hr with rfl | rfl <;> simp only [Relation.holds, ne_eq, hwords]

namespace Term

theorem weight_le_total {t : Term} {ts : List Term} (h : t ∈ ts) : t.weight ≤ total weight ts := by
  induction h with
  | head ts =>
    have := total_nonneg weight_nonneg ts
    rw [total_cons]
    omega
  | tail u _ ih =>
    have := u.weight_nonneg
    rw [total_cons]
    omega

/-- The smallest coefficient makes any term too large for a word. -/
theorem size_le_weight {t : Term} (ht : t.IsSound) (h : t.coefficient = Int64.minValue) :
    UInt32.size ≤ t.weight := by
  have hmost : 0 < t.most := by
    unfold most
    split
    · exact Operand.maxValue_pos ht.cell.operand
    · decide
  have hsize : (UInt32.size : Int) ≤ t.coefficient.toInt.natAbs := by
    rw [h]
    decide
  have hweight : (t.coefficient.toInt.natAbs : Int) * 1 ≤ t.weight :=
    Int.mul_le_mul_of_nonneg_left (by omega) (Int.natCast_nonneg _)
  omega

end Term

namespace Comparison

/-! ## Ways to lower a comparison -/

/-- The ways in which a comparison of two forms with a difference is lowered. -/
inductive LoweredAs (f g d : LinearForm) (relation : Relation) : Comparison → Prop where
  | settled (hterms : d.terms = []) :
      LoweredAs f g d relation (.constant (relation.holds 0 (-d.constant.toInt)))
  | direct {a b : Cell} (hcells : f.cells? g = some (a, b)) :
      LoweredAs f g d relation (.rows (a.pointer ++ [.comparing a.operand relation b.operand]))
  | solved {t : Term} {c : Comparison} (hcells : f.cells? g = none) (hterms : d.terms = [t])
      (h : ofScaledTerm t relation (-d.constant.toInt) = .ok c) : LoweredAs f g d relation c
  | equated {c : Comparison} (hcells : f.cells? g = none) (hterms : 2 ≤ d.terms.length)
      (hrelation : relation = .eq ∨ relation = .ne)
      (h : equality d.terms relation (-d.constant.toInt) = .ok c) : LoweredAs f g d relation c
  | rearranged {rows : List Row} (hcells : f.cells? g = none) (hterms : 2 ≤ d.terms.length)
      (h : rearranged? d.terms relation (-d.constant.toInt) = .ok (some rows)) :
      LoweredAs f g d relation (.rows rows)
  | raised {c : Comparison} (hraised : IsRaised f g d relation)
      (h : compensated f g d.terms relation (-d.constant.toInt) = .ok c) :
      LoweredAs f g d relation c

/-- An order is raised where its left side subtracts, and where rearranging it gives nothing. -/
theorem loweredAs_of_ordering {f g d : LinearForm} (hcells : f.cells? g = none)
    (hterms : 2 ≤ d.terms.length) {relation : Relation} (horder : relation ≠ .eq ∧ relation ≠ .ne)
    {c : Comparison} (h : ordering f g d.terms relation (-d.constant.toInt) = .ok c) :
    LoweredAs f g d relation c := by
  unfold ordering at h
  by_cases hkept : (relation == .lt || relation == .le) && subtractsRead f
  · simp only [hkept, if_true] at h
    obtain ⟨hrelation, hsubtracts⟩ := Bool.and_eq_true_iff.mp hkept
    exact .raised ⟨hterms, hcells, horder, .inl ⟨by simpa using hrelation, hsubtracts⟩⟩ h
  · simp only [hkept, Bool.false_eq_true, if_false, Lowered.bind_eq_ok] at h
    obtain ⟨rows?, hrows, h⟩ := h
    cases rows? with
    | none => exact .raised ⟨hterms, hcells, horder, .inr hrows⟩ h
    | some rows =>
      cases h
      exact .rearranged hcells hterms hrows

/-- Every comparison that is lowered is lowered in one of these ways. -/
theorem loweredAs_of_ofForms {f g d : LinearForm} (hd : f.minus g = .ok d) {relation : Relation}
    {c : Comparison} (h : ofForms f relation g = .ok c) : LoweredAs f g d relation c := by
  have hmin := ne_minValue_of_ofForms hd h
  obtain ⟨negated, hnegated, hplus⟩ := Lowered.bind_eq_ok.mp hd
  simp only [ofForms, hnegated, hplus, bind, Except.bind, if_neg hmin] at h
  split at h
  · rename_i hterms
    cases h
    exact .settled hterms
  · rename_i hcells _
    cases h
    exact .direct hcells
  · rename_i hterms hcells
    exact .solved hcells hterms h
  · rename_i hcells hnone hone
    have hterms : 2 ≤ d.terms.length := by
      cases hd : d.terms with
      | nil => exact absurd hd hnone
      | cons t rest =>
        cases rest with
        | nil => exact absurd hd (hone t)
        | cons u rest => simp
    split at h
    · rename_i hrelation
      exact .equated hcells hterms hrelation h
    · rename_i hrelation
      exact loweredAs_of_ordering hcells hterms (not_or.mp hrelation) h

/-! ## Sums that fit a word -/

theorem rearranged?_eq (terms : List Term) (relation : Relation) (bound : Int) :
    rearranged? terms relation bound =
      if bound ≤ 0 then balanced? (Term.added terms) (Term.subtracted terms) (-bound) relation
      else balanced? (Term.subtracted terms) (Term.added terms) bound relation.reverse := rfl

section
variable (m : Memory) {terms : List Term} (hterms : ∀ t ∈ terms, t.IsSound) {k : Int64}
  (hk : k ≠ Int64.minValue)
  (hfits : Term.total Term.weight terms + k.toInt.natAbs < UInt32.size)
include hterms hk hfits

/-- Both sides of an equality stay within one turn of each other. -/
theorem truthIn_equality {relation : Relation} (hrelation : relation = .eq ∨ relation = .ne)
    {c : Comparison} (h : equality terms relation (-k.toInt) = .ok c) :
    c.truthIn m = relation.holds (Term.total (Term.valueAs m none) terms) (-k.toInt) := by
  obtain ⟨hleast, hmost⟩ := Term.total_valueAs_range m hterms
  have hgain := Term.total_nonneg Term.weight_nonneg (Term.added terms)
  have hloss := Term.total_nonneg Term.weight_nonneg (Term.subtracted terms)
  have hmin := Int64.toInt_minValue_lt_zero
  have hbound := Checked.natAbs_le_of_ne_minValue hk
  rw [Term.total_weight_eq] at hfits
  simp only [equality, Lowered.bind_eq_ok, Lowered.pure_eq_ok] at h
  obtain ⟨right, hright, rows, hrows, rfl⟩ := h
  -- the offset is what the bound lacks to be a word
  generalize hoffset : (if -k.toInt < 0 then - -k.toInt else 0) = offset at hrows
  have hraised : (if -k.toInt < 0 then 0 else -k.toInt) = -k.toInt + offset := by
    rw [← hoffset]
    split <;> omega
  have h0 : 0 ≤ offset := by
    rw [← hoffset]
    split <;> omega
  have hoffset_le : offset ≤ Int64.maxValue.toInt := by
    rw [← hoffset]
    split <;> omega
  rw [hraised] at hright
  obtain ⟨rfl, -, -⟩ := Operand.eq_literal_of_ofNumber (by omega) (by omega) hright
  rw [truthIn_assemble m h0 hoffset_le hterms hrows,
    Relation.holds_ofInt_of_near hrelation (by omega) (by omega)]
  apply Relation.holds_eq_of_sub_eq
  omega

/-- Both sides of a rearranged order fit a word. -/
theorem truthIn_rearranged? {relation : Relation} {rows : List Row}
    (h : rearranged? terms relation (-k.toInt) = .ok (some rows)) :
    truthIn m (.rows rows) =
      relation.holds (Term.total (Term.valueAs m none) terms) (-k.toInt) := by
  have hadded := Term.isSound_added hterms
  have hsubtracted := Term.isSound_subtracted hterms
  obtain ⟨hgain0, hgain⟩ := Term.total_sizeIn_range m hadded
  obtain ⟨hloss0, hloss⟩ := Term.total_sizeIn_range m hsubtracted
  have hbound := Checked.natAbs_le_of_ne_minValue hk
  rw [Term.total_weight_eq] at hfits
  rw [rearranged?_eq] at h
  rw [Term.total_valueAs_eq]
  split at h
  · rw [truthIn_balanced? m hadded (by omega) (by omega) h,
      Relation.holds_ofInt _ (by omega) (by omega)]
    apply Relation.holds_eq_of_sub_eq
    omega
  · rw [truthIn_balanced? m hsubtracted (by omega) (by omega) h,
      Relation.holds_ofInt _ (by omega) (by omega), Relation.holds_reverse]
    apply Relation.holds_eq_of_sub_eq
    omega

end

/-! ## Whole comparisons -/

namespace HasForms
variable {resolve : String → Option Size} {v w : Value} {f g d : LinearForm}
  (h : HasForms resolve v w f g d)
include h

theorem isReduced : d.IsReduced := by
  obtain ⟨negated, -, hplus⟩ := Lowered.bind_eq_ok.mp h.difference
  exact LinearForm.isReduced_plus (LinearForm.isReduced_ofValue h.left) hplus

variable (hv : v.isLinear = true) (hw : w.isLinear = true) {relation : Relation}
include hv hw

/-- Two reads behind one pointer, compared as they are. -/
theorem truthIn_direct {a b : Cell} (hcells : f.cells? g = some (a, b)) (m : Memory) :
    truthIn m (.rows (a.pointer ++ [.comparing a.operand relation b.operand])) =
      relation.holds (v.valueIn resolve m) (w.valueIn resolve m) := by
  obtain ⟨hf, hg, hpointer⟩ := LinearForm.eq_ofCell_of_cells? hcells
  have hsound := (LinearForm.isSound_cells? (LinearForm.isSound_ofValue h.left)
    (LinearForm.isSound_ofValue h.right) hcells).1
  have hleft := LinearForm.valueAs_ofValue m hv h.left none
  have hright := LinearForm.valueAs_ofValue m hw h.right none
  rw [hf, LinearForm.valueAs_ofCell] at hleft
  rw [hg, LinearForm.valueAs_ofCell] at hright
  rw [truthIn_cells m hsound hpointer, Value.valueIn, Value.valueIn, ← hleft, ← hright,
    Relation.holds_toInt]

/-- One read that is left, solved for. -/
theorem truthIn_solved (hmin : ∀ t ∈ d.terms, t.coefficient ≠ Int64.minValue) {t : Term}
    (hterms : d.terms = [t]) {c : Comparison}
    (hc : ofScaledTerm t relation (-d.constant.toInt) = .ok c) (m : Memory) :
    c.truthIn m = relation.holds (v.valueIn resolve m) (w.valueIn resolve m) := by
  have hmem : t ∈ d.terms := by simp [hterms]
  rw [truthIn_ofScaledTerm m (h.isSound t hmem) (h.isReduced.nonzero t hmem) (hmin t hmem) hc,
    h.holds_eq hv hw, hterms, Term.total_cons, Term.total_nil, Int.add_zero]

end HasForms

/-- A difference that no row can wrap: at most one read is left of it, the sides are two reads behind
one pointer, or all that it can come to fits 32 bits beside the bound. -/
def IsSafe (f g d : LinearForm) : Prop :=
  (d.terms.length ≤ 1 ∧ ∀ t ∈ d.terms, t.coefficient ≠ Int64.minValue) ∨
  (f.cells? g).isSome = true ∨
  Term.total Term.weight d.terms + d.constant.toInt.natAbs < UInt32.size

/-- Where several reads are left, only their size makes a difference safe. -/
theorem IsSafe.fits {f g d : LinearForm} (h : IsSafe f g d) (hcells : f.cells? g = none)
    (hterms : 2 ≤ d.terms.length) :
    Term.total Term.weight d.terms + d.constant.toInt.natAbs < UInt32.size := by
  rcases h with ⟨hone, -⟩ | hsome | hfits
  · omega
  · simp [hcells] at hsome
  · exact hfits

theorem IsSafe.ne_minValue {f g d : LinearForm} (h : IsSafe f g d) (hcells : f.cells? g = none)
    (hsound : d.IsSound) : ∀ t ∈ d.terms, t.coefficient ≠ Int64.minValue := by
  rcases h with ⟨-, hmin⟩ | hsome | hfits
  · exact hmin
  · simp [hcells] at hsome
  · intro t ht hmin
    have hlarge := Term.size_le_weight (hsound t ht) hmin
    have htotal := Term.weight_le_total ht
    omega

/-- A verdict on a raised order. -/
theorem holds_of_compensated_eq_constant {f g d : LinearForm} (hsound : d.IsSound)
    (hterms : ∀ t ∈ d.terms, t.coefficient ≠ Int64.minValue) (hmin : d.constant ≠ Int64.minValue)
    {relation : Relation} (hraised : IsRaised f g d relation) {truth : Bool}
    (h : compensated f g d.terms relation (-d.constant.toInt) = .ok (.constant truth))
    (m : Memory) :
    relation.holds (Term.total (Term.valueAs m none) d.terms) (-d.constant.toInt) = truth := by
  by_cases hkept : keepsOffset f g = true
  · -- an explicit offset stands beside a bound that is not negative, and gives no verdict
    have hbound : ¬ g.constant.toInt < 0 := by
      have hzero : (0 : Int64).toInt = 0 := rfl
      have hnonneg := of_decide_eq_true (Bool.and_eq_true_iff.mp hkept).2
      rw [Int64.le_iff_toInt_le, hzero] at hnonneg
      omega
    unfold compensated at h
    rw [hkept] at h
    simp only [if_true, hbound, if_false] at h
    split at h
    · simp at h
    · simp only [Lowered.bind_eq_ok, Lowered.pure_eq_ok] at h
      obtain ⟨_, -, _, -, hrows⟩ := h
      cases hrows
  · rw [compensated_eq (Bool.eq_false_of_not_eq_true hkept) hterms relation hmin] at h
    exact holds_of_raised_eq_constant m hsound hraised.order.1 hraised.order.2 h

/-- **Comparisons are exact.**  The difference of the sides has every read once.  If it is safe, and
an explicit offset is not kept, then the rows of the comparison hold in a memory exactly where it
holds over the integers; and a verdict is its truth in every memory. -/
theorem truthIn_ofValues {resolve : String → Option Size} {v w : Value} (hv : v.isLinear = true)
    (hw : w.isLinear = true) {f g d : LinearForm} (hforms : HasForms resolve v w f g d)
    (hsafe : IsSafe f g d) {relation : Relation}
    (hoffset : ¬(IsRaised f g d relation ∧ keepsOffset f g = true)) {c : Comparison}
    (h : ofValues resolve v relation w = .ok c) :
    d.IsReduced ∧ ∀ m : Memory,
      c.truthIn m = relation.holds (v.valueIn resolve m) (w.valueIn resolve m) := by
  refine ⟨hforms.isReduced, fun m => ?_⟩
  have hsound := hforms.isSound
  rw [hforms.ofValues_eq] at h
  have hmin := ne_minValue_of_ofForms hforms.difference h
  cases loweredAs_of_ofForms hforms.difference h with
  | settled hterms =>
    rw [hforms.holds_eq hv hw, hterms]
    rfl
  | direct hcells => exact hforms.truthIn_direct hv hw hcells m
  | solved hcells hterms hsolved =>
    exact hforms.truthIn_solved hv hw (hsafe.ne_minValue hcells hsound) hterms hsolved m
  | equated hcells hterms hrelation hequated =>
    rw [hforms.holds_eq hv hw]
    exact truthIn_equality m hsound hmin (hsafe.fits hcells hterms) hrelation hequated
  | rearranged hcells hterms hrearranged =>
    rw [hforms.holds_eq hv hw]
    exact truthIn_rearranged? m hsound hmin (hsafe.fits hcells hterms) hrearranged
  | raised hraised hcompensated =>
    rw [hforms.holds_eq hv hw]
    cases c with
    | constant truth =>
      have hterms := hsafe.ne_minValue hraised.apart hsound
      exact (holds_of_compensated_eq_constant hsound hterms hmin hraised hcompensated m).symm
    | rows rows =>
      have hkept : keepsOffset f g = false := by
        rw [← Bool.not_eq_true]
        exact fun hkept => hoffset ⟨hraised, hkept⟩
      have hfits := hsafe.fits hraised.apart hraised.several
      exact truthIn_raised_of_fits m hsound (raised_of_compensated hkept hmin hcompensated)
        (by omega)

/-- A byte and three times another, less the previous word behind a pointer. -/
def weighedAgainstPointer : Value :=
  .sub (.add (.read "byte" (.constant 1)) (.mul (.read "byte" (.constant 2)) (.constant 3)))
    (.viewed .prev (.read "word" (.add (.read "dword" (.constant 16)) (.constant 4))))

theorem truthIn_ofValues_weighedAgainstPointer :
    ∃ f g d rows, HasForms Size.ofAccessor? weighedAgainstPointer (.constant 5) f g d ∧
      IsSafe f g d ∧ IsRaised f g d .le ∧ keepsOffset f g = false ∧
      ofValues Size.ofAccessor? weighedAgainstPointer .le (.constant 5) = .ok (.rows rows) ∧
      d.IsReduced ∧ ∀ m, truthIn m (.rows rows) =
        Relation.le.holds (weighedAgainstPointer.valueIn Size.ofAccessor? m) 5 := by
  let first : Cell := ⟨[], .memory .byte 1⟩
  let second : Cell := ⟨[], .memory .byte 2⟩
  let pointed : Cell := ⟨[.modifier .addAddress (.memory .dword 16)], ⟨.previous, .word, 4⟩⟩
  let f : LinearForm := ⟨[{ cell := first }, { cell := second, coefficient := 3 },
    { cell := pointed, coefficient := -1 }], 0⟩
  let d : LinearForm := { f with constant := -5 }
  let rows : List Row := [.modifier .addSource (.literal 65535),
    Term.modifiedRow .addSource second.operand ⟨.mul, .literal 3⟩,
    .modifier .addAddress (.memory .dword 16), .modifier .subSource pointed.operand,
    .comparing first.operand .le (.literal 65540)]
  have hforms : HasForms Size.ofAccessor? weighedAgainstPointer (.constant 5) f ⟨[], 5⟩ d :=
    ⟨by decide +kernel, by decide +kernel, by decide +kernel⟩
  have hsafe : IsSafe f ⟨[], 5⟩ d := .inr (.inr (by decide +kernel))
  have hraised : IsRaised f ⟨[], 5⟩ d .le :=
    ⟨by decide, by decide, by decide, .inl ⟨.inr rfl, by decide⟩⟩
  have hkept : keepsOffset f ⟨[], 5⟩ = false := by decide
  have hrows : ofValues Size.ofAccessor? weighedAgainstPointer .le (.constant 5) =
      .ok (.rows rows) := by decide +kernel
  exact ⟨f, ⟨[], 5⟩, d, rows, hforms, hsafe, hraised, hkept, hrows,
    truthIn_ofValues (by decide) (by decide) hforms hsafe (by simp [hkept]) hrows⟩

/-- **A verdict is right at any width**, as long as no coefficient is the one without a negation. -/
theorem holds_of_ofValues_eq_constant {resolve : String → Option Size} {v w : Value}
    (hv : v.isLinear = true) (hw : w.isLinear = true) {f g d : LinearForm}
    (hforms : HasForms resolve v w f g d)
    (hterms : ∀ t ∈ d.terms, t.coefficient ≠ Int64.minValue) {relation : Relation} {truth : Bool}
    (h : ofValues resolve v relation w = .ok (.constant truth)) (m : Memory) :
    relation.holds (v.valueIn resolve m) (w.valueIn resolve m) = truth := by
  rw [hforms.ofValues_eq] at h
  have hmin := ne_minValue_of_ofForms hforms.difference h
  generalize hc : Comparison.constant truth = c at h
  cases loweredAs_of_ofForms hforms.difference h with
  | settled hnone =>
    cases hc
    rw [hforms.holds_eq hv hw, hnone]
    rfl
  | direct hcells => cases hc
  | solved hcells hone hsolved =>
    subst hc
    exact (hforms.truthIn_solved hv hw hterms hone hsolved m).symm
  | equated hcells hseveral hrelation hequated =>
    subst hc
    simp only [equality, Lowered.bind_eq_ok, Lowered.pure_eq_ok] at hequated
    obtain ⟨_, -, _, -, hrows⟩ := hequated
    cases hrows
  | rearranged hcells hseveral hrearranged => cases hc
  | raised hraised hcompensated =>
    subst hc
    rw [hforms.holds_eq hv hw]
    exact holds_of_compensated_eq_constant hforms.isSound hterms hmin hraised hcompensated m

/-- A million times a dword, less another one. -/
def millionDwordsLessOne : Value :=
  .sub (.mul (.constant 1000000) (.read "dword" (.constant 1))) (.read "dword" (.constant 8))

theorem holds_of_ofValues_eq_constant_millionDwordsLessOne :
    ∃ f g d, HasForms Size.ofAccessor? millionDwordsLessOne (.constant (-4294967296)) f g d ∧
      (∀ t ∈ d.terms, t.coefficient ≠ Int64.minValue) ∧
      ofValues Size.ofAccessor? millionDwordsLessOne .lt (.constant (-4294967296)) =
        .ok (.constant false) ∧
      ∀ m, Relation.lt.holds (millionDwordsLessOne.valueIn Size.ofAccessor? m) (-4294967296) =
        false := by
  let f : LinearForm := ⟨[{ cell := ⟨[], .memory .dword 1⟩, coefficient := 1000000 },
    { cell := ⟨[], .memory .dword 8⟩, coefficient := -1 }], 0⟩
  let d : LinearForm := { f with constant := 4294967296 }
  have hforms : HasForms Size.ofAccessor? millionDwordsLessOne (.constant (-4294967296)) f
      ⟨[], -4294967296⟩ d := ⟨by decide +kernel, by decide +kernel, by decide +kernel⟩
  have hterms : ∀ t ∈ d.terms, t.coefficient ≠ Int64.minValue := by decide
  have hverdict : ofValues Size.ofAccessor? millionDwordsLessOne .lt (.constant (-4294967296)) =
      .ok (.constant false) := by decide +kernel
  exact ⟨f, ⟨[], -4294967296⟩, d, hforms, hterms, hverdict,
    holds_of_ofValues_eq_constant (by decide) (by decide) hforms hterms hverdict⟩

end Comparison
end MemoryTrigger

import MemoryTrigger.Chain
import MemoryTrigger.Proofs.Lowering.Comparisons

/-! # How comparisons fail

Whatever goes wrong in the arithmetic of a comparison is refused for a cause of its own, and without
a location: a comparison does not know where it stands (`Comparison.fails_ofValues`).  Only quotients
can overflow instead (`LinearForm.dividedBy_of_overflowsBy`).  So the location of such an error, and
whether an error is one of a comparison at all, is decided by the conditions around it. -/
namespace MemoryTrigger

/-- Causes that lie in the arithmetic of a comparison, or in its having a constant truth. -/
def Cause.isOfComparison : Cause → Bool
  | unknownAccessor _ | divisionByZero | addressOutOfRange _ | nestedView _ | viewWithoutMemory _
  | cannotEliminateMultiplication | cannotNormalizeDivision | negativeOffset _
  | cannotCompensateSubtraction | complexAddress | unsupportedNesting .compoundMask
  | valueOutOfRange _ | neverTrue | alwaysTrue => true
  | _ => false

namespace Failure

/-- A comparison is refused, for a cause of its own and without a location. -/
def IsRefusal : Failure → Prop
  | rejected e => e.cause.isOfComparison = true ∧ e.location = none
  | overflow => False

/-- A failure of a comparison: an overflow, or a cause of its own without a location. -/
def IsOfComparison : Failure → Prop
  | rejected e => e.cause.isOfComparison = true ∧ e.location = none
  | overflow => True

theorem IsRefusal.isOfComparison {f : Failure} (h : f.IsRefusal) : f.IsOfComparison := by
  cases f with
  | rejected e => exact h
  | overflow => trivial

end Failure

namespace Lowered
variable {α β γ : Type} {P Q : Failure → Prop}

/-- Every failure of the step has the property. -/
def Fails (P : Failure → Prop) (x : Lowered α) : Prop := ∀ f, x = .error f → P f

theorem Fails.mono {x : Lowered α} (h : x.Fails P) (hPQ : ∀ f, P f → Q f) : x.Fails Q :=
  fun f hf => hPQ f (h f hf)

theorem fails_ok (a : α) : Fails P (.ok a) := by
  rintro f ⟨⟩

theorem fails_pure (a : α) : Fails P (pure a) := fails_ok a

theorem Fails.bind {x : Lowered α} {k : α → Lowered β} (hx : x.Fails P) (hk : ∀ a, (k a).Fails P) :
    (x >>= k).Fails P := by
  intro f h
  cases x with
  | error g =>
    obtain rfl : g = f := Except.error.inj h
    exact hx g rfl
  | ok a => exact hk a f h

theorem Fails.mapM {k : α → Lowered β} {xs : List α} (h : ∀ x ∈ xs, (k x).Fails P) :
    (xs.mapM k).Fails P := by
  induction xs with
  | nil => exact fails_pure _
  | cons x xs ih =>
    obtain ⟨hx, hxs⟩ := List.forall_mem_cons.mp h
    rw [List.mapM_cons]
    exact hx.bind fun _ => (ih hxs).bind fun _ => fails_pure _

theorem Fails.foldlM {k : β → α → Lowered β} (h : ∀ b a, (k b a).Fails P) (xs : List α) (b : β) :
    (xs.foldlM k b).Fails P := by
  induction xs generalizing b with
  | nil => exact fails_pure _
  | cons x xs ih => exact (h b x).bind fun c => ih c

theorem fails_reject {cause : Cause} (h : cause.isOfComparison = true) :
    (reject cause : Lowered α).Fails Failure.IsRefusal := by
  rintro f ⟨⟩
  exact ⟨h, rfl⟩

theorem fails_require {cause : Cause} (h : cause.isOfComparison = true) (x : Option α) :
    (require x cause).Fails Failure.IsRefusal := by
  cases x with
  | none => exact fails_reject h
  | some a => exact fails_ok a

theorem Fails.isOfComparison {x : Lowered α} (h : x.Fails Failure.IsRefusal) :
    x.Fails Failure.IsOfComparison :=
  h.mono fun _ => Failure.IsRefusal.isOfComparison

end Lowered

open Lowered Failure

/-! ## Linear forms -/

theorem Operand.fails_ofInt (n : Int64) : (Operand.ofInt n).Fails IsRefusal :=
  (fails_require rfl _).bind fun _ => fails_pure _

theorem Term.fails_insert (t : Term) (ts : List Term) : (t.insert ts).Fails IsRefusal := by
  induction ts with
  | nil => exact fails_ok _
  | cons u rest ih =>
    rw [insert]
    split
    · exact (fails_require rfl _).bind fun _ => fails_pure _
    · exact ih.bind fun _ => fails_pure _

theorem Term.fails_scale (factor : Int64) (t : Term) : (t.scale factor).Fails IsRefusal :=
  (fails_require rfl _).bind fun _ => fails_pure _

theorem Term.fails_scaledRow (role : Role) (scale : Int64) {refusal : Cause}
    (hrefusal : refusal.isOfComparison = true) (t : Term) :
    (t.scaledRow role scale refusal).Fails IsRefusal := by
  unfold scaledRow
  cases t.modifier with
  | none =>
    rw [Option.elim_none]
    split
    · exact fails_ok _
    · exact (Operand.fails_ofInt _).bind fun _ => fails_pure _
  | some m =>
    rw [Option.elim_some]
    split
    · exact fails_ok _
    · exact fails_reject hrefusal

namespace LinearForm

theorem fails_addTerm (f : LinearForm) (t : Term) : (f.addTerm t).Fails IsRefusal :=
  (t.fails_insert _).bind fun _ => fails_pure _

theorem fails_plus (f g : LinearForm) : (f.plus g).Fails IsRefusal :=
  (fails_require rfl _).bind fun _ => .foldlM fails_addTerm _ _

theorem fails_scaled (f : LinearForm) (factor : Int64) : (f.scaled factor).Fails IsRefusal :=
  (fails_require rfl _).bind fun _ =>
    (Fails.mapM fun t _ => t.fails_scale factor).bind fun _ => fails_pure _

theorem fails_times (f g : LinearForm) : (f.times g).Fails IsRefusal := by
  unfold times
  split
  · exact fails_scaled _ _
  split
  · exact fails_scaled _ _
  split
  · exact fails_ok _
  · exact fails_reject rfl

/-- A quotient that does not leave the 64-bit range is refused if it fails. -/
theorem fails_dividedBy {f : LinearForm} {divisor : Int64} (h : f.overflowsBy divisor = false) :
    (f.dividedBy divisor).Fails IsRefusal := by
  unfold dividedBy
  split
  · exact fails_reject rfl
  split
  · exact fails_ok _
  rw [h]
  simp only [Bool.false_eq_true, if_false]
  split
  · exact fails_ok _
  split
  · split
    · exact (Operand.fails_ofInt _).bind fun _ => fails_pure _
    · exact fails_reject rfl
  · exact fails_reject rfl

theorem dividedBy_of_overflowsBy {f : LinearForm} {divisor : Int64}
    (h : f.overflowsBy divisor = true) : f.dividedBy divisor = .error .overflow := by
  have hdivisor : divisor = -1 := by
    obtain ⟨hdivisor, -⟩ := Bool.and_eq_true_iff.mp h
    exact eq_of_beq hdivisor
  unfold dividedBy
  rw [h, hdivisor]
  rfl

theorem fails_divided (f g : LinearForm) : (f.divided g).Fails IsOfComparison := by
  unfold divided
  split
  · by_cases h : f.overflowsBy g.constant = true
    · rw [dividedBy_of_overflowsBy h]
      rintro _ ⟨⟩
      trivial
    · exact (fails_dividedBy (eq_false_of_ne_true h)).isOfComparison
  split
  · exact fails_ok _
  · exact (fails_reject rfl).isOfComparison

theorem fails_maskedBy (f : LinearForm) (bits : Int64) :
    (f.maskedBy bits).Fails IsRefusal := by
  unfold maskedBy
  split
  · exact fails_ok _
  split
  · exact (Operand.fails_ofInt _).bind fun _ => fails_pure _
  · exact fails_reject rfl

theorem fails_masked (f g : LinearForm) : (f.masked g).Fails IsRefusal := by
  unfold masked
  split
  · exact fails_maskedBy _ _
  split
  · exact fails_maskedBy _ _
  split
  · exact fails_ok _
  · exact fails_reject rfl

theorem fails_cellAt (size : Size) (address : LinearForm) :
    (cellAt size address).Fails IsRefusal := by
  unfold cellAt
  split
  · exact (fails_require rfl _).bind fun _ => fails_pure _
  · split
    · exact fails_reject rfl
    split
    · exact fails_reject rfl
    · rw [pointerRow_eq_scaledRow]
      exact (Term.fails_scaledRow _ _ rfl _).bind fun _ =>
        (fails_require rfl _).bind fun _ => fails_pure _
  · exact fails_reject rfl

theorem fails_viewedAs (view : View) (f : LinearForm) :
    (f.viewedAs view).Fails IsRefusal := by
  unfold viewedAs
  split
  · split
    · exact fails_ok _
    · exact fails_reject rfl
  · exact fails_reject rfl

theorem fails_ofValue (resolve : String → Option Size) (v : Value) :
    (ofValue resolve v).Fails IsOfComparison := by
  induction v with
  | constant n => exact fails_ok _
  | read accessor address ih =>
    exact (fails_require rfl _).isOfComparison.bind fun _ => ih.bind fun _ =>
      ((fails_cellAt _ _).bind fun _ => fails_pure _).isOfComparison
  | viewed view value ih => exact ih.bind fun _ => (fails_viewedAs _ _).isOfComparison
  | add a b iha ihb => exact iha.bind fun _ => ihb.bind fun _ => (fails_plus _ _).isOfComparison
  | sub a b iha ihb =>
    exact iha.bind fun _ => ihb.bind fun _ =>
      ((fails_scaled _ _).bind fun _ => fails_plus _ _).isOfComparison
  | mul a b iha ihb => exact iha.bind fun _ => ihb.bind fun _ => (fails_times _ _).isOfComparison
  | div a b iha ihb => exact iha.bind fun _ => ihb.bind fun _ => fails_divided _ _
  | mask a b iha ihb => exact iha.bind fun _ => ihb.bind fun _ => (fails_masked _ _).isOfComparison

end LinearForm

/-! ## Comparisons -/

theorem Term.fails_accumulate (role : Role) (t : Term) :
    (t.accumulate role).Fails IsRefusal := by
  unfold accumulate
  rw [fedRow_eq_scaledRow]
  exact (fails_scaledRow _ _ rfl t).bind fun _ => fails_pure _

namespace Comparison

theorem fails_offsetRows (offset : Int) : (offsetRows offset).Fails IsRefusal := by
  unfold offsetRows
  split
  · exact (Operand.fails_ofInt _).bind fun _ => fails_pure _
  · exact fails_pure _

theorem fails_assemble (offset : Int) (terms : List Term) (relation : Relation) (right : Operand) :
    (assemble offset terms relation right).Fails IsRefusal := by
  refine (fails_offsetRows offset).bind fun _ => ?_
  split
  · exact (Fails.mapM fun t _ => t.fails_accumulate _).bind fun _ => fails_pure _
  · exact (Fails.mapM fun t _ => t.fails_accumulate _).bind fun _ => fails_pure _

theorem fails_ofTerm (t : Term) (relation : Relation) (bound : Int) :
    (ofTerm t relation bound).Fails IsRefusal := by
  unfold ofTerm
  split
  · exact fails_ok _
  split
  · exact fails_ok _
  refine (Operand.fails_ofInt _).bind fun _ => ?_
  split
  · exact fails_pure _
  · exact fails_pure _

theorem fails_ofScaledTerm (t : Term) (relation : Relation) (bound : Int) :
    (ofScaledTerm t relation bound).Fails IsRefusal := by
  unfold ofScaledTerm
  extract_lets negative scale relation bound
  split
  · split
    · exact fails_ofTerm _ _ _
    · exact fails_ok _
  · exact fails_ofTerm _ _ _

theorem fails_balanced? (sum other : List Term) (offset : Int) (relation : Relation) :
    (balanced? sum other offset relation).Fails IsRefusal := by
  unfold balanced?
  split
  · split
    · exact (fails_offsetRows _).bind fun _ =>
        (Fails.mapM fun t _ => t.fails_accumulate _).bind fun _ => fails_pure _
    · exact fails_pure _
  · exact fails_pure _

theorem fails_rearranged? (terms : List Term) (relation : Relation) (bound : Int) :
    (rearranged? terms relation bound).Fails IsRefusal := by
  unfold rearranged?
  dsimp only
  split
  · exact fails_balanced? _ _ _ _
  · exact fails_balanced? _ _ _ _

theorem fails_compensated (left right : LinearForm) (terms : List Term) (relation : Relation)
    (bound : Int) : (compensated left right terms relation bound).Fails IsRefusal := by
  unfold compensated
  generalize (if keepsOffset left right = true then _ else _ : Int × Int) = sides
  dsimp only
  split
  · exact fails_ok _
  split
  · exact fails_reject rfl
  · exact (Operand.fails_ofInt _).bind fun _ =>
      (fails_assemble _ _ _ _).bind fun _ => fails_pure _

theorem fails_equality (terms : List Term) (relation : Relation) (bound : Int) :
    (equality terms relation bound).Fails IsRefusal :=
  (Operand.fails_ofInt _).bind fun _ => (fails_assemble _ _ _ _).bind fun _ => fails_pure _

theorem fails_ordering (left right : LinearForm) (terms : List Term) (relation : Relation)
    (bound : Int) : (ordering left right terms relation bound).Fails IsRefusal := by
  unfold ordering
  extract_lets kept resume
  have hresume (rows : Option (List Row)) : (resume rows).Fails IsRefusal := by
    cases rows with
    | none => exact fails_compensated _ _ _ _ _
    | some rows => exact fails_pure _
  split
  · exact (fails_pure _).bind hresume
  · exact (fails_rearranged? _ _ _).bind hresume

theorem fails_ofForms (left : LinearForm) (relation : Relation) (right : LinearForm) :
    (ofForms left relation right).Fails IsRefusal := by
  refine (right.fails_scaled _).bind fun negated => (left.fails_plus negated).bind fun _ => ?_
  split
  · exact fails_reject rfl
  dsimp only
  split
  · exact fails_pure _
  · exact fails_pure _
  · exact fails_ofScaledTerm _ _ _
  · split
    · exact fails_equality _ _ _
    · exact fails_ordering _ _ _ _ _

theorem fails_ofValues (resolve : String → Option Size) (left : Value) (relation : Relation)
    (right : Value) : (ofValues resolve left relation right).Fails IsOfComparison :=
  (LinearForm.fails_ofValue resolve left).bind fun _ =>
    (LinearForm.fails_ofValue resolve right).bind fun _ => (fails_ofForms _ _ _).isOfComparison

theorem fails_toRows (options : CompileOptions) (c : Comparison) :
    (c.toRows options).Fails IsRefusal := by
  cases c with
  | rows rs => exact fails_ok _
  | constant truth =>
    rw [toRows]
    split
    · exact fails_ok _
    · cases truth <;> exact fails_reject rfl

end Comparison
end MemoryTrigger

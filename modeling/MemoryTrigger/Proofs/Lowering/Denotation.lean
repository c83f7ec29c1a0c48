import MemoryTrigger.Meaning.Quantity
import MemoryTrigger.Proofs.IntegerBits
import MemoryTrigger.Proofs.Lowering.FormValues
import MemoryTrigger.Proofs.ReadValues

/-! # Linear forms denote their expressions

The form of an expression stands for the quantity of the expression, whatever its arithmetic
(`LinearForm.quantity_ofValue`).  Each operation on forms is followed on its own.  Where one side is
a constant the operation is done on integers, and so are the rows that come out of it: a product is
scaled, a quotient is exact or a row of its own, which does not wrap.  Where both sides are reads a
row does the arithmetic.  That one side is a constant rules out that both are reads, since no read
gives the same in all memories.

For linear expressions this is their value over the integers (`LinearForm.valueAs_ofValue`).  Any form
of an expression is reduced as well (`LinearForm.IsReduced`): sums combine like terms and drop those
that cancel, and what divides a coefficient leaves something of it. -/
namespace MemoryTrigger

/-! ## Reads and constants -/

/-- Quotients and masks of words do not wrap. -/
theorem Arithmetic.toNat_apply {a : Arithmetic} (ha : a ≠ .mul) (x y : UInt32) :
    ((a.apply x y).toNat : Int) = a.applyInt x.toNat y.toNat := by
  cases a with
  | mul => exact absurd rfl ha
  | div =>
    rw [apply, applyInt, UInt32.toNat_div]
    exact Int.ofNat_tdiv x.toNat y.toNat
  | mask =>
    rw [apply, applyInt, UInt32.toNat_and]
    rfl

namespace Quantity
variable {p q : Quantity} {n : Int} {a : Arithmetic}

/-- A constant is no read: a read is zero in one memory and more in another one. -/
theorem not_isRead_of_forall_eq (h : ∀ m view?, q m view? = n) : ¬q.IsRead := by
  rintro ⟨size, kind, place, hread⟩
  have hzero : n = 0 := (h .zero none).symm.trans (hread .zero none).2
  obtain ⟨hmemory, hfull⟩ := hread .full none
  have hlargest : (Memory.fullRead ⟨kind none, size, place .full⟩).toNat ≠ 0 := by
    rw [Memory.fullRead_of_isMemory hmemory]
    exact Nat.ne_of_gt (Operand.maxValue_pos hmemory)
  rw [h, hzero] at hfull
  exact hlargest (Int.ofNat_eq_zero.mp hfull.symm)

theorem combine_of_isRead (hp : p.IsRead) (hq : q.IsRead) (m : Memory) (view? : Option View) :
    combine a p q m view? =
      (a.apply (UInt32.ofInt (p m view?)) (UInt32.ofInt (q m view?))).toNat :=
  if_pos ⟨hp, hq⟩

theorem combine_of_left_eq (h : ∀ m view?, p m view? = n) (m : Memory) (view? : Option View) :
    combine a p q m view? = a.applyInt n (q m view?) := by
  rw [combine, if_neg fun hreads => not_isRead_of_forall_eq h hreads.1, h]

theorem combine_of_right_eq (h : ∀ m view?, q m view? = n) (m : Memory) (view? : Option View) :
    combine a p q m view? = a.applyInt (p m view?) n := by
  rw [combine, if_neg fun hreads => not_isRead_of_forall_eq h hreads.2, h]

/-- Arithmetic on constants gives a constant. -/
theorem exists_combine_eq (a : Arithmetic) (hp : ∃ i, ∀ m view?, p m view? = i)
    (hq : ∃ j, ∀ m view?, q m view? = j) : ∃ n, ∀ m view?, combine a p q m view? = n := by
  obtain ⟨i, hi⟩ := hp
  obtain ⟨j, hj⟩ := hq
  exact ⟨a.applyInt i j, fun m view? => by rw [combine_of_left_eq hi, hj]⟩

end Quantity

/-! ## Quotients of 64-bit integers -/

namespace Checked
variable {n divisor : Int64}

theorem toInt_div (h : ¬(n = Int64.minValue ∧ divisor = -1)) :
    (n / divisor).toInt = n.toInt.tdiv divisor.toInt := by
  by_cases hn : n = Int64.minValue
  · exact Int64.toInt_div_of_ne_right n divisor fun hdivisor => h ⟨hn, hdivisor⟩
  · exact Int64.toInt_div_of_ne_left n divisor hn

theorem mul_toInt_div (h : ¬(n = Int64.minValue ∧ divisor = -1)) (hexact : n % divisor = 0) :
    divisor.toInt * (n / divisor).toInt = n.toInt := by
  have hrest : n.toInt.tmod divisor.toInt = 0 := by rw [← Int64.toInt_mod, hexact]; rfl
  rw [toInt_div h]
  exact Int.mul_tdiv_cancel' (Int.dvd_of_tmod_eq_zero hrest)

end Checked

namespace Term
variable {divisor : Int64}

/-- The term with its coefficient divided. -/
def dividedBy (divisor : Int64) (t : Term) : Term :=
  { t with coefficient := t.coefficient / divisor }

/-- Terms that are divided through add up to their share. -/
theorem mul_total_dividedBy (m : Memory) (view? : Option View) {ts : List Term}
    (h : ∀ t ∈ ts, divisor.toInt * (t.coefficient / divisor).toInt = t.coefficient.toInt) :
    divisor.toInt * total (valueAs m view?) (ts.map (dividedBy divisor)) =
      total (valueAs m view?) ts := by
  induction ts with
  | nil => simp
  | cons t ts ih =>
    obtain ⟨ht, hts⟩ := List.forall_mem_cons.mp h
    have hterm : divisor.toInt * (t.dividedBy divisor).valueAs m view? = t.valueAs m view? := by
      rw [valueAs, valueAs, ← ht, Int.mul_assoc]
      rfl
    rw [List.map_cons, total_cons, total_cons, Int.mul_add, hterm, ih hts]

end Term

/-! ## Operations on forms -/

namespace LinearForm
variable {f g k : LinearForm} {divisor bits : Int64}

/-- The quantity that a form stands for. -/
def quantity (f : LinearForm) : Quantity := fun m view? => f.valueAs m view?

theorem quantity_of_isConstant (h : f.isConstant = true) (m : Memory) (view? : Option View) :
    f.quantity m view? = f.constant.toInt :=
  valueAs_of_isConstant m view? h

/-- One read is a read, wherever its pointer leads. -/
theorem isRead_ofCell {cell : Cell} (h : cell.IsSound) : (ofCell cell).quantity.IsRead := by
  refine ⟨cell.operand.size, fun view? => (cell.operand.seenAs view?).kind,
    fun m => cell.operand.value + cell.baseIn m, fun m view? => ?_⟩
  have hmemory := h.operand
  obtain ⟨pointer, ⟨kind, size, value⟩⟩ := cell
  rw [quantity, valueAs_ofCell]
  -- only a read of the current frame changes its kind with the view
  cases kind with
  | unused => cases hmemory
  | literal => cases hmemory
  | current => rcases view? with _ | _ | _ | _ <;> exact ⟨rfl, rfl⟩
  | _ => exact ⟨rfl, rfl⟩

theorem valueAs_ofModified (cell : Cell) (a : Arithmetic) (right : Operand) (m : Memory)
    (view? : Option View) : (ofModified cell a right).valueAs m view? =
      (a.apply (cell.readAs m view?) ((right.seenAs view?).valueIn m (cell.baseIn m))).toNat := by
  have hone : (1 : Int64).toInt = 1 := rfl
  have hzero : (0 : Int64).toInt = 0 := rfl
  simp [ofModified, valueAs, Term.valueAs, Term.factorAs, hone, hzero]

/-- **Two reads meet in one row.** -/
theorem quantity_ofModified_cells (hf : f.IsSound) (hg : g.IsSound) {c d : Cell}
    (h : f.cells? g = some (c, d)) (a : Arithmetic) :
    (ofModified c a d.operand).quantity = .combine a f.quantity g.quantity := by
  obtain ⟨hc, hd⟩ := isSound_cells? hf hg h
  obtain ⟨rfl, rfl, hpointer⟩ := eq_ofCell_of_cells? h
  funext m view?
  have hbase : c.baseIn m = d.baseIn m := by rw [Cell.baseIn, Cell.baseIn, hpointer]
  rw [Quantity.combine_of_isRead (isRead_ofCell hc) (isRead_ofCell hd)]
  simp only [quantity, valueAs_ofCell, Word.ofInt_toNat, valueAs_ofModified, hbase, Cell.readAs]

/-- A read that a literal divides or masks. -/
theorem valueAs_ofModified_literal {cell : Cell} {a : Arithmetic} (ha : a ≠ .mul) {right : Operand}
    {n : Int64} (hright : Operand.ofInt n = .ok right) (m : Memory) (view? : Option View) :
    (ofModified cell a right).valueAs m view? =
      a.applyInt ((ofCell cell).valueAs m view?) n.toInt := by
  obtain ⟨w, rfl, hw⟩ := Operand.eq_literal_of_ofInt hright
  rw [valueAs_ofModified, Arithmetic.toNat_apply ha, valueAs_ofCell, ← hw]
  rfl

theorem quantity_times (hf : f.IsSound) (hg : g.IsSound) (h : f.times g = .ok k) :
    k.quantity = .combine .mul f.quantity g.quantity := by
  unfold times at h
  split at h
  · rename_i hconstant
    funext m view?
    rw [Quantity.combine_of_right_eq (quantity_of_isConstant hconstant)]
    exact (valueAs_scaled m view? h).trans (Int.mul_comm _ _)
  split at h
  · rename_i hconstant
    funext m view?
    rw [Quantity.combine_of_left_eq (quantity_of_isConstant hconstant)]
    exact valueAs_scaled m view? h
  split at h
  · rename_i c d hcells
    cases h
    exact quantity_ofModified_cells hf hg hcells .mul
  · simp at h

/-! ### Quotients -/

/-- The quotients by a divisor that divides a form and does not overflow. -/
theorem mul_toInt_div_of_isDivisibleBy (hfits : f.overflowsBy divisor = false)
    (h : f.isDivisibleBy divisor = true) :
    divisor.toInt * (f.constant / divisor).toInt = f.constant.toInt ∧ ∀ t ∈ f.terms,
      divisor.toInt * (t.coefficient / divisor).toInt = t.coefficient.toInt := by
  simp only [overflowsBy, Bool.and_eq_false_iff, Bool.or_eq_false_iff, beq_eq_false_iff_ne,
    List.any_eq_false, beq_iff_eq] at hfits
  simp only [isDivisibleBy, Bool.and_eq_true, beq_iff_eq, List.all_eq_true] at h
  constructor
  · exact Checked.mul_toInt_div (fun hmin => hfits.elim (· hmin.2) (·.1 hmin.1)) h.1
  · intro t ht
    exact Checked.mul_toInt_div (fun hmin => hfits.elim (· hmin.2) (·.2 t ht hmin.1)) (h.2 t ht)

/-- The form whose constant and coefficients are divided. -/
def quotient (f : LinearForm) (divisor : Int64) : LinearForm where
  terms := f.terms.map (Term.dividedBy divisor)
  constant := f.constant / divisor

/-- What a quotient by a constant can be: the form itself, a constant, a form that is divided through,
or a read with a row of its own. -/
theorem dividedBy_cases (h : f.dividedBy divisor = .ok k) :
    divisor = 1 ∧ k = f ∨
      f.overflowsBy divisor = false ∧ f.isConstant = true ∧ k = f.quotient divisor ∨
      f.overflowsBy divisor = false ∧ f.isDivisibleBy divisor = true ∧ divisor ≠ 0 ∧
        k = f.quotient divisor ∨
      ∃ cell right, f.cell? = some cell ∧ Operand.ofInt divisor = .ok right ∧
        k = ofModified cell .div right := by
  unfold dividedBy at h
  split at h
  · simp at h
  rename_i hzero
  split at h
  · rename_i hone
    cases h
    exact .inl ⟨hone, rfl⟩
  split at h
  · cases h
  rename_i hfits
  rw [Bool.not_eq_true] at hfits
  split at h
  · rename_i hexact
    cases h
    rcases Bool.or_eq_true_iff.mp hexact with hconstant | hdivisible
    · exact .inr (.inl ⟨hfits, hconstant, rfl⟩)
    · exact .inr (.inr (.inl ⟨hfits, hdivisible, hzero, rfl⟩))
  split at h
  · rename_i cell hcell
    split at h
    · simp only [Lowered.bind_eq_ok, Lowered.pure_eq_ok] at h
      obtain ⟨right, hright, rfl⟩ := h
      exact .inr (.inr (.inr ⟨cell, right, hcell, hright, rfl⟩))
    · simp at h
  · simp at h

/-- A form that is divided through is the divisor times its quotient. -/
theorem mul_valueAs_quotient (hfits : f.overflowsBy divisor = false)
    (h : f.isDivisibleBy divisor = true) (m : Memory) (view? : Option View) :
    divisor.toInt * (f.quotient divisor).valueAs m view? = f.valueAs m view? := by
  obtain ⟨hconstant, hterms⟩ := mul_toInt_div_of_isDivisibleBy hfits h
  rw [valueAs, valueAs, Int.mul_add, quotient, Term.mul_total_dividedBy m view? hterms, hconstant]

theorem valueAs_dividedBy (h : f.dividedBy divisor = .ok k) (m : Memory) (view? : Option View) :
    k.valueAs m view? = (f.valueAs m view?).tdiv divisor.toInt := by
  rcases dividedBy_cases h with ⟨rfl, rfl⟩ | ⟨hfits, hconstant, rfl⟩ |
    ⟨hfits, hdivisible, hzero, rfl⟩ | ⟨cell, right, hcell, hright, rfl⟩
  · exact (Int.tdiv_one _).symm
  · have hfits : ¬(f.constant = Int64.minValue ∧ divisor = -1) := by
      rintro ⟨hmin, rfl⟩
      simp [overflowsBy, hmin] at hfits
    have hquotient : (f.quotient divisor).isConstant = true := by
      simpa [quotient, isConstant] using hconstant
    rw [valueAs_of_isConstant m view? hquotient, valueAs_of_isConstant m view? hconstant]
    exact Checked.toInt_div hfits
  · have hzero : divisor.toInt ≠ 0 := fun heq => hzero (Int64.toInt_inj.mp heq)
    rw [← mul_valueAs_quotient hfits hdivisible, Int.mul_tdiv_cancel_left _ hzero]
  · rw [eq_ofCell_of_cell? hcell]
    exact valueAs_ofModified_literal (by decide) hright m view?

theorem quantity_divided (hf : f.IsSound) (hg : g.IsSound) (h : f.divided g = .ok k) :
    k.quantity = .combine .div f.quantity g.quantity := by
  unfold divided at h
  split at h
  · rename_i hconstant
    funext m view?
    rw [Quantity.combine_of_right_eq (quantity_of_isConstant hconstant)]
    exact valueAs_dividedBy h m view?
  split at h
  · rename_i c d hcells
    cases h
    exact quantity_ofModified_cells hf hg hcells .div
  · simp at h

/-! ### Masks -/

theorem valueAs_maskedBy (h : f.maskedBy bits = .ok k) (m : Memory) (view? : Option View) :
    k.valueAs m view? = (f.valueAs m view?).land bits.toInt := by
  unfold maskedBy at h
  split at h
  · rename_i hconstant
    cases h
    rw [valueAs_of_isConstant m view? hconstant, ← IntegerBits.toInt_and]
    exact valueAs_of_isConstant m view? rfl
  split at h
  · rename_i cell hcell
    simp only [Lowered.bind_eq_ok, Lowered.pure_eq_ok] at h
    obtain ⟨right, hright, rfl⟩ := h
    rw [eq_ofCell_of_cell? hcell]
    exact valueAs_ofModified_literal (by decide) hright m view?
  · simp at h

theorem quantity_masked (hf : f.IsSound) (hg : g.IsSound) (h : f.masked g = .ok k) :
    k.quantity = .combine .mask f.quantity g.quantity := by
  unfold masked at h
  split at h
  · rename_i hconstant
    funext m view?
    rw [Quantity.combine_of_right_eq (quantity_of_isConstant hconstant)]
    exact valueAs_maskedBy h m view?
  split at h
  · rename_i hconstant
    funext m view?
    rw [Quantity.combine_of_left_eq (quantity_of_isConstant hconstant)]
    exact (valueAs_maskedBy h m view?).trans (IntegerBits.land_comm _ _)
  split at h
  · rename_i c d hcells
    cases h
    exact quantity_ofModified_cells hf hg hcells .mask
  · simp at h

/-! ## Expressions -/

/-- **The form of an expression stands for its quantity.** -/
theorem quantity_ofValue {resolve : String → Option Size} {v : Value} {f : LinearForm}
    (h : ofValue resolve v = .ok f) : f.quantity = v.quantity resolve := by
  induction v generalizing f with
  | constant n =>
    cases h
    funext m view?
    exact valueAs_of_isConstant m view? rfl
  | read accessor address ih =>
    simp only [ofValue, Lowered.bind_eq_ok, Lowered.pure_eq_ok, Lowered.require_eq_ok] at h
    obtain ⟨size, hsize, form, hform, cell, hcell, rfl⟩ := h
    funext m view?
    -- the address is followed without a view, whatever the view of the read is
    rw [Value.quantity, hsize, ← ih hform, quantity, valueAs_ofCell, readAs_cellAt m view? hcell]
    rfl
  | viewed view value ih =>
    simp only [ofValue, Lowered.bind_eq_ok] at h
    obtain ⟨form, hform, h⟩ := h
    funext m view?
    rw [Value.quantity, ← ih hform]
    exact valueAs_viewedAs m view? h
  | add a b iha ihb =>
    simp only [ofValue, Lowered.bind_eq_ok] at h
    obtain ⟨f', hf, g, hg, h⟩ := h
    funext m view?
    rw [Value.quantity, ← iha hf, ← ihb hg]
    exact valueAs_plus m view? h
  | sub a b iha ihb =>
    simp only [ofValue, Lowered.bind_eq_ok] at h
    obtain ⟨f', hf, g, hg, negated, hnegated, h⟩ := h
    have hminus : f'.minus g = .ok f := Lowered.bind_eq_ok.mpr ⟨negated, hnegated, h⟩
    funext m view?
    rw [Value.quantity, ← iha hf, ← ihb hg]
    exact valueAs_minus m view? hminus
  | mul a b iha ihb =>
    simp only [ofValue, Lowered.bind_eq_ok] at h
    obtain ⟨f', hf, g, hg, h⟩ := h
    rw [Value.quantity, ← iha hf, ← ihb hg]
    exact quantity_times (isSound_ofValue hf) (isSound_ofValue hg) h
  | div a b iha ihb =>
    simp only [ofValue, Lowered.bind_eq_ok] at h
    obtain ⟨f', hf, g, hg, h⟩ := h
    rw [Value.quantity, ← iha hf, ← ihb hg]
    exact quantity_divided (isSound_ofValue hf) (isSound_ofValue hg) h
  | mask a b iha ihb =>
    simp only [ofValue, Lowered.bind_eq_ok] at h
    obtain ⟨f', hf, g, hg, h⟩ := h
    rw [Value.quantity, ← iha hf, ← ihb hg]
    exact quantity_masked (isSound_ofValue hf) (isSound_ofValue hg) h

end LinearForm

/-! ### Linear expressions -/

namespace Value
variable (resolve : String → Option Size)

/-- An expression that reads no memory gives the same everywhere. -/
theorem exists_quantity_eq {v : Value} (h : v.isConstant = true) :
    ∃ n, ∀ m view?, v.quantity resolve m view? = n := by
  induction v with
  | constant n => exact ⟨n.toInt, fun _ _ => rfl⟩
  | read => cases h
  | viewed view v ih =>
    obtain ⟨n, hn⟩ := ih h
    exact ⟨n, fun m _ => hn m (some view)⟩
  | add a b iha ihb =>
    obtain ⟨ha, hb⟩ := Bool.and_eq_true_iff.mp h
    obtain ⟨i, hi⟩ := iha ha
    obtain ⟨j, hj⟩ := ihb hb
    exact ⟨i + j, fun m view? => by simp only [quantity, hi, hj]⟩
  | sub a b iha ihb =>
    obtain ⟨ha, hb⟩ := Bool.and_eq_true_iff.mp h
    obtain ⟨i, hi⟩ := iha ha
    obtain ⟨j, hj⟩ := ihb hb
    exact ⟨i - j, fun m view? => by simp only [quantity, hi, hj]⟩
  | mul a b iha ihb | div a b iha ihb | mask a b iha ihb =>
    obtain ⟨ha, hb⟩ := Bool.and_eq_true_iff.mp h
    exact Quantity.exists_combine_eq _ (iha ha) (ihb hb)

/-- Where products are by constants, the quantity is the value over the integers. -/
theorem quantity_of_isLinear {v : Value} (h : v.isLinear = true) (m : Memory)
    (view? : Option View) : v.quantity resolve m view? = v.valueAs resolve m view? := by
  induction v generalizing view? with
  | constant n => rfl
  | read accessor address ih =>
    simp only [quantity, valueAs, ih h]
    cases resolve accessor <;> rfl
  | viewed view v ih => exact ih h (some view)
  | add a b iha ihb =>
    obtain ⟨ha, hb⟩ := Bool.and_eq_true_iff.mp h
    simp only [quantity, valueAs, iha ha, ihb hb]
  | sub a b iha ihb =>
    obtain ⟨ha, hb⟩ := Bool.and_eq_true_iff.mp h
    simp only [quantity, valueAs, iha ha, ihb hb]
  | mul a b iha ihb =>
    simp only [isLinear, Bool.and_eq_true, Bool.or_eq_true] at h
    obtain ⟨⟨ha, hb⟩, hconstant⟩ := h
    rw [valueAs, ← iha ha, ← ihb hb, quantity]
    rcases hconstant with hconstant | hconstant
    · obtain ⟨n, hn⟩ := exists_quantity_eq resolve hconstant
      rw [Quantity.combine_of_left_eq hn, hn]
      rfl
    · obtain ⟨n, hn⟩ := exists_quantity_eq resolve hconstant
      rw [Quantity.combine_of_right_eq hn, hn]
      rfl
  | div a b => cases h
  | mask a b => cases h

end Value

/-- **The form of a linear expression has the value of the expression**, under every view. -/
theorem LinearForm.valueAs_ofValue (m : Memory) {resolve : String → Option Size} {v : Value}
    {f : LinearForm} (hlinear : v.isLinear = true) (h : ofValue resolve v = .ok f)
    (view? : Option View) : f.valueAs m view? = v.valueAs resolve m view? := by
  rw [← Value.quantity_of_isLinear resolve hlinear, ← quantity_ofValue h]
  rfl

/-! ## Reduced forms -/

namespace Term

/-- What a term multiplies its coefficient with. -/
def factor (t : Term) : Cell × Option Modifier := (t.cell, t.modifier)

theorem like_iff {t u : Term} : t.like u = true ↔ t.factor = u.factor := by
  simp [like, factor]

/-- A term joins the one with its factor, or is new. -/
theorem map_factor_insert {t : Term} {ts us : List Term} (h : t.insert ts = .ok us) :
    us.map factor = ts.map factor ∨
      t.factor ∉ ts.map factor ∧ us.map factor = ts.map factor ++ [t.factor] := by
  induction ts generalizing us with
  | nil =>
    cases h
    exact .inr ⟨List.not_mem_nil, rfl⟩
  | cons u rest ih =>
    rw [insert] at h
    split at h
    · simp only [Lowered.bind_eq_ok, Lowered.pure_eq_ok] at h
      obtain ⟨sum, -, rfl⟩ := h
      exact .inl rfl
    · rename_i hunlike
      simp only [Lowered.bind_eq_ok, Lowered.pure_eq_ok] at h
      obtain ⟨more, hmore, rfl⟩ := h
      rw [like_iff] at hunlike
      rw [List.map_cons, List.map_cons]
      rcases ih hmore with hsame | ⟨hnew, hadded⟩
      · exact .inl (by rw [hsame])
      · refine .inr ⟨?_, by rw [hadded, List.cons_append]⟩
        rw [List.mem_cons]
        exact fun h => h.elim (fun h => hunlike h.symm) hnew

theorem nodup_insert {t : Term} {ts us : List Term} (hts : (ts.map factor).Nodup)
    (h : t.insert ts = .ok us) : (us.map factor).Nodup := by
  rcases map_factor_insert h with hsame | ⟨hnew, hadded⟩
  · rwa [hsame]
  · rw [hadded, List.nodup_append]
    refine ⟨hts, List.pairwise_singleton _ _, ?_⟩
    intro x hx y hy heq
    rw [List.mem_singleton.mp hy] at heq
    exact hnew (heq ▸ hx)

theorem map_factor_scale {k : Int64} {ts us : List Term} (h : ts.mapM (scale k) = .ok us) :
    us.map factor = ts.map factor := by
  induction Lowered.mapM_eq_ok.mp h with
  | nil => rfl
  | cons hscale hrest ih =>
    simp only [scale, Lowered.bind_eq_ok, Lowered.pure_eq_ok] at hscale
    obtain ⟨product, -, rfl⟩ := hscale
    rw [List.map_cons, List.map_cons, ih (Lowered.mapM_eq_ok.mpr hrest)]
    rfl

end Term

namespace LinearForm
variable {f g k : LinearForm} {divisor bits : Int64}

/-- Like terms have been combined, and terms that cancel dropped. -/
structure IsReduced (f : LinearForm) : Prop where
  nonzero : ∀ t ∈ f.terms, t.coefficient ≠ 0
  nodup : (f.terms.map Term.factor).Nodup

theorem isReduced_nonzero {ts : List Term} (h : (ts.map Term.factor).Nodup) (n : Int64) :
    IsReduced { terms := Term.nonzero ts, constant := n } where
  nonzero t ht := by simpa using (List.mem_filter.mp ht).2
  nodup := h.sublist (List.filter_sublist.map Term.factor)

theorem isReduced_singleton (cell : Cell) (modifier : Option Modifier) :
    IsReduced { terms := [{ cell, modifier }] } where
  nonzero t ht := by
    obtain rfl := List.mem_singleton.mp ht
    exact (by decide : (1 : Int64) ≠ 0)
  nodup := List.pairwise_singleton _ _

theorem isReduced_plus {f g k : LinearForm} (hf : f.IsReduced) (h : f.plus g = .ok k) :
    k.IsReduced := by
  simp only [plus, Lowered.bind_eq_ok] at h
  obtain ⟨constant, -, h⟩ := h
  refine Lowered.of_foldlM h ⟨hf.nonzero, hf.nodup⟩ fun t _ f' k' hf' hk' => ?_
  simp only [addTerm, Lowered.bind_eq_ok, Lowered.pure_eq_ok] at hk'
  obtain ⟨terms, hterms, rfl⟩ := hk'
  exact isReduced_nonzero (Term.nodup_insert hf'.nodup hterms) _

theorem isReduced_scaled {f g : LinearForm} (hf : f.IsReduced) {k : Int64}
    (h : f.scaled k = .ok g) : g.IsReduced := by
  simp only [scaled, Lowered.bind_eq_ok, Lowered.pure_eq_ok] at h
  obtain ⟨constant, -, terms, hterms, rfl⟩ := h
  exact isReduced_nonzero (Term.map_factor_scale hterms ▸ hf.nodup) constant

theorem isReduced_dividedBy (hf : f.IsReduced) (h : f.dividedBy divisor = .ok k) :
    k.IsReduced := by
  have hfactors : (f.quotient divisor).terms.map Term.factor = f.terms.map Term.factor := by
    rw [quotient, List.map_map]
    rfl
  rcases dividedBy_cases h with ⟨-, rfl⟩ | ⟨-, hconstant, rfl⟩ | ⟨hfits, hdivisible, -, rfl⟩ |
    ⟨cell, right, -, -, rfl⟩
  · exact hf
  · refine ⟨?_, hfactors ▸ hf.nodup⟩
    simp [quotient, List.isEmpty_iff.mp hconstant]
  · refine ⟨?_, hfactors ▸ hf.nodup⟩
    intro u hu hzero
    obtain ⟨t, ht, rfl⟩ := List.mem_map.mp hu
    have hproduct := (mul_toInt_div_of_isDivisibleBy hfits hdivisible).2 t ht
    have hquotient : t.coefficient / divisor = 0 := hzero
    rw [hquotient] at hproduct
    exact hf.nonzero t ht (Int64.toInt_inj.mp (hproduct.symm.trans (Int.mul_zero _)))
  · exact isReduced_singleton cell _

theorem isReduced_constant (n : Int64) : IsReduced { constant := n } :=
  ⟨List.forall_mem_nil _, List.nodup_nil⟩

theorem isReduced_maskedBy (h : f.maskedBy bits = .ok k) : k.IsReduced := by
  unfold maskedBy at h
  split at h
  · cases h
    exact isReduced_constant _
  split at h
  · simp only [Lowered.bind_eq_ok, Lowered.pure_eq_ok] at h
    obtain ⟨right, -, rfl⟩ := h
    exact isReduced_singleton _ _
  · simp at h

theorem isReduced_times (hf : f.IsReduced) (hg : g.IsReduced) (h : f.times g = .ok k) :
    k.IsReduced := by
  unfold times at h
  split at h
  · exact isReduced_scaled hf h
  split at h
  · exact isReduced_scaled hg h
  split at h
  · cases h
    exact isReduced_singleton _ _
  · simp at h

theorem isReduced_divided (hf : f.IsReduced) (h : f.divided g = .ok k) : k.IsReduced := by
  unfold divided at h
  split at h
  · exact isReduced_dividedBy hf h
  split at h
  · cases h
    exact isReduced_singleton _ _
  · simp at h

theorem isReduced_masked (h : f.masked g = .ok k) : k.IsReduced := by
  unfold masked at h
  split at h
  · exact isReduced_maskedBy h
  split at h
  · exact isReduced_maskedBy h
  split at h
  · cases h
    exact isReduced_singleton _ _
  · simp at h

theorem isReduced_viewedAs {view : View} (h : f.viewedAs view = .ok k) : k.IsReduced := by
  unfold viewedAs at h
  split at h
  · split at h
    · cases h
      exact isReduced_singleton _ none
    · simp at h
  · simp at h

/-- The form of an expression is reduced. -/
theorem isReduced_ofValue {resolve : String → Option Size} {v : Value} {f : LinearForm}
    (h : ofValue resolve v = .ok f) : f.IsReduced := by
  induction v generalizing f with
  | constant n =>
    cases h
    exact isReduced_constant n
  | read accessor address =>
    simp only [ofValue, Lowered.bind_eq_ok, Lowered.pure_eq_ok] at h
    obtain ⟨size, -, form, -, cell, -, rfl⟩ := h
    exact isReduced_singleton cell none
  | viewed view value =>
    simp only [ofValue, Lowered.bind_eq_ok] at h
    obtain ⟨form, -, h⟩ := h
    exact isReduced_viewedAs h
  | add a b iha ihb =>
    simp only [ofValue, Lowered.bind_eq_ok] at h
    obtain ⟨f', hf, g, hg, h⟩ := h
    exact isReduced_plus (iha hf) h
  | sub a b iha ihb =>
    simp only [ofValue, Lowered.bind_eq_ok] at h
    obtain ⟨f', hf, g, hg, negated, hnegated, h⟩ := h
    exact isReduced_plus (iha hf) h
  | mul a b iha ihb =>
    simp only [ofValue, Lowered.bind_eq_ok] at h
    obtain ⟨f', hf, g, hg, h⟩ := h
    exact isReduced_times (iha hf) (ihb hg) h
  | div a b iha ihb =>
    simp only [ofValue, Lowered.bind_eq_ok] at h
    obtain ⟨f', hf, g, hg, h⟩ := h
    exact isReduced_divided (iha hf) h
  | mask a b iha ihb =>
    simp only [ofValue, Lowered.bind_eq_ok] at h
    obtain ⟨f', hf, g, hg, h⟩ := h
    exact isReduced_masked h

/-! ## What a form says about its expression -/

/-- **A form denotes its expression**: in every memory, its terms and its constant add up to the value
of the expression, and no two of its terms could be combined or left out. -/
theorem denotes_ofValue {resolve : String → Option Size} {v : Value} {f : LinearForm}
    (h : ofValue resolve v = .ok f) :
    (∀ m view?, f.valueAs m view? = v.quantity resolve m view?) ∧ f.IsReduced :=
  ⟨fun m view? => congrFun (congrFun (quantity_ofValue h) m) view?, isReduced_ofValue h⟩

/-- Three times a product behind a pointer, a form that is divided through, a quotient and a mask by
literals, and a read that cancels. -/
def mixedArithmetic : Value :=
  let pointer := .read "dword" (.constant 0x10)
  let product := .mul (.read "dword" (.add pointer (.constant 4)))
    (.read "dword" (.add pointer (.constant 8)))
  let halved := .div (.sub (.mul (.constant 6) (.read "byte" (.constant 1))) (.constant 4))
    (.constant 2)
  let third := .div (.read "byte" (.constant 2)) (.constant 3)
  let low := .mask (.constant 15) (.read "byte" (.constant 4))
  .add (.sub (.add (.sub (.add (.mul (.constant 3) product) halved) third) low)
    (.read "byte" (.constant 5))) (.read "byte" (.constant 5))

theorem denotes_ofValue_mixedArithmetic :
    ∃ f, ofValue Size.ofAccessor? mixedArithmetic = .ok f ∧
      f.terms.map Term.coefficient = [3, 3, -1, 1] ∧ f.constant = -2 ∧
      f.valueAs .full none = 3 * 1 + 3 * 255 - 85 + 15 - 2 ∧
      (∀ m view?, f.valueAs m view? = mixedArithmetic.quantity Size.ofAccessor? m view?) ∧
      f.IsReduced := by
  let byte (place : UInt32) : Cell := ⟨[], .memory .byte place⟩
  let f : LinearForm := ⟨[
    { cell := ⟨[.modifier .addAddress (.memory .dword 0x10)], .memory .dword 4⟩
      modifier := some ⟨.mul, .memory .dword 8⟩
      coefficient := 3 },
    { cell := byte 1, coefficient := 3 },
    { cell := byte 2, modifier := some ⟨.div, .literal 3⟩, coefficient := -1 },
    { cell := byte 4, modifier := some ⟨.mask, .literal 15⟩ }], -2⟩
  have hform : ofValue Size.ofAccessor? mixedArithmetic = .ok f := by decide +kernel
  exact ⟨f, hform, rfl, rfl, by decide +kernel, denotes_ofValue hform⟩

end LinearForm
end MemoryTrigger

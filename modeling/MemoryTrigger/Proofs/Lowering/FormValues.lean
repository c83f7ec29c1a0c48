import MemoryTrigger.Meaning.IntegerValue
import MemoryTrigger.Proofs.Lowering.LinearForms
import MemoryTrigger.Proofs.RowMeaning

/-! # The value of a linear form

A linear form stands for an integer in every memory: the sum of its terms, each a coefficient times
what its rows read, and a constant.  Sums, differences and multiples of forms have the values that
their names say, and the read at an address lies where the value of the address leads, modulo
`2 ^ 32` (`LinearForm.readAs_cellAt`).

Views need the statements to be about more than one integer.  The form of `prev(v)` is the form of `v`
with its read changed, so what is followed through an expression is its value under every view. -/
namespace MemoryTrigger

/-! ## Numbers in range -/

theorem Lowered.require_eq_ok {α : Type} {x : Option α} {cause : Cause} {a : α} :
    require x cause = .ok a ↔ x = some a := by
  cases x <;> simp [require, reject]

namespace Checked

theorem toInt_of_ofInt? {n : Int} {k : Int64} (h : ofInt? n = some k) : k.toInt = n := by
  unfold ofInt? at h
  split at h
  · rename_i hrange
    cases h
    rw [Int64.toInt_minValue, Int64.toInt_maxValue] at hrange
    exact Int64.toInt_ofInt_of_le hrange.1 (by omega)
  · cases h

theorem toInt_of_add? {a b c : Int64} (h : add? a b = some c) : c.toInt = a.toInt + b.toInt :=
  toInt_of_ofInt? h

theorem toInt_of_mul? {a b c : Int64} (h : mul? a b = some c) : c.toInt = a.toInt * b.toInt :=
  toInt_of_ofInt? h

theorem toNat_of_word? {n : Int} {w : UInt32} (h : word? n = some w) : (w.toNat : Int) = n := by
  unfold word? at h
  split at h
  · rename_i hrange
    cases h
    have hlt : n.toNat < UInt32.size := by omega
    rw [UInt32.toNat_ofNat', Nat.mod_eq_of_lt hlt]
    omega
  · cases h

end Checked

theorem Operand.eq_literal_of_ofInt {n : Int64} {o : Operand} (h : Operand.ofInt n = .ok o) :
    ∃ w : UInt32, o = .literal w ∧ (w.toNat : Int) = n.toInt := by
  simp only [Operand.ofInt, Lowered.bind_eq_ok, Lowered.pure_eq_ok, Lowered.require_eq_ok] at h
  obtain ⟨w, hw, rfl⟩ := h
  exact ⟨w, rfl, Checked.toNat_of_word? hw⟩

namespace Word

theorem toNat_ofInt (n : Int) : ((UInt32.ofInt n).toNat : Int) = n % UInt32.size := by
  have hnonneg := Int.emod_nonneg n (show (UInt32.size : Int) ≠ 0 by decide)
  have hlt : (n % UInt32.size).toNat < UInt32.size := by
    have := Int.emod_lt_of_pos n (show (0 : Int) < UInt32.size by decide)
    omega
  change ((UInt32.ofNat (n % UInt32.size).toNat).toNat : Int) = _
  rw [UInt32.toNat_ofNat', Nat.mod_eq_of_lt hlt]
  omega

theorem toNat_ofInt_of_lt {n : Int} (h0 : 0 ≤ n) (h : n < UInt32.size) :
    ((UInt32.ofInt n).toNat : Int) = n := by
  rw [toNat_ofInt, Int.emod_eq_of_lt h0 h]

theorem ofInt_toNat (w : UInt32) : UInt32.ofInt w.toNat = w := by
  apply UInt32.toNat_inj.mp
  have hlt := w.toNat_lt_size
  have := toNat_ofInt_of_lt (n := w.toNat) (by omega) (by omega)
  omega

end Word

/-! ## The value of a term -/

/-- The operand with a read of the current frame under a view. -/
def Operand.seenAs (view? : Option View) (o : Operand) : Operand :=
  if o.kind = .current then { o with kind := .ofView? view? } else o

@[simp] theorem Operand.seenAs_none (o : Operand) : o.seenAs none = o := by
  unfold seenAs
  split
  · rename_i h
    cases o
    cases h
    rfl
  · rfl

/-- Where the pointer rows of a read lead. -/
def Cell.baseIn (m : Memory) (c : Cell) : UInt32 :=
  c.pointer.foldl (fun base r => r.fedValue m base) 0

/-- What a read gives under a view. -/
def Cell.readAs (m : Memory) (view? : Option View) (c : Cell) : UInt32 :=
  (c.operand.seenAs view?).valueIn m (c.baseIn m)

namespace Term
variable (m : Memory) (view? : Option View)

/-- What the coefficient of a term multiplies: a read, or the arithmetic on one. -/
def factorAs (t : Term) : UInt32 :=
  match t.modifier with
  | none => t.cell.readAs m view?
  | some a => a.arithmetic.apply (t.cell.readAs m view?)
      ((a.right.seenAs view?).valueIn m (t.cell.baseIn m))

/-- The value of a term. -/
def valueAs (t : Term) : Int := t.coefficient.toInt * (t.factorAs m view?).toNat

/-- A sum over terms. -/
def total (f : Term → Int) : List Term → Int
  | [] => 0
  | t :: ts => f t + total f ts

@[simp] theorem total_nil (f : Term → Int) : total f [] = 0 := rfl

@[simp] theorem total_cons (f : Term → Int) (t : Term) (ts : List Term) :
    total f (t :: ts) = f t + total f ts := rfl

@[simp] theorem total_append (f : Term → Int) (ts us : List Term) :
    total f (ts ++ us) = total f ts + total f us := by
  induction ts with
  | nil => simp
  | cons t ts ih =>
    rw [List.cons_append, total_cons, total_cons, ih]
    omega

/-- Like terms multiply the same. -/
theorem factorAs_of_like {t u : Term} (h : t.like u = true) :
    t.factorAs m view? = u.factorAs m view? := by
  obtain ⟨hcell, hmodifier⟩ : t.cell = u.cell ∧ t.modifier = u.modifier := by simpa [like] using h
  rw [factorAs, factorAs, hcell, hmodifier]

theorem total_insert {t : Term} {ts us : List Term} (h : t.insert ts = .ok us) :
    total (valueAs m view?) us = total (valueAs m view?) ts + t.valueAs m view? := by
  induction ts generalizing us with
  | nil =>
    cases h
    simp
  | cons u rest ih =>
    rw [insert] at h
    split at h
    · rename_i hlike
      simp only [Lowered.bind_eq_ok, Lowered.pure_eq_ok, Lowered.require_eq_ok] at h
      obtain ⟨sum, hsum, rfl⟩ := h
      have hfactor := factorAs_of_like m view? hlike
      have hsummed : valueAs m view? { u with coefficient := sum } =
          u.valueAs m view? + t.valueAs m view? := by
        change sum.toInt * ((u.factorAs m view?).toNat : Int) = _
        rw [Checked.toInt_of_add? hsum, valueAs, valueAs, ← hfactor, Int.add_mul]
      rw [total_cons, total_cons, hsummed]
      omega
    · simp only [Lowered.bind_eq_ok, Lowered.pure_eq_ok] at h
      obtain ⟨more, hmore, rfl⟩ := h
      rw [total_cons, total_cons, ih hmore]
      omega

/-- Terms that vanish contribute nothing. -/
theorem total_nonzero (ts : List Term) :
    total (valueAs m view?) (nonzero ts) = total (valueAs m view?) ts := by
  induction ts with
  | nil => rfl
  | cons t ts ih =>
    rw [nonzero, List.filter_cons]
    split
    · rw [total_cons, total_cons, ← ih, nonzero]
    · rename_i hzero
      have hcoefficient : t.coefficient = 0 := by simpa using hzero
      have hvalue : t.valueAs m view? = 0 := by simp [valueAs, hcoefficient]
      rw [total_cons, hvalue, Int.zero_add, ← ih, nonzero]

theorem total_scale {factor : Int64} {ts us : List Term} (h : ts.mapM (scale factor) = .ok us) :
    total (valueAs m view?) us = factor.toInt * total (valueAs m view?) ts := by
  induction Lowered.mapM_eq_ok.mp h with
  | nil => simp
  | cons hscale hrest ih =>
    rename_i t u ts us
    simp only [scale, Lowered.bind_eq_ok, Lowered.pure_eq_ok, Lowered.require_eq_ok] at hscale
    obtain ⟨product, hproduct, rfl⟩ := hscale
    have hvalue : valueAs m view? { t with coefficient := product } =
        factor.toInt * t.valueAs m view? := by
      change product.toInt * ((t.factorAs m view?).toNat : Int) = _
      rw [Checked.toInt_of_mul? hproduct, valueAs, Int.mul_comm t.coefficient.toInt, Int.mul_assoc]
    rw [total_cons, total_cons, hvalue, ih (Lowered.mapM_eq_ok.mpr hrest), Int.mul_add]

/-- The row of a term feeds the value of its factor, scaled. -/
theorem fedValue_scaledRow {role : Role} {scale : Int64} {refusal : Cause} {t : Term} {row : Row}
    (h : t.scaledRow role scale refusal = .ok row) :
    row.fedValue m (t.cell.baseIn m) =
      UInt32.ofInt (scale.toInt * (t.factorAs m none).toNat) := by
  have hone : (1 : Int64).toInt = 1 := rfl
  have hfactor (hmodifier : t.modifier = none) :
      t.factorAs m none = t.cell.operand.valueIn m (t.cell.baseIn m) := by
    simp [factorAs, hmodifier, Cell.readAs]
  obtain ⟨hmodifier, rfl, rfl⟩ | ⟨hmodifier, right, hright, rfl⟩ | ⟨a, hmodifier, rfl, rfl⟩ :=
    scaledRow_cases h
  · rw [hone, Int.one_mul, Word.ofInt_toNat, hfactor hmodifier]
    rfl
  · obtain ⟨w, rfl, hw⟩ := Operand.eq_literal_of_ofInt hright
    rw [← hw, UInt32.ofInt_mul, Word.ofInt_toNat, Word.ofInt_toNat, hfactor hmodifier,
      UInt32.mul_comm]
    rfl
  · rw [hone, Int.one_mul, Word.ofInt_toNat, factorAs, Option.mem_def.mp hmodifier]
    simp [Row.fedValue, Row.modifier, Cell.readAs]

end Term

/-! ## The value of a form -/

namespace LinearForm
variable (m : Memory) (view? : Option View)

/-- The value of a form. -/
def valueAs (f : LinearForm) : Int := Term.total (Term.valueAs m view?) f.terms + f.constant.toInt

/-- The difference of two forms. -/
def minus (f g : LinearForm) : Lowered LinearForm := do
  let negated ← g.scaled (-1)
  f.plus negated

theorem valueAs_addTerm {f g : LinearForm} {t : Term} (h : f.addTerm t = .ok g) :
    g.valueAs m view? = f.valueAs m view? + t.valueAs m view? := by
  simp only [addTerm, Lowered.bind_eq_ok, Lowered.pure_eq_ok] at h
  obtain ⟨terms, hterms, rfl⟩ := h
  rw [valueAs, valueAs, Term.total_nonzero, Term.total_insert m view? hterms]
  dsimp only
  omega

theorem valueAs_foldlM {ts : List Term} {f g : LinearForm} (h : ts.foldlM addTerm f = .ok g) :
    g.valueAs m view? = f.valueAs m view? + Term.total (Term.valueAs m view?) ts := by
  induction ts generalizing f with
  | nil =>
    cases h
    simp
  | cons t ts ih =>
    rw [List.foldlM_cons, Lowered.bind_eq_ok] at h
    obtain ⟨f', hf', h⟩ := h
    rw [ih h, valueAs_addTerm m view? hf', Term.total_cons]
    omega

theorem valueAs_plus {f g k : LinearForm} (h : f.plus g = .ok k) :
    k.valueAs m view? = f.valueAs m view? + g.valueAs m view? := by
  simp only [plus, Lowered.bind_eq_ok, Lowered.require_eq_ok] at h
  obtain ⟨constant, hconstant, h⟩ := h
  have hsum := Checked.toInt_of_add? hconstant
  rw [valueAs_foldlM m view? h, valueAs, valueAs, valueAs]
  dsimp only
  omega

theorem valueAs_scaled {f g : LinearForm} {factor : Int64} (h : f.scaled factor = .ok g) :
    g.valueAs m view? = factor.toInt * f.valueAs m view? := by
  simp only [scaled, Lowered.bind_eq_ok, Lowered.pure_eq_ok, Lowered.require_eq_ok] at h
  obtain ⟨constant, hconstant, terms, hterms, rfl⟩ := h
  rw [valueAs, valueAs, Term.total_nonzero, Term.total_scale m view? hterms,
    Checked.toInt_of_mul? hconstant, Int.mul_add, Int.mul_comm f.constant.toInt]

theorem valueAs_minus {f g k : LinearForm} (h : f.minus g = .ok k) :
    k.valueAs m view? = f.valueAs m view? - g.valueAs m view? := by
  obtain ⟨negated, hnegated, h⟩ := Lowered.bind_eq_ok.mp h
  have hnegation := valueAs_scaled m view? hnegated
  have hone : (-1 : Int64).toInt = -1 := rfl
  rw [valueAs_plus m view? h, hnegation, hone]
  omega

theorem valueAs_of_isConstant {f : LinearForm} (h : f.isConstant = true) :
    f.valueAs m view? = f.constant.toInt := by
  rw [valueAs, List.isEmpty_iff.mp h, Term.total_nil, Int.zero_add]

theorem valueAs_ofCell (cell : Cell) : (ofCell cell).valueAs m view? = (cell.readAs m view?).toNat := by
  have hone : (1 : Int64).toInt = 1 := rfl
  have hzero : (0 : Int64).toInt = 0 := rfl
  simp [ofCell, valueAs, Term.valueAs, Term.factorAs, hone, hzero]

/-- A form that is one read as it is. -/
theorem eq_ofCell_of_cell? {f : LinearForm} {cell : Cell} (h : f.cell? = some cell) :
    f = ofCell cell := by
  unfold cell? at h
  split at h
  · rename_i t hterms
    split at h
    · rename_i hplain
      obtain ⟨hconstant, hcoefficient, hmodifier⟩ := hplain
      cases h
      obtain ⟨terms, constant⟩ := f
      obtain ⟨cell, modifier, coefficient⟩ := t
      simp_all [ofCell]
    · cases h
  · cases h

theorem eq_ofCell_of_cells? {f g : LinearForm} {a b : Cell} (h : f.cells? g = some (a, b)) :
    f = ofCell a ∧ g = ofCell b ∧ a.pointer = b.pointer := by
  unfold cells? at h
  split at h
  · rename_i a' b' ha hb
    split at h
    · rename_i hpointer
      cases h
      exact ⟨eq_ofCell_of_cell? ha, eq_ofCell_of_cell? hb, hpointer⟩
    · cases h
  · cases h

/-! ### Addresses -/

theorem valueIn_seenAs_memory (size : Size) (place base : UInt32) :
    ((Operand.memory size place).seenAs view?).valueIn m base =
      m.read ⟨.ofView? view?, size, place + base⟩ := by
  rcases view? with _ | _ | _ | _ <;> rfl

/-- **The read at an address**: where the pointer rows lead, moved by the offset, is the value of the
address modulo `2 ^ 32`. -/
theorem readAs_cellAt {size : Size} {address : LinearForm} {cell : Cell}
    (h : cellAt size address = .ok cell) :
    cell.readAs m view? =
      m.read ⟨.ofView? view?, size, UInt32.ofInt (address.valueAs m none)⟩ := by
  unfold cellAt at h
  split at h
  · rename_i hterms
    simp only [Lowered.bind_eq_ok, Lowered.pure_eq_ok, addressOf, Lowered.require_eq_ok] at h
    obtain ⟨place, hplace, rfl⟩ := h
    have hvalue : address.valueAs m none = place.toNat := by
      rw [valueAs, hterms, Term.total_nil, Int.zero_add, Checked.toNat_of_word? hplace]
    rw [hvalue, Word.ofInt_toNat, Cell.readAs, valueIn_seenAs_memory]
    exact congrArg (fun a => m.read ⟨_, size, a⟩) (UInt32.add_zero place)
  · rename_i t hterms
    split at h
    · simp at h
    split at h
    · simp at h
    simp only [Lowered.bind_eq_ok, Lowered.pure_eq_ok, addressOf, Lowered.require_eq_ok] at h
    obtain ⟨row, hrow, offset, hoffset, rfl⟩ := h
    have hbase : Cell.baseIn m ⟨t.cell.pointer ++ [row], .memory size offset⟩ =
        UInt32.ofInt (t.valueAs m none) := by
      rw [pointerRow_eq_scaledRow] at hrow
      rw [Term.valueAs, ← Term.fedValue_scaledRow m hrow, Cell.baseIn, List.foldl_append]
      rfl
    have hvalue : address.valueAs m none = t.valueAs m none + offset.toNat := by
      rw [valueAs, hterms, Term.total_cons, Term.total_nil, Int.add_zero,
        Checked.toNat_of_word? hoffset]
    rw [Cell.readAs, hbase, valueIn_seenAs_memory, hvalue, UInt32.ofInt_add, Word.ofInt_toNat,
      UInt32.add_comm]
  · simp at h

/-- A view of a form has the value of the form under the view. -/
theorem valueAs_viewedAs {view : View} {f k : LinearForm} (h : f.viewedAs view = .ok k) :
    k.valueAs m view? = f.valueAs m (some view) := by
  unfold viewedAs at h
  split at h
  · rename_i cell hcell
    split at h
    · rename_i hkind
      cases h
      rw [eq_ofCell_of_cell? hcell, valueAs_ofCell, valueAs_ofCell]
      have hother : view.kind ≠ .current := by cases view <;> simp [View.kind]
      simp [Cell.readAs, Operand.seenAs, hkind, hother, OperandKind.ofView?, Cell.baseIn]
    · simp at h
  · simp at h

end LinearForm
end MemoryTrigger

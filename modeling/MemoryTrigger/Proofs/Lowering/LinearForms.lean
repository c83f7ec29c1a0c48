import Mathlib.Data.List.Forall2
import MemoryTrigger.LinearForm
import MemoryTrigger.Proofs.Wire.Representable

/-! # The reads of a linear form

Every read in the linear form of a value lies behind rows that feed its address, and every operand it
meets can be written (`LinearForm.isSound_ofValue`).  Each operation on forms keeps this. -/
namespace MemoryTrigger

/-! ## Steps that succeed -/

namespace Lowered
variable {α β : Type}

@[simp] theorem bind_eq_ok {x : Lowered α} {f : α → Lowered β} {b : β} :
    (x >>= f) = .ok b ↔ ∃ a, x = .ok a ∧ f a = .ok b := by
  cases x with
  | error e => simp [bind, Except.bind]
  | ok a => simp [bind, Except.bind]

@[simp] theorem pure_eq_ok {a b : α} : (pure a : Lowered α) = .ok b ↔ a = b := by
  simp [pure, Except.pure]

@[simp] theorem reject_ne_ok {cause : Cause} {a : α} : (reject cause : Lowered α) ≠ .ok a := by
  simp [reject]

@[simp] theorem located_eq_ok {l : Location} {x : Lowered α} {a : α} :
    x.located l = .ok a ↔ x = .ok a := by
  cases x with
  | error e => simp [located, Except.mapError]
  | ok b => simp [located, Except.mapError]

/-- A list of steps succeeds where each of them does. -/
theorem mapM_eq_ok {f : α → Lowered β} {xs : List α} {ys : List β} :
    xs.mapM f = .ok ys ↔ List.Forall₂ (fun x y => f x = .ok y) xs ys := by
  induction xs generalizing ys with
  | nil =>
    rw [List.mapM_nil, pure_eq_ok, List.forall₂_nil_left_iff]
    exact eq_comm
  | cons x xs ih =>
    simp only [List.mapM_cons, bind_eq_ok, pure_eq_ok, ih, List.forall₂_cons_left_iff]
    constructor
    · rintro ⟨y, hy, ys, hys, rfl⟩
      exact ⟨y, ys, hy, hys, rfl⟩
    · rintro ⟨y, ys, hy, hys, rfl⟩
      exact ⟨y, hy, ys, hys, rfl⟩

/-- What every step gives is what all of them give. -/
theorem forall_mem_of_mapM {f : α → Lowered β} {xs : List α} {ys : List β} {P : β → Prop}
    (h : xs.mapM f = .ok ys) (hf : ∀ x ∈ xs, ∀ y, f x = .ok y → P y) : ∀ y ∈ ys, P y := by
  induction mapM_eq_ok.mp h with
  | nil => simp
  | cons hxy hrest ih =>
    rename_i x y xs ys
    intro z hz
    rcases List.mem_cons.mp hz with rfl | hz
    · exact hf x List.mem_cons_self z hxy
    · exact ih (mapM_eq_ok.mpr hrest) (fun x' hx' => hf x' (List.mem_cons_of_mem _ hx')) z hz

/-- What every step keeps, all of them keep. -/
theorem of_foldlM {k : β → α → Lowered β} {P : β → Prop} {xs : List α} {b c : β}
    (h : xs.foldlM k b = .ok c) (hb : P b)
    (hk : ∀ x ∈ xs, ∀ b c, P b → k b x = .ok c → P c) : P c := by
  induction xs generalizing b with
  | nil =>
    cases h
    exact hb
  | cons x xs ih =>
    obtain ⟨hx, hxs⟩ := List.forall_mem_cons.mp hk
    rw [List.foldlM_cons, bind_eq_ok] at h
    obtain ⟨b', hb', h⟩ := h
    exact ih h (hx b b' hb hb') hxs

end Lowered

/-- A computation that does not fail has a result. -/
theorem exists_eq_ok_of_isOk {ε α : Type} {x : Except ε α} (h : x.isOk = true) :
    ∃ a, x = .ok a := by
  cases x with
  | error e => cases h
  | ok a => exact ⟨a, rfl⟩

/-! ## Rows that feed -/

/-- A row that feeds a value into the next one: it can be written, and neither compares nor counts
hits. -/
structure Row.IsFeeding (r : Row) : Prop where
  role : r.role.isModifier = true
  hits : r.hits = 0
  operator : r.operator.isComparison = false
  written : r.IsRepresentable

theorem Row.isFeeding_modifier {role : Role} (hrole : role.isModifier = true) {left : Operand}
    (hleft : left.IsRepresentable) : (Row.modifier role left).IsFeeding :=
  ⟨hrole, rfl, rfl, hleft, rfl⟩

theorem Operand.isRepresentable_of_ofInt {n : Int64} {o : Operand} (h : Operand.ofInt n = .ok o) :
    o.IsRepresentable := by
  simp only [Operand.ofInt, Lowered.bind_eq_ok, Lowered.pure_eq_ok] at h
  obtain ⟨value, -, rfl⟩ := h
  exact isRepresentable_literal value

/-- A feeding row with arithmetic on its left operand. -/
theorem Row.isFeeding_arithmetic (role : Role) (hrole : role.isModifier = true) {left : Operand}
    (hleft : left.IsRepresentable) (a : Arithmetic) {right : Operand}
    (hright : right.IsRepresentable) :
    IsFeeding { Row.modifier role left with operator := .arith a, right } :=
  ⟨hrole, rfl, rfl, hleft, by simpa using hright⟩

/-! ## Linear forms -/

/-- A read of memory behind rows that feed its address. -/
structure Cell.IsSound (cell : Cell) : Prop where
  pointer : ∀ r ∈ cell.pointer, r.IsFeeding
  roles : ∀ r ∈ cell.pointer, r.role = .addAddress
  operand : cell.operand.isMemory = true

/-- A term over a sound read, with an operand that can be written where it has a second one. -/
structure Term.IsSound (t : Term) : Prop where
  cell : t.cell.IsSound
  right : ∀ m ∈ t.modifier, m.right.IsRepresentable

def LinearForm.IsSound (f : LinearForm) : Prop := ∀ t ∈ f.terms, t.IsSound

namespace Term

/-- Coefficients do not matter to what a term reads. -/
theorem IsSound.withCoefficient {t : Term} (h : t.IsSound) (n : Int64) :
    IsSound { t with coefficient := n } :=
  ⟨h.cell, h.right⟩

theorem isSound_insert {t : Term} (ht : t.IsSound) {ts us : List Term}
    (hts : ∀ u ∈ ts, u.IsSound) (h : t.insert ts = .ok us) : ∀ u ∈ us, u.IsSound := by
  induction ts generalizing us with
  | nil =>
    cases h
    simpa using ht
  | cons v rest ih =>
    obtain ⟨hv, hrest⟩ := List.forall_mem_cons.mp hts
    rw [insert] at h
    split at h
    · simp only [Lowered.bind_eq_ok, Lowered.pure_eq_ok] at h
      obtain ⟨sum, -, rfl⟩ := h
      exact List.forall_mem_cons.mpr ⟨hv.withCoefficient sum, hrest⟩
    · simp only [Lowered.bind_eq_ok, Lowered.pure_eq_ok] at h
      obtain ⟨more, hmore, rfl⟩ := h
      exact List.forall_mem_cons.mpr ⟨hv, ih hrest hmore⟩

theorem isSound_scale {factor : Int64} {t u : Term} (ht : t.IsSound)
    (h : t.scale factor = .ok u) : u.IsSound := by
  simp only [scale, Lowered.bind_eq_ok, Lowered.pure_eq_ok] at h
  obtain ⟨product, -, rfl⟩ := h
  exact ht.withCoefficient product

/-! ### The row of a term -/

/-- The row that feeds `scale` times what a term reads.  A row has room for one operation, so that a
read that is modified already cannot be scaled.  Pointer rows are such rows, and so are those of the
accumulator. -/
def scaledRow (role : Role) (scale : Int64) (refusal : Cause) (t : Term) : Lowered Row :=
  let row := Row.modifier role t.cell.operand
  t.modifier.elim
    (if scale = 1 then .ok row
    else do
      let right ← Operand.ofInt scale
      pure { row with operator := .arith .mul, right })
    fun m =>
      if scale = 1 then .ok { row with operator := .arith m.arithmetic, right := m.right }
      else Lowered.reject refusal

section
variable {role : Role} {scale : Int64} {refusal : Cause} {t : Term} {row : Row}

/-- The row of a term is its read alone, its read times a literal, or its modified read. -/
theorem scaledRow_cases (h : t.scaledRow role scale refusal = .ok row) :
    (t.modifier = none ∧ scale = 1 ∧ row = Row.modifier role t.cell.operand) ∨
      (t.modifier = none ∧ ∃ right, Operand.ofInt scale = .ok right ∧
        row = { Row.modifier role t.cell.operand with operator := .arith .mul, right }) ∨
      ∃ m ∈ t.modifier, scale = 1 ∧ row = { Row.modifier role t.cell.operand with
        operator := .arith m.arithmetic, right := m.right } := by
  unfold scaledRow at h
  cases hmodifier : t.modifier with
  | none =>
    simp only [hmodifier, Option.elim_none] at h
    split at h
    · rename_i hscale
      cases h
      exact .inl ⟨rfl, hscale, rfl⟩
    · simp only [Lowered.bind_eq_ok, Lowered.pure_eq_ok] at h
      obtain ⟨right, hright, rfl⟩ := h
      exact .inr (.inl ⟨rfl, right, hright, rfl⟩)
  | some m =>
    simp only [hmodifier, Option.elim_some] at h
    split at h
    · rename_i hscale
      cases h
      exact .inr (.inr ⟨m, rfl, hscale, rfl⟩)
    · simp at h

theorem role_scaledRow (h : t.scaledRow role scale refusal = .ok row) : row.role = role := by
  obtain ⟨-, -, rfl⟩ | ⟨-, right, -, rfl⟩ | ⟨m, -, -, rfl⟩ := scaledRow_cases h <;> rfl

theorem isFeeding_scaledRow (hrole : role.isModifier = true) (ht : t.IsSound)
    (h : t.scaledRow role scale refusal = .ok row) : row.IsFeeding := by
  have hleft := Operand.isRepresentable_of_isMemory ht.cell.operand
  obtain ⟨-, -, rfl⟩ | ⟨-, right, hright, rfl⟩ | ⟨m, hm, -, rfl⟩ := scaledRow_cases h
  · exact Row.isFeeding_modifier hrole hleft
  · exact Row.isFeeding_arithmetic role hrole hleft .mul (Operand.isRepresentable_of_ofInt hright)
  · exact Row.isFeeding_arithmetic role hrole hleft m.arithmetic (ht.right m hm)

end

end Term

namespace LinearForm

theorem isSound_constant (n : Int64) : IsSound { constant := n } := by simp [IsSound]

theorem isSound_ofCell {cell : Cell} (h : cell.IsSound) : (ofCell cell).IsSound := by
  intro t ht
  obtain rfl := List.mem_singleton.mp ht
  exact ⟨h, by simp⟩

theorem isSound_ofModified {cell : Cell} (h : cell.IsSound) (a : Arithmetic) {right : Operand}
    (hright : right.IsRepresentable) : (ofModified cell a right).IsSound := by
  intro t ht
  obtain rfl := List.mem_singleton.mp ht
  exact ⟨h, by simpa using hright⟩

theorem IsSound.nonzero {ts : List Term} (h : ∀ t ∈ ts, t.IsSound) (n : Int64) :
    IsSound { terms := Term.nonzero ts, constant := n } :=
  fun t ht => h t (List.mem_of_mem_filter ht)

theorem isSound_addTerm {f g : LinearForm} {t : Term} (hf : f.IsSound) (ht : t.IsSound)
    (h : f.addTerm t = .ok g) : g.IsSound := by
  simp only [addTerm, Lowered.bind_eq_ok, Lowered.pure_eq_ok] at h
  obtain ⟨terms, hterms, rfl⟩ := h
  exact .nonzero (Term.isSound_insert ht hf hterms) _

theorem isSound_plus {f g k : LinearForm} (hf : f.IsSound) (hg : g.IsSound)
    (h : f.plus g = .ok k) : k.IsSound := by
  simp only [plus, Lowered.bind_eq_ok] at h
  obtain ⟨constant, -, h⟩ := h
  exact Lowered.of_foldlM h hf fun t ht _ _ hf' hk' => isSound_addTerm hf' (hg t ht) hk'

theorem isSound_scaled {f g : LinearForm} (hf : f.IsSound) {factor : Int64}
    (h : f.scaled factor = .ok g) : g.IsSound := by
  simp only [scaled, Lowered.bind_eq_ok, Lowered.pure_eq_ok] at h
  obtain ⟨constant, -, terms, hterms, rfl⟩ := h
  exact .nonzero (Lowered.forall_mem_of_mapM hterms fun t ht u hu =>
    Term.isSound_scale (hf t ht) hu) constant

theorem isSound_cell? {f : LinearForm} (hf : f.IsSound) {cell : Cell} (h : f.cell? = some cell) :
    cell.IsSound := by
  unfold cell? at h
  split at h
  · rename_i t hterms
    split at h
    · cases h
      exact (hf t (by simp [hterms])).cell
    · cases h
  · cases h

theorem isSound_cells? {f g : LinearForm} (hf : f.IsSound) (hg : g.IsSound) {a b : Cell}
    (h : f.cells? g = some (a, b)) : a.IsSound ∧ b.IsSound := by
  unfold cells? at h
  split at h
  · rename_i a' b' ha hb
    split at h
    · cases h
      exact ⟨isSound_cell? hf ha, isSound_cell? hg hb⟩
    · cases h
  · cases h

/-- A read modified by a read is sound where both reads are. -/
theorem isSound_ofModified_cells {f g : LinearForm} (hf : f.IsSound) (hg : g.IsSound)
    {a b : Cell} (h : f.cells? g = some (a, b)) (arithmetic : Arithmetic) :
    (ofModified a arithmetic b.operand).IsSound := by
  obtain ⟨ha, hb⟩ := isSound_cells? hf hg h
  exact isSound_ofModified ha arithmetic (Operand.isRepresentable_of_isMemory hb.operand)

theorem isSound_times {f g k : LinearForm} (hf : f.IsSound) (hg : g.IsSound)
    (h : f.times g = .ok k) : k.IsSound := by
  unfold times at h
  split at h
  · exact isSound_scaled hf h
  split at h
  · exact isSound_scaled hg h
  split at h
  · rename_i a b hcells
    cases h
    exact isSound_ofModified_cells hf hg hcells .mul
  · simp at h

theorem isSound_dividedBy {f k : LinearForm} (hf : f.IsSound) {divisor : Int64}
    (h : f.dividedBy divisor = .ok k) : k.IsSound := by
  unfold dividedBy at h
  split at h
  · simp at h
  split at h
  · cases h
    exact hf
  split at h
  · cases h
  split at h
  · cases h
    intro t ht
    obtain ⟨u, hu, rfl⟩ := List.mem_map.mp ht
    exact (hf u hu).withCoefficient _
  split at h
  · rename_i cell hcell
    split at h
    · simp only [Lowered.bind_eq_ok, Lowered.pure_eq_ok] at h
      obtain ⟨right, hright, rfl⟩ := h
      exact isSound_ofModified (isSound_cell? hf hcell) .div
        (Operand.isRepresentable_of_ofInt hright)
    · simp at h
  · simp at h

theorem isSound_divided {f g k : LinearForm} (hf : f.IsSound) (hg : g.IsSound)
    (h : f.divided g = .ok k) : k.IsSound := by
  unfold divided at h
  split at h
  · exact isSound_dividedBy hf h
  split at h
  · rename_i a b hcells
    cases h
    exact isSound_ofModified_cells hf hg hcells .div
  · simp at h

theorem isSound_maskedBy {f k : LinearForm} (hf : f.IsSound) {bits : Int64}
    (h : f.maskedBy bits = .ok k) : k.IsSound := by
  unfold maskedBy at h
  split at h
  · cases h
    exact isSound_constant _
  split at h
  · rename_i cell hcell
    simp only [Lowered.bind_eq_ok, Lowered.pure_eq_ok] at h
    obtain ⟨right, hright, rfl⟩ := h
    exact isSound_ofModified (isSound_cell? hf hcell) .mask
      (Operand.isRepresentable_of_ofInt hright)
  · simp at h

theorem isSound_masked {f g k : LinearForm} (hf : f.IsSound) (hg : g.IsSound)
    (h : f.masked g = .ok k) : k.IsSound := by
  unfold masked at h
  split at h
  · exact isSound_maskedBy hf h
  split at h
  · exact isSound_maskedBy hg h
  split at h
  · rename_i a b hcells
    cases h
    exact isSound_ofModified_cells hf hg hcells .mask
  · simp at h

theorem pointerRow_eq_scaledRow (t : Term) :
    pointerRow t = t.scaledRow .addAddress t.coefficient .complexAddress := by
  unfold pointerRow Term.scaledRow
  cases t.modifier <;> rfl

theorem isSound_cellAt {size : Size} {address : LinearForm} (ha : address.IsSound) {cell : Cell}
    (h : cellAt size address = .ok cell) : cell.IsSound := by
  unfold cellAt at h
  split at h
  · simp only [Lowered.bind_eq_ok, Lowered.pure_eq_ok] at h
    obtain ⟨place, -, rfl⟩ := h
    exact ⟨by simp, by simp, rfl⟩
  · rename_i t hterms
    have ht : t.IsSound := ha t (by simp [hterms])
    split at h
    · simp at h
    split at h
    · simp at h
    simp only [Lowered.bind_eq_ok, Lowered.pure_eq_ok] at h
    obtain ⟨row, hrow, offset, -, rfl⟩ := h
    rw [pointerRow_eq_scaledRow] at hrow
    refine ⟨List.forall_mem_append.mpr ⟨ht.cell.pointer, ?_⟩,
      List.forall_mem_append.mpr ⟨ht.cell.roles, ?_⟩, rfl⟩
    · exact List.forall_mem_singleton.mpr (Term.isFeeding_scaledRow rfl ht hrow)
    · exact List.forall_mem_singleton.mpr (Term.role_scaledRow hrow)
  · simp at h

theorem isSound_viewedAs {view : View} {f k : LinearForm} (hf : f.IsSound)
    (h : f.viewedAs view = .ok k) : k.IsSound := by
  unfold viewedAs at h
  split at h
  · rename_i cell hcell
    split at h
    · cases h
      have hsound := isSound_cell? hf hcell
      exact isSound_ofCell ⟨hsound.pointer, hsound.roles, by cases view <;> rfl⟩
    · simp at h
  · simp at h

/-- **The reads of a value lie behind feeding rows**, whatever its arithmetic. -/
theorem isSound_ofValue {resolve : String → Option Size} {v : Value} {f : LinearForm}
    (h : ofValue resolve v = .ok f) : f.IsSound := by
  induction v generalizing f with
  | constant n =>
    cases h
    exact isSound_constant n
  | read accessor address ih =>
    simp only [ofValue, Lowered.bind_eq_ok, Lowered.pure_eq_ok] at h
    obtain ⟨size, -, form, hform, cell, hcell, rfl⟩ := h
    exact isSound_ofCell (isSound_cellAt (ih hform) hcell)
  | viewed view value ih =>
    simp only [ofValue, Lowered.bind_eq_ok] at h
    obtain ⟨form, hform, h⟩ := h
    exact isSound_viewedAs (ih hform) h
  | add a b iha ihb =>
    simp only [ofValue, Lowered.bind_eq_ok] at h
    obtain ⟨f', hf, g, hg, h⟩ := h
    exact isSound_plus (iha hf) (ihb hg) h
  | sub a b iha ihb =>
    simp only [ofValue, Lowered.bind_eq_ok] at h
    obtain ⟨f', hf, g, hg, negated, hnegated, h⟩ := h
    exact isSound_plus (iha hf) (isSound_scaled (ihb hg) hnegated) h
  | mul a b iha ihb =>
    simp only [ofValue, Lowered.bind_eq_ok] at h
    obtain ⟨f', hf, g, hg, h⟩ := h
    exact isSound_times (iha hf) (ihb hg) h
  | div a b iha ihb =>
    simp only [ofValue, Lowered.bind_eq_ok] at h
    obtain ⟨f', hf, g, hg, h⟩ := h
    exact isSound_divided (iha hf) (ihb hg) h
  | mask a b iha ihb =>
    simp only [ofValue, Lowered.bind_eq_ok] at h
    obtain ⟨f', hf, g, hg, h⟩ := h
    exact isSound_masked (iha hf) (ihb hg) h

end LinearForm
end MemoryTrigger

import MemoryTrigger.Comparison
import MemoryTrigger.Proofs.Lowering.LinearForms

/-! # The rows of a comparison

Lowering a comparison either fails, or settles it, or gives the rows of one clause: rows that feed an
address or the accumulator, then one plain row that compares (`Comparison.ofValues_isSound`). -/
namespace MemoryTrigger

/-- A clause that compares what its other rows add up, with operands that can be written. -/
structure Clause.IsLinear (c : Clause) : Prop where
  lead : ∀ r ∈ c.lead, r.IsFeeding
  terminal : ∃ left relation right, c.terminal = .comparing left relation right ∧
    left.IsRepresentable ∧ right.IsRepresentable

/-- Rows of one clause that compares a sum. -/
def Row.AreLinear (rows : List Row) : Prop := ∃ c : Clause, c.rows = rows ∧ c.IsLinear

theorem Row.areLinear_append {lead : List Row} (hlead : ∀ r ∈ lead, r.IsFeeding)
    {left right : Operand} (hleft : left.IsRepresentable) (relation : Relation)
    (hright : right.IsRepresentable) : AreLinear (lead ++ [comparing left relation right]) :=
  ⟨⟨lead, comparing left relation right⟩, rfl, hlead, left, relation, right, rfl, hleft, hright⟩

theorem eq_append_of_splitLast? {α : Type} {p : α → Bool} {xs before behind : List α} {x : α}
    (h : splitLast? p xs = some (before, x, behind)) :
    xs = before ++ x :: behind ∧ p x = true := by
  induction xs generalizing before with
  | nil => cases h
  | cons z rest ih =>
    rw [splitLast?] at h
    split at h
    · rename_i before' x' behind' hrest
      cases h
      obtain ⟨rfl, hx⟩ := ih hrest
      exact ⟨rfl, hx⟩
    · split at h
      · rename_i hz
        cases h
        exact ⟨rfl, hz⟩
      · cases h

/-- Whatever splits off the last element with a property leaves the others as they are. -/
theorem mem_of_splitLast? {α : Type} {p : α → Bool} {xs before behind : List α} {x : α}
    (h : splitLast? p xs = some (before, x, behind)) :
    x ∈ xs ∧ ∀ y ∈ before ++ behind, y ∈ xs := by
  obtain ⟨rfl, -⟩ := eq_append_of_splitLast? h
  refine ⟨List.mem_append_cons_self, fun y hy => ?_⟩
  rcases List.mem_append.mp hy with hy | hy
  · exact List.mem_append_left _ hy
  · exact List.mem_append_right _ (List.mem_cons_of_mem _ hy)

theorem Term.fedRow_eq_scaledRow (role : Role) (t : Term) :
    t.fedRow role = t.scaledRow role t.coefficient.abs .cannotEliminateMultiplication := by
  unfold fedRow scaledRow
  cases t.modifier <;> rfl

theorem Term.isFeeding_accumulate {role : Role} (hrole : role.isModifier = true) {t : Term}
    (ht : t.IsSound) {rows : List Row} (h : t.accumulate role = .ok rows) :
    ∀ r ∈ rows, r.IsFeeding := by
  simp only [accumulate, Lowered.bind_eq_ok, Lowered.pure_eq_ok] at h
  obtain ⟨row, hrow, rfl⟩ := h
  rw [fedRow_eq_scaledRow] at hrow
  exact List.forall_mem_append.mpr ⟨ht.cell.pointer,
    List.forall_mem_singleton.mpr (isFeeding_scaledRow hrole ht hrow)⟩

theorem Term.isModifier_signRole (t : Term) : t.signRole.isModifier = true := by
  unfold signRole
  split <;> rfl

/-- Terms that are fed one after another. -/
theorem Term.isFeeding_chains (role : Term → Role) (hrole : ∀ t, (role t).isModifier = true)
    {ts : List Term} (hts : ∀ t ∈ ts, t.IsSound) {chains : List (List Row)}
    (h : ts.mapM (fun t => t.accumulate (role t)) = .ok chains) :
    ∀ r ∈ chains.flatten, r.IsFeeding := by
  intro r hr
  obtain ⟨rows, hrows, hr⟩ := List.mem_flatten.mp hr
  exact Lowered.forall_mem_of_mapM h
    (fun t ht _ hchain => isFeeding_accumulate (hrole t) (hts t ht) hchain) rows hrows r hr

namespace Comparison

/-- The comparison is settled, or the rows of one clause that compares a sum. -/
def IsSound : Comparison → Prop
  | rows rs => Row.AreLinear rs
  | constant _ => True

theorem isFeeding_offsetRows {offset : Int} {rows : List Row} (h : offsetRows offset = .ok rows) :
    ∀ r ∈ rows, r.IsFeeding := by
  unfold offsetRows at h
  split at h
  · simp only [Lowered.bind_eq_ok, Lowered.pure_eq_ok] at h
    obtain ⟨value, hvalue, rfl⟩ := h
    simpa using Row.isFeeding_modifier rfl (Operand.isRepresentable_of_ofInt hvalue)
  · cases h
    simp

theorem areLinear_assemble {offset : Int} {terms : List Term} (hterms : ∀ t ∈ terms, t.IsSound)
    {relation : Relation} {right : Operand} (hright : right.IsRepresentable) {rows : List Row}
    (h : assemble offset terms relation right = .ok rows) : Row.AreLinear rows := by
  simp only [assemble, Lowered.bind_eq_ok] at h
  obtain ⟨start, hstart, h⟩ := h
  have hstart := isFeeding_offsetRows hstart
  split at h
  · rename_i before last behind hsplit
    obtain ⟨hlast, hothers⟩ := mem_of_splitLast? hsplit
    simp only [Lowered.bind_eq_ok, Lowered.pure_eq_ok] at h
    obtain ⟨chains, hchains, rfl⟩ := h
    have hfed := Term.isFeeding_chains _ Term.isModifier_signRole
      (fun t ht => hterms t (hothers t ht)) hchains
    have hcell := (hterms last hlast).cell
    refine Row.areLinear_append ?_ (Operand.isRepresentable_of_isMemory hcell.operand) _ hright
    exact List.forall_mem_append.mpr
      ⟨List.forall_mem_append.mpr ⟨hstart, hfed⟩, hcell.pointer⟩
  · simp only [Lowered.bind_eq_ok, Lowered.pure_eq_ok] at h
    obtain ⟨chains, hchains, rfl⟩ := h
    have hfed := Term.isFeeding_chains _ Term.isModifier_signRole hterms hchains
    exact Row.areLinear_append (List.forall_mem_append.mpr ⟨hstart, hfed⟩)
      (Operand.isRepresentable_literal 0) _ hright

theorem isSound_ofTerm {t : Term} (ht : t.IsSound) {relation : Relation} {bound : Int}
    {c : Comparison} (h : ofTerm t relation bound = .ok c) : c.IsSound := by
  have hcell := Operand.isRepresentable_of_isMemory ht.cell.operand
  unfold ofTerm at h
  split at h
  · cases h
    trivial
  split at h
  · cases h
    trivial
  simp only [Lowered.bind_eq_ok] at h
  obtain ⟨right, hright, h⟩ := h
  have hright := Operand.isRepresentable_of_ofInt hright
  split at h
  · cases h
    exact Row.areLinear_append ht.cell.pointer hcell relation hright
  · rename_i m hm
    cases h
    -- The modified read is fed, and zero is what it is added to.
    have hfed := Row.isFeeding_arithmetic .addSource rfl hcell m.arithmetic
      (ht.right m hm)
    have hlead := List.forall_mem_append.mpr ⟨ht.cell.pointer, List.forall_mem_singleton.mpr hfed⟩
    have := Row.areLinear_append hlead (Operand.isRepresentable_literal 0) relation hright
    rwa [List.append_assoc] at this

theorem isSound_ofScaledTerm {t : Term} (ht : t.IsSound) {relation : Relation} {bound : Int}
    {c : Comparison} (h : ofScaledTerm t relation bound = .ok c) : c.IsSound := by
  unfold ofScaledTerm at h
  dsimp only at h
  -- The sign only decides which scale, relation and bound are used.
  generalize (if decide (t.coefficient < 0) = true then -t.coefficient else t.coefficient) = scale,
    (if decide (t.coefficient < 0) = true then relation.reverse else relation) = relation',
    (if decide (t.coefficient < 0) = true then -bound else bound) = bound' at h
  split at h
  · split at h
    · exact isSound_ofTerm ht h
    · cases h
      trivial
  · exact isSound_ofTerm ht h

theorem areLinear_balanced? {sum other : List Term} (hsum : ∀ t ∈ sum, t.IsSound)
    (hother : ∀ t ∈ other, t.IsSound) {offset : Int} {relation : Relation} {rows : List Row}
    (h : balanced? sum other offset relation = .ok (some rows)) : Row.AreLinear rows := by
  unfold balanced? at h
  split at h
  · rename_i compared before last behind hsplit
    obtain ⟨hlast, hothers⟩ := mem_of_splitLast? hsplit
    split at h
    · simp only [Lowered.bind_eq_ok, Lowered.pure_eq_ok, Option.some.injEq] at h
      obtain ⟨start, hstart, chains, hchains, rfl⟩ := h
      have hfed := Term.isFeeding_chains (fun _ => .addSource) (fun _ => rfl)
        (fun t ht => hsum t (hothers t ht)) hchains
      have hcell := (hsum last hlast).cell
      have hcompared := (hother compared List.mem_cons_self).cell
      refine Row.areLinear_append ?_ (Operand.isRepresentable_of_isMemory hcell.operand) _
        (Operand.isRepresentable_of_isMemory hcompared.operand)
      exact List.forall_mem_append.mpr
        ⟨List.forall_mem_append.mpr ⟨isFeeding_offsetRows hstart, hfed⟩, hcell.pointer⟩
    · simp at h
  · simp at h

theorem areLinear_rearranged? {terms : List Term} (hterms : ∀ t ∈ terms, t.IsSound)
    {relation : Relation} {bound : Int} {rows : List Row}
    (h : rearranged? terms relation bound = .ok (some rows)) : Row.AreLinear rows := by
  have hpart {p : Term → Bool} : ∀ t ∈ terms.filter p, t.IsSound :=
    fun t ht => hterms t (List.mem_of_mem_filter ht)
  unfold rearranged? at h
  dsimp only at h
  split at h
  · exact areLinear_balanced? hpart hpart h
  · exact areLinear_balanced? hpart hpart h

theorem isSound_compensated {left right : LinearForm} {terms : List Term}
    (hterms : ∀ t ∈ terms, t.IsSound) {relation : Relation} {bound : Int} {c : Comparison}
    (h : compensated left right terms relation bound = .ok c) : c.IsSound := by
  unfold compensated at h
  generalize (if keepsOffset left right then _ else _ : Int × Int) = raised at h
  obtain ⟨offset, bound'⟩ := raised
  dsimp only at h
  split at h
  · cases h
    trivial
  split at h
  · simp at h
  simp only [Lowered.bind_eq_ok, Lowered.pure_eq_ok] at h
  obtain ⟨operand, hoperand, rows, hrows, rfl⟩ := h
  exact areLinear_assemble hterms (Operand.isRepresentable_of_ofInt hoperand) hrows

theorem isSound_equality {terms : List Term} (hterms : ∀ t ∈ terms, t.IsSound)
    {relation : Relation} {bound : Int} {c : Comparison}
    (h : equality terms relation bound = .ok c) : c.IsSound := by
  simp only [equality, Lowered.bind_eq_ok, Lowered.pure_eq_ok] at h
  obtain ⟨right, hright, rows, hrows, rfl⟩ := h
  exact areLinear_assemble hterms (Operand.isRepresentable_of_ofInt hright) hrows

theorem isSound_ordering {left right : LinearForm} {terms : List Term}
    (hterms : ∀ t ∈ terms, t.IsSound) {relation : Relation} {bound : Int} {c : Comparison}
    (h : ordering left right terms relation bound = .ok c) : c.IsSound := by
  unfold ordering at h
  dsimp only at h
  split at h
  · exact isSound_compensated hterms h
  · obtain ⟨rows, hrows, h⟩ := Lowered.bind_eq_ok.mp h
    cases rows with
    | none => exact isSound_compensated hterms h
    | some rows =>
      cases h
      exact areLinear_rearranged? hterms hrows

theorem isSound_ofForms {left right : LinearForm} (hleft : left.IsSound) (hright : right.IsSound)
    {relation : Relation} {c : Comparison} (h : ofForms left relation right = .ok c) :
    c.IsSound := by
  simp only [ofForms, Lowered.bind_eq_ok] at h
  obtain ⟨negated, hnegated, difference, hdifference, h⟩ := h
  have hterms := LinearForm.isSound_plus hleft (LinearForm.isSound_scaled hright hnegated)
    hdifference
  split at h
  · simp at h
  split at h
  · cases h
    trivial
  · rename_i a b hcells _
    cases h
    obtain ⟨ha, hb⟩ := LinearForm.isSound_cells? hleft hright hcells
    exact Row.areLinear_append ha.pointer (Operand.isRepresentable_of_isMemory ha.operand) _
      (Operand.isRepresentable_of_isMemory hb.operand)
  · rename_i t hdifference _
    exact isSound_ofScaledTerm (hterms t (by simp [hdifference])) h
  · split at h
    · exact isSound_equality hterms h
    · exact isSound_ordering hterms h

/-- **A lowered comparison is one clause**: rows that feed, then a plain row that compares. -/
theorem ofValues_isSound {resolve : String → Option Size} {left right : Value}
    {relation : Relation} {c : Comparison} (h : ofValues resolve left relation right = .ok c) :
    c.IsSound := by
  simp only [ofValues, Lowered.bind_eq_ok] at h
  obtain ⟨f, hf, g, hg, h⟩ := h
  exact isSound_ofForms (LinearForm.isSound_ofValue hf) (LinearForm.isSound_ofValue hg) h

end Comparison
end MemoryTrigger

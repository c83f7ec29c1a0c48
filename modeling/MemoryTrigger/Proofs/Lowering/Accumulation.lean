import MemoryTrigger.Meaning.ConditionTruth
import MemoryTrigger.Proofs.GroupMeaning
import MemoryTrigger.Proofs.Lowering.Comparisons
import MemoryTrigger.Proofs.Lowering.FormValues

/-! # What accumulated rows compare

The rows of a term move the reads of its last row to where its pointer leads, and that row adds the
value of the term to the accumulator, or takes it away, modulo `2 ^ 32`.  Nothing else is carried
along, so the rows of several terms add up (`Term.foldl_step_chains`), and the comparison behind them
tests the sum as a word of 32 bits (`Comparison.truthIn_assemble`, `Comparison.truthIn_balanced?`).
Whether that word is the sum itself is not asked here. -/
namespace MemoryTrigger

/-! ## Signs of 64-bit integers -/

namespace Checked

theorem toInt_ne_minValue {c : Int64} (h : c ≠ Int64.minValue) :
    Int64.minValue.toInt < c.toInt := by
  have hle := c.minValue_le_toInt
  have hne : c.toInt ≠ Int64.minValue.toInt := fun heq => h (Int64.toInt_inj.mp heq)
  omega

theorem toInt_neg {c : Int64} (h : c ≠ Int64.minValue) : (-c).toInt = -c.toInt := by
  have hlow := toInt_ne_minValue h
  have hhigh := c.toInt_lt
  rw [Int64.toInt_minValue] at hlow
  rw [Int64.toInt_neg]
  exact Int.bmod_eq_of_le (by omega) (by omega)

theorem toInt_abs {c : Int64} (h : c ≠ Int64.minValue) : c.abs.toInt = c.toInt.natAbs := by
  have hne : c.toBitVec ≠ BitVec.intMin 64 := fun heq => h (Int64.toBitVec_inj.mp heq)
  exact BitVec.toInt_abs_eq_natAbs_of_ne_intMin hne

theorem natAbs_le_of_ne_minValue {c : Int64} (h : c ≠ Int64.minValue) :
    c.toInt.natAbs ≤ Int64.maxValue.toInt := by
  have hlow := toInt_ne_minValue h
  have hhigh := c.toInt_le
  have hnumbers : Int64.minValue.toInt + 1 = -Int64.maxValue.toInt := by decide
  omega

end Checked

/-! ## One row -/

/-- The sign with which rows of a role feed the accumulator. -/
def Role.sign : Role → Int
  | .subSource => -1
  | _ => 1

namespace ChainState
variable (m : Memory)

/-- An accumulator row adds what it is fed, with the sign of its role. -/
theorem step_accumulator {r : Row} (h : r.role = .addSource ∨ r.role = .subSource)
    (s : ChainState) :
    step m s r = { s with
      base := 0
      sum := s.sum + UInt32.ofInt (r.role.sign * (r.fedValue m s.base).toNat) } := by
  rcases h with h | h
  · simp only [step, h, Role.sign, Int.one_mul, Word.ofInt_toNat]
  · simp only [step, h, Role.sign, Int.neg_mul, Int.one_mul, UInt32.ofInt_neg, Word.ofInt_toNat,
      UInt32.sub_eq_add_neg]

end ChainState

/-! ## Terms -/

namespace Term
variable (m : Memory)

/-- The value of a term without its sign. -/
def sizeIn (t : Term) : Int := t.coefficient.toInt.natAbs * (t.factorAs m none).toNat

/-- The smallest coefficient has no size that a row could multiply by. -/
theorem ne_minValue_of_fedRow {role : Role} {t : Term} {row : Row} (h : t.fedRow role = .ok row) :
    t.coefficient ≠ Int64.minValue := by
  intro hmin
  have habs : t.coefficient.abs = Int64.minValue := by rw [hmin]; decide
  have hone : Int64.minValue ≠ 1 := by decide
  have hliteral (o : Operand) : Operand.ofInt Int64.minValue ≠ .ok o := by
    intro ho
    obtain ⟨w, -, hw⟩ := Operand.eq_literal_of_ofInt ho
    have := Int64.toInt_minValue_lt_zero
    omega
  rw [fedRow_eq_scaledRow, habs] at h
  obtain ⟨-, hscale, -⟩ | ⟨-, right, hright, -⟩ | ⟨a, -, hscale, -⟩ := scaledRow_cases h
  · exact hone hscale
  · exact hliteral right hright
  · exact hone hscale

/-- The row of a term feeds its size. -/
theorem fedValue_fedRow {role : Role} {t : Term} {row : Row} (h : t.fedRow role = .ok row) :
    row.fedValue m (t.cell.baseIn m) = UInt32.ofInt (t.sizeIn m) := by
  rw [sizeIn, ← Checked.toInt_abs (ne_minValue_of_fedRow h)]
  rw [fedRow_eq_scaledRow] at h
  exact fedValue_scaledRow m h

/-- **The rows of a term add its size to the accumulator**, with the sign of their role. -/
theorem foldl_step_accumulate {role : Role} (hrole : role = .addSource ∨ role = .subSource)
    {t : Term} (ht : t.IsSound) {rows : List Row} (h : t.accumulate role = .ok rows)
    {s : ChainState} (hs : s.base = 0) :
    rows.foldl (ChainState.step m) s =
      { s with sum := s.sum + UInt32.ofInt (role.sign * t.sizeIn m) } := by
  simp only [accumulate, Lowered.bind_eq_ok, Lowered.pure_eq_ok] at h
  obtain ⟨row, hrow, rfl⟩ := h
  have hrow' : row.role = role := by
    rw [fedRow_eq_scaledRow] at hrow
    exact role_scaledRow hrow
  rw [List.foldl_append, ChainState.foldl_step_pointers m ht.cell.roles, hs, List.foldl_cons,
    List.foldl_nil, ChainState.step_accumulator m (hrow'.symm ▸ hrole), hrow']
  have hfed := fedValue_fedRow m hrow
  rw [Cell.baseIn] at hfed
  rw [hfed, UInt32.ofInt_mul, Word.ofInt_toNat, ← UInt32.ofInt_mul, ← hs]

/-- Terms that are fed one after another add up. -/
theorem foldl_step_chains {role : Term → Role}
    (hrole : ∀ t, role t = .addSource ∨ role t = .subSource) {ts : List Term}
    (hts : ∀ t ∈ ts, t.IsSound) {chains : List (List Row)}
    (h : ts.mapM (fun t => t.accumulate (role t)) = .ok chains) {s : ChainState}
    (hs : s.base = 0) :
    chains.flatten.foldl (ChainState.step m) s =
      { s with sum := s.sum + UInt32.ofInt (total (fun t => (role t).sign * t.sizeIn m) ts) } := by
  induction Lowered.mapM_eq_ok.mp h generalizing s with
  | nil => simp [UInt32.ofInt]
  | cons hrows hrest ih =>
    rename_i t rows ts chains
    obtain ⟨ht, hts⟩ := List.forall_mem_cons.mp hts
    let s' : ChainState := { s with sum := s.sum + UInt32.ofInt ((role t).sign * t.sizeIn m) }
    have hs' : s'.base = 0 := hs
    rw [List.flatten_cons, List.foldl_append, foldl_step_accumulate m (hrole t) ht hrows hs,
      ih hts (Lowered.mapM_eq_ok.mpr hrest) hs', total_cons, UInt32.ofInt_add, ← UInt32.add_assoc]

theorem signRole_eq (t : Term) : t.signRole = .addSource ∨ t.signRole = .subSource := by
  unfold signRole
  split
  · exact .inl rfl
  · exact .inr rfl

/-- The sign of a term and its size make up its value. -/
theorem sign_mul_sizeIn (t : Term) : t.signRole.sign * t.sizeIn m = t.valueAs m none := by
  have hzero : (0 : Int64).toInt = 0 := rfl
  unfold signRole
  rw [sizeIn, valueAs]
  split
  · rename_i hpos
    rw [Int64.lt_iff_toInt_lt, hzero] at hpos
    have hsize : (t.coefficient.toInt.natAbs : Int) = t.coefficient.toInt := by omega
    rw [hsize, Role.sign, Int.one_mul]
    all_goals simp
  · rename_i hneg
    rw [Int64.lt_iff_toInt_lt, hzero] at hneg
    have hsize : (t.coefficient.toInt.natAbs : Int) = -t.coefficient.toInt := by omega
    rw [hsize, Role.sign, Int.neg_mul, Int.one_mul, Int.neg_mul, Int.neg_neg]

/-- A term that can stand on a row as it is does not have the smallest coefficient. -/
theorem ne_minValue_of_isPlain {t : Term} (h : t.isPlain = true) :
    t.coefficient ≠ Int64.minValue := by
  intro hmin
  have habs : t.coefficient.abs = 1 := eq_of_beq (Bool.and_eq_true_iff.mp h).2
  rw [hmin] at habs
  exact absurd habs (by decide)

/-- A plain term is as large as its read. -/
theorem sizeIn_of_isPlain {t : Term} (h : t.isPlain = true) :
    t.sizeIn m = (t.cell.readAs m none).toNat := by
  obtain ⟨hmodifier, habs⟩ : t.modifier = none ∧ t.coefficient.abs = 1 := by
    simpa [isPlain] using h
  have hsize : (t.coefficient.toInt.natAbs : Int) = 1 := by
    rw [← Checked.toInt_abs (ne_minValue_of_isPlain h), habs]
    rfl
  rw [sizeIn, hsize, Int.one_mul, factorAs, hmodifier]

/-- A sum of which one term is set aside. -/
theorem ofInt_total_split {f : Term → Int} {t : Term} {x : UInt32} (h : f t = x.toNat)
    {offset : Int} {before behind : List Term} :
    UInt32.ofInt (offset + total f (before ++ t :: behind)) =
      x + UInt32.ofInt (offset + total f (before ++ behind)) := by
  have hsum : offset + total f (before ++ t :: behind) =
      x.toNat + (offset + total f (before ++ behind)) := by
    rw [total_append, total_append, total_cons, h]
    omega
  rw [hsum, UInt32.ofInt_add, Word.ofInt_toNat]

end Term

/-! ## Comparisons behind feeding rows -/

/-- A number that fits 32 bits, as a literal. -/
theorem Operand.eq_literal_of_ofNumber {n : Int} (hmin : Int64.minValue.toInt ≤ n)
    (hmax : n ≤ Int64.maxValue.toInt) {o : Operand} (h : Operand.ofNumber n = .ok o) :
    o = .literal (UInt32.ofInt n) ∧ 0 ≤ n ∧ n < UInt32.size := by
  obtain ⟨w, rfl, hw⟩ := eq_literal_of_ofInt h
  rw [Int64.toInt_minValue] at hmin
  rw [Int64.toInt_maxValue] at hmax
  rw [Int64.toInt_ofInt_of_le hmin (by omega)] at hw
  have hlt := w.toNat_lt_size
  refine ⟨?_, by omega, by omega⟩
  rw [← hw, Word.ofInt_toNat]

namespace Comparison
variable (m : Memory)

/-- Rows that feed and then compare test one sum. -/
theorem truthIn_rows {lead : List Row} (hlead : ∀ r ∈ lead, r.IsFeeding) (left : Operand)
    (relation : Relation) (right : Operand) :
    truthIn m (.rows (lead ++ [.comparing left relation right])) =
      relation.holds (left.valueIn m (lead.foldl (ChainState.step m) {}).base +
          (lead.foldl (ChainState.step m) {}).sum)
        (right.valueIn m (lead.foldl (ChainState.step m) {}).base) := by
  let c : Clause := ⟨lead, .comparing left relation right⟩
  have hmodifiers : c.lead.all (·.role.isModifier) = true :=
    List.all_eq_true.mpr fun r hr => (hlead r hr).role
  have hcombining : ∀ r ∈ c.lead, r.role.isCombining = true := by
    intro r hr
    have hrole := (hlead r hr).role
    cases hr' : r.role <;> simp_all [Role.isModifier, Role.isCombining]
  have hsplit : Clause.split (lead ++ [.comparing left relation right]) = [c] := by
    have := Clause.split_rows_append (c := c) ⟨hcombining, rfl⟩ []
    rwa [List.append_nil] at this
  rw [truthIn, hsplit, List.all_cons, List.all_nil, Bool.and_true,
    Clause.holdsIn_of_hits_eq_zero m (c := c) rfl, Clause.truthOf_of_modifiers m hmodifiers]
  rfl

theorem foldl_step_offsetRows {offset : Int} (h0 : 0 ≤ offset)
    (hmax : offset ≤ Int64.maxValue.toInt) {rows : List Row} (h : offsetRows offset = .ok rows) :
    rows.foldl (ChainState.step m) {} = { sum := UInt32.ofInt offset } := by
  unfold offsetRows at h
  split at h
  · simp only [Lowered.bind_eq_ok, Lowered.pure_eq_ok] at h
    obtain ⟨value, hvalue, rfl⟩ := h
    have hmin := Int64.toInt_minValue_lt_zero
    obtain ⟨rfl, -, -⟩ := Operand.eq_literal_of_ofNumber (by omega) hmax hvalue
    simp [ChainState.step, Row.modifier, Row.fedValue, Operand.valueIn, Operand.literal]
  · cases h
    obtain rfl : offset = 0 := by omega
    rfl

/-- An offset, then accumulated terms, then a comparison behind a pointer. -/
theorem truthIn_accumulated {offset : Int} (h0 : 0 ≤ offset) (hmax : offset ≤ Int64.maxValue.toInt)
    {start : List Row} (hstart : offsetRows offset = .ok start) {role : Term → Role}
    (hrole : ∀ t, role t = .addSource ∨ role t = .subSource) {ts : List Term}
    (hts : ∀ t ∈ ts, t.IsSound) {chains : List (List Row)}
    (hchains : ts.mapM (fun t => t.accumulate (role t)) = .ok chains) {pointer : List Row}
    (hpointer : ∀ r ∈ pointer, r.IsFeeding) (hroles : ∀ r ∈ pointer, r.role = .addAddress)
    (left : Operand) (relation : Relation) (right : Operand) :
    truthIn m (.rows (start ++ chains.flatten ++ pointer ++ [.comparing left relation right])) =
      relation.holds (left.valueIn m (pointer.foldl (fun base r => r.fedValue m base) 0) +
          UInt32.ofInt (offset + Term.total (fun t => (role t).sign * t.sizeIn m) ts))
        (right.valueIn m (pointer.foldl (fun base r => r.fedValue m base) 0)) := by
  have hmodifier (t : Term) : (role t).isModifier = true := by
    rcases hrole t with h | h <;> rw [h] <;> rfl
  have hlead : ∀ r ∈ start ++ chains.flatten ++ pointer, r.IsFeeding :=
    List.forall_mem_append.mpr ⟨List.forall_mem_append.mpr
      ⟨isFeeding_offsetRows hstart, Term.isFeeding_chains role hmodifier hts hchains⟩, hpointer⟩
  rw [truthIn_rows m hlead, List.foldl_append, List.foldl_append,
    foldl_step_offsetRows m h0 hmax hstart, Term.foldl_step_chains m hrole hts hchains rfl,
    ChainState.foldl_step_pointers m hroles, UInt32.ofInt_add]

/-- **Assembled rows compare the sum of their terms**, raised by the offset, as a word of 32 bits. -/
theorem truthIn_assemble {offset : Int} (h0 : 0 ≤ offset) (hmax : offset ≤ Int64.maxValue.toInt)
    {terms : List Term} (hterms : ∀ t ∈ terms, t.IsSound) {relation : Relation} {w : UInt32}
    {rows : List Row} (h : assemble offset terms relation (.literal w) = .ok rows) :
    truthIn m (.rows rows) =
      relation.holds (UInt32.ofInt (offset + Term.total (Term.valueAs m none) terms)) w := by
  simp only [assemble, Lowered.bind_eq_ok] at h
  obtain ⟨start, hstart, h⟩ := h
  have hsigned : (fun t : Term => t.signRole.sign * t.sizeIn m) = Term.valueAs m none :=
    funext fun t => t.sign_mul_sizeIn m
  split at h
  · rename_i before last behind hsplit
    obtain ⟨hmem, hothers⟩ := mem_of_splitLast? hsplit
    obtain ⟨rfl, hlast⟩ := eq_append_of_splitLast? hsplit
    obtain ⟨hplain, hpositive⟩ := Bool.and_eq_true_iff.mp hlast
    simp only [Lowered.bind_eq_ok, Lowered.pure_eq_ok] at h
    obtain ⟨chains, hchains, rfl⟩ := h
    have hcell := (hterms last hmem).cell
    -- the term that the comparison reads is added as it is
    have hvalue : last.valueAs m none = (last.cell.readAs m none).toNat := by
      rw [← Term.sign_mul_sizeIn, Term.sizeIn_of_isPlain m hplain, Term.signRole,
        if_pos (of_decide_eq_true hpositive)]
      exact Int.one_mul _
    rw [truthIn_accumulated m h0 hmax hstart Term.signRole_eq
      (fun t ht => hterms t (hothers t ht)) hchains hcell.pointer hcell.roles, hsigned,
      Term.ofInt_total_split hvalue, Cell.readAs, Operand.seenAs_none]
    rfl
  · simp only [Lowered.bind_eq_ok, Lowered.pure_eq_ok] at h
    obtain ⟨chains, hchains, rfl⟩ := h
    have htruth := truthIn_accumulated m h0 hmax hstart Term.signRole_eq hterms hchains
      (List.forall_mem_nil _) (List.forall_mem_nil _) (.literal 0) relation (.literal w)
    rw [List.append_nil] at htruth
    rw [htruth, hsigned]
    simp [Operand.valueIn, Operand.literal]

/-- Rows with one side moved across compare the sizes of both sides. -/
theorem truthIn_balanced? {sum other : List Term} (hsum : ∀ t ∈ sum, t.IsSound) {offset : Int}
    (h0 : 0 ≤ offset) (hmax : offset ≤ Int64.maxValue.toInt) {relation : Relation}
    {rows : List Row} (h : balanced? sum other offset relation = .ok (some rows)) :
    truthIn m (.rows rows) =
      relation.holds (UInt32.ofInt (offset + Term.total (Term.sizeIn m) sum))
        (UInt32.ofInt (Term.total (Term.sizeIn m) other)) := by
  unfold balanced? at h
  split at h
  · rename_i compared before last behind hsplit
    obtain ⟨hmem, hothers⟩ := mem_of_splitLast? hsplit
    obtain ⟨rfl, hlast⟩ := eq_append_of_splitLast? hsplit
    split at h
    · rename_i hcompared
      obtain ⟨hplain, hpointer⟩ : compared.isPlain = true ∧
          last.cell.pointer = compared.cell.pointer := by simpa using hcompared
      simp only [Lowered.bind_eq_ok, Lowered.pure_eq_ok, Option.some.injEq] at h
      obtain ⟨start, hstart, chains, hchains, rfl⟩ := h
      have hcell := (hsum last hmem).cell
      have hadded : (fun t : Term => Role.addSource.sign * t.sizeIn m) = Term.sizeIn m :=
        funext fun t => Int.one_mul _
      have hright : Term.total (Term.sizeIn m) [compared] = (compared.cell.readAs m none).toNat := by
        rw [Term.total_cons, Term.total_nil, Int.add_zero, Term.sizeIn_of_isPlain m hplain]
      rw [truthIn_accumulated m h0 hmax hstart (fun _ => .inl rfl)
        (fun t ht => hsum t (hothers t ht)) hchains hcell.pointer hcell.roles, hadded,
        Term.ofInt_total_split (Term.sizeIn_of_isPlain m hlast), hright, Word.ofInt_toNat,
        Cell.readAs, Cell.readAs, Operand.seenAs_none, Operand.seenAs_none, Cell.baseIn,
        Cell.baseIn, hpointer]
    · simp at h
  · simp at h

/-- Two reads behind one pointer are compared as they are. -/
theorem truthIn_cells {a b : Cell} (ha : a.IsSound) (hpointer : a.pointer = b.pointer)
    (relation : Relation) :
    truthIn m (.rows (a.pointer ++ [.comparing a.operand relation b.operand])) =
      relation.holds (a.readAs m none) (b.readAs m none) := by
  rw [truthIn_rows m ha.pointer, ChainState.foldl_step_pointers m ha.roles, Cell.readAs, Cell.readAs,
    Operand.seenAs_none, Operand.seenAs_none, Cell.baseIn, Cell.baseIn, ← hpointer]
  exact congrArg (relation.holds · _) (UInt32.add_zero _)

end Comparison
end MemoryTrigger

import MemoryTrigger.Proofs.Lowering.Compensation
import MemoryTrigger.Proofs.Lowering.ErrorLocations

/-! # Where the arithmetic overflows

Sums and products of 64-bit integers are refused where they leave their range, and what raises an
order saturates.  Quotients are not checked, and neither are negations and absolute values.

A quotient leaves the range only when the smallest integer is divided by minus one, and an expression
overflows exactly where its lowering comes to such a quotient (`LinearForm.ofValue_eq_overflow_iff`).
What is done to the difference of a comparison afterwards stays in range as long as no coefficient is
the smallest integer (`LinearForm.plainResults_fit_iff`). -/
namespace MemoryTrigger

namespace Lowered
variable {α β : Type}

theorem bind_eq_overflow {x : Lowered α} {k : α → Lowered β} :
    (x >>= k) = .error .overflow ↔
      x = .error .overflow ∨ ∃ a, x = .ok a ∧ k a = .error .overflow := by
  cases x with
  | error e => simp [bind, Except.bind]
  | ok a => simp [bind, Except.bind]

theorem Fails.ne_overflow {x : Lowered α} (h : x.Fails Failure.IsRefusal) :
    x ≠ .error .overflow := fun hx => h _ hx

/-- What follows a step without overflowing leaves it to the step. -/
theorem bind_eq_overflow_iff {x : Lowered α} {k : α → Lowered β}
    (hk : ∀ a, (k a).Fails Failure.IsRefusal) :
    (x >>= k) = .error .overflow ↔ x = .error .overflow := by
  rw [bind_eq_overflow]
  exact or_iff_left fun ⟨a, _, ha⟩ => (hk a).ne_overflow ha

end Lowered

/-! ## Quotients -/

namespace Checked

/-- The number is a 64-bit integer. -/
def InRange (n : Int) : Prop := Int64.minValue.toInt ≤ n ∧ n ≤ Int64.maxValue.toInt

theorem inRange_of_natAbs_le {n : Int} (h : n.natAbs ≤ Int64.maxValue.toInt) : InRange n := by
  have hnumbers : Int64.minValue.toInt + 1 = -Int64.maxValue.toInt := by decide
  constructor <;> omega

theorem inRange_tdiv_of_ne_minValue {n : Int64} (h : n ≠ Int64.minValue) (k : Int) :
    InRange (n.toInt.tdiv k) := by
  apply inRange_of_natAbs_le
  have hle := natAbs_le_of_ne_minValue h
  have hsmaller := Int.natAbs_tdiv_le_natAbs n.toInt k
  omega

/-- A divisor other than minus one is one, or zero, or halves the smallest integer at least. -/
theorem inRange_minValue_tdiv {k : Int} (h : k ≠ -1) : InRange (Int64.minValue.toInt.tdiv k) := by
  by_cases hone : k = 1
  · rw [hone, Int.tdiv_one]
    exact ⟨Int.le_refl _, by decide⟩
  have habs : (Int64.minValue.toInt.tdiv k).natAbs = 9223372036854775808 / k.natAbs :=
    Int.natAbs_tdiv _ _
  have hmax : Int64.maxValue.toInt = 9223372036854775807 := rfl
  apply inRange_of_natAbs_le
  rw [habs, hmax]
  by_cases hzero : k.natAbs = 0
  · rw [hzero]
    decide
  · have hhalf : 9223372036854775808 / k.natAbs ≤ 9223372036854775808 / 2 :=
      Nat.div_le_div_left (by omega) (by decide)
    omega

/-- The smallest integer over minus one is the only quotient that leaves the range. -/
theorem not_inRange_tdiv_iff (n k : Int64) :
    ¬InRange (n.toInt.tdiv k.toInt) ↔ n = Int64.minValue ∧ k = -1 := by
  constructor
  · intro h
    have hn : n = Int64.minValue := by
      by_contra hn
      exact h (inRange_tdiv_of_ne_minValue hn k.toInt)
    refine ⟨hn, ?_⟩
    by_contra hk
    apply h
    rw [hn]
    exact inRange_minValue_tdiv fun heq => hk (Int64.toInt_inj.mp heq)
  · rintro ⟨rfl, rfl⟩ ⟨-, hmax⟩
    exact absurd hmax (by decide)

end Checked

namespace LinearForm

/-- The numbers in a form. -/
def numbers (f : LinearForm) : List Int64 := f.constant :: f.terms.map Term.coefficient

/-- The divisor is a constant, and some quotient by it leaves the 64-bit range. -/
def OverflowsOver (f g : LinearForm) : Prop :=
  g.isConstant = true ∧ ∃ n ∈ f.numbers, ¬Checked.InRange (n.toInt.tdiv g.constant.toInt)

theorem overflowsBy_iff {f : LinearForm} {divisor : Int64} :
    f.overflowsBy divisor = true ↔
      ∃ n ∈ f.numbers, ¬Checked.InRange (n.toInt.tdiv divisor.toInt) := by
  simp only [Checked.not_inRange_tdiv_iff, overflowsBy, Bool.and_eq_true, Bool.or_eq_true,
    beq_iff_eq, List.any_eq_true]
  constructor
  · rintro ⟨hdivisor, hconstant | ⟨t, ht, hcoefficient⟩⟩
    · exact ⟨f.constant, List.mem_cons_self, hconstant, hdivisor⟩
    · exact ⟨t.coefficient, List.mem_cons_of_mem _ (List.mem_map_of_mem ht), hcoefficient, hdivisor⟩
  · rintro ⟨n, hn, hmin, hdivisor⟩
    refine ⟨hdivisor, ?_⟩
    rcases List.mem_cons.mp hn with rfl | hn
    · exact .inl hmin
    · obtain ⟨t, ht, rfl⟩ := List.mem_map.mp hn
      exact .inr ⟨t, ht, hmin⟩

theorem divided_eq_overflow_iff {f g : LinearForm} :
    f.divided g = .error .overflow ↔ f.OverflowsOver g := by
  rw [OverflowsOver, ← overflowsBy_iff]
  unfold divided
  by_cases hconstant : g.isConstant = true
  · rw [if_pos hconstant]
    constructor
    · intro h
      refine ⟨hconstant, ?_⟩
      by_contra hfits
      exact (fails_dividedBy (eq_false_of_ne_true hfits)).ne_overflow h
    · exact fun h => dividedBy_of_overflowsBy h.2
  · rw [if_neg hconstant]
    refine iff_of_false ?_ fun h => hconstant h.1
    split
    · simp
    · exact (Lowered.fails_reject rfl).ne_overflow

end LinearForm

/-! ## Expressions -/

namespace Value

/-- The operands of an operation. -/
def operands? : Value → Option (Value × Value)
  | add a b | sub a b | mul a b | div a b | mask a b => some (a, b)
  | _ => none

/-- Lowering the first expression comes to the second: an address once its accessor is known, and a
right operand once the left one has a form. -/
inductive Reaches (resolve : String → Option Size) : Value → Value → Prop where
  | here (v : Value) : Reaches resolve v v
  | address {accessor : String} {size : Size} {address u : Value}
      (hsize : resolve accessor = some size) (h : Reaches resolve address u) :
      Reaches resolve (.read accessor address) u
  | viewed {view : View} {v u : Value} (h : Reaches resolve v u) :
      Reaches resolve (.viewed view v) u
  | left {v a b u : Value} (hv : v.operands? = some (a, b)) (h : Reaches resolve a u) :
      Reaches resolve v u
  | right {v a b u : Value} {f : LinearForm} (hv : v.operands? = some (a, b))
      (ha : LinearForm.ofValue resolve a = .ok f) (h : Reaches resolve b u) : Reaches resolve v u

/-- Lowering comes to a quotient that leaves the 64-bit range. -/
def Overflows (resolve : String → Option Size) (v : Value) : Prop :=
  ∃ a b f g, v.Reaches resolve (.div a b) ∧ LinearForm.ofValue resolve a = .ok f ∧
    LinearForm.ofValue resolve b = .ok g ∧ f.OverflowsOver g

variable {resolve : String → Option Size}

/-- An operation overflows in an operand, or is a quotient that does. -/
theorem overflows_iff_of_operands {v a b : Value} (hv : v.operands? = some (a, b)) :
    v.Overflows resolve ↔ a.Overflows resolve ∨
      (∃ f, LinearForm.ofValue resolve a = .ok f ∧ b.Overflows resolve) ∨
      ∃ f g, LinearForm.ofValue resolve a = .ok f ∧ LinearForm.ofValue resolve b = .ok g ∧
        v = .div a b ∧ f.OverflowsOver g := by
  constructor
  · rintro ⟨x, y, f, g, hreaches, hx, hy, hover⟩
    cases hreaches with
    | here =>
      cases hv
      exact .inr (.inr ⟨f, g, hx, hy, rfl, hover⟩)
    | address hsize h => cases hv
    | viewed h => cases hv
    | left hv' h =>
      cases hv.symm.trans hv'
      exact .inl ⟨x, y, f, g, h, hx, hy, hover⟩
    | right hv' ha h =>
      cases hv.symm.trans hv'
      exact .inr (.inl ⟨_, ha, x, y, f, g, h, hx, hy, hover⟩)
  · rintro (⟨x, y, f, g, h, hquotient⟩ | ⟨k, ha, x, y, f, g, h, hquotient⟩ |
      ⟨f, g, ha, hb, rfl, hover⟩)
    · exact ⟨x, y, f, g, .left hv h, hquotient⟩
    · exact ⟨x, y, f, g, .right hv ha h, hquotient⟩
    · exact ⟨a, b, f, g, .here _, ha, hb, hover⟩

theorem overflows_read_iff {accessor : String} {address : Value} :
    (read accessor address).Overflows resolve ↔
      ∃ size, resolve accessor = some size ∧ address.Overflows resolve := by
  constructor
  · rintro ⟨x, y, f, g, hreaches, hquotient⟩
    cases hreaches with
    | address hsize h => exact ⟨_, hsize, x, y, f, g, h, hquotient⟩
    | left hv h => cases hv
    | right hv ha h => cases hv
  · rintro ⟨size, hsize, x, y, f, g, h, hquotient⟩
    exact ⟨x, y, f, g, .address hsize h, hquotient⟩

theorem overflows_viewed_iff {view : View} {v : Value} :
    (viewed view v).Overflows resolve ↔ v.Overflows resolve := by
  constructor
  · rintro ⟨x, y, f, g, hreaches, hquotient⟩
    cases hreaches with
    | viewed h => exact ⟨x, y, f, g, h, hquotient⟩
    | left hv h => cases hv
    | right hv ha h => cases hv
  · rintro ⟨x, y, f, g, h, hquotient⟩
    exact ⟨x, y, f, g, .viewed h, hquotient⟩

theorem not_overflows_constant (n : Int64) : ¬(constant n).Overflows resolve := by
  rintro ⟨x, y, f, g, hreaches, -⟩
  cases hreaches with
  | left hv h => cases hv
  | right hv ha h => cases hv

end Value

namespace LinearForm
open Lowered
variable {resolve : String → Option Size}

/-- An operation overflows as its operands do, or by itself if it is a quotient. -/
theorem ofValue_eq_overflow_iff_of_operands {v a b : Value} (hv : v.operands? = some (a, b))
    {k : LinearForm → LinearForm → Lowered LinearForm}
    (heq : ofValue resolve v = ofValue resolve a >>= fun f => ofValue resolve b >>= k f)
    (hk : ∀ f g, k f g = .error .overflow ↔ v = .div a b ∧ f.OverflowsOver g)
    (ha : ofValue resolve a = .error .overflow ↔ a.Overflows resolve)
    (hb : ofValue resolve b = .error .overflow ↔ b.Overflows resolve) :
    ofValue resolve v = .error .overflow ↔ v.Overflows resolve := by
  rw [heq, Value.overflows_iff_of_operands hv, bind_eq_overflow, ha]
  simp only [bind_eq_overflow, hb, hk, and_or_left, exists_or, ← exists_and_left]

/-- **An expression overflows exactly where its lowering comes to a quotient that does.** -/
theorem ofValue_eq_overflow_iff (v : Value) :
    ofValue resolve v = .error .overflow ↔ v.Overflows resolve := by
  induction v with
  | constant n => exact iff_of_false (by simp [ofValue]) (Value.not_overflows_constant n)
  | read accessor address ih =>
    rw [Value.overflows_read_iff, ← ih, ofValue]
    cases hsize : resolve accessor with
    | none => exact iff_of_false (by simp [require, reject, bind, Except.bind]) (by simp)
    | some size =>
      have hrest := bind_eq_overflow_iff (x := ofValue resolve address) fun form =>
        (fails_cellAt size form).bind fun cell => fails_pure (ofCell cell)
      exact hrest.trans (by simp)
  | viewed view v ih =>
    rw [Value.overflows_viewed_iff, ← ih]
    exact bind_eq_overflow_iff fun form => fails_viewedAs view form
  | add a b iha ihb =>
    refine ofValue_eq_overflow_iff_of_operands rfl rfl (fun f g => ?_) iha ihb
    exact iff_of_false (fails_plus f g).ne_overflow (by simp)
  | sub a b iha ihb =>
    refine ofValue_eq_overflow_iff_of_operands rfl rfl (fun f g => ?_) iha ihb
    refine iff_of_false (Fails.ne_overflow ?_) (by simp)
    exact (fails_scaled g _).bind fun _ => fails_plus f _
  | mul a b iha ihb =>
    refine ofValue_eq_overflow_iff_of_operands rfl rfl (fun f g => ?_) iha ihb
    exact iff_of_false (fails_times f g).ne_overflow (by simp)
  | div a b iha ihb =>
    refine ofValue_eq_overflow_iff_of_operands rfl rfl (fun f g => ?_) iha ihb
    rw [divided_eq_overflow_iff, and_iff_right rfl]
  | mask a b iha ihb =>
    refine ofValue_eq_overflow_iff_of_operands rfl rfl (fun f g => ?_) iha ihb
    exact iff_of_false (fails_masked f g).ne_overflow (by simp)

/-! ## Differences -/

/-- What solving for a scaled read computes from its bound: the remainder, the quotient rounded down,
and its negation. -/
def solvingResults (bound scale : Int) : List Int :=
  [bound.tmod scale, bound / scale, -(bound / scale)]

/-- What lowering a difference computes without a check, over the integers: its bound and the negation
of it, the absolute values of its coefficients, which is also what negating a negative one gives, and
what solving for a read computes from these. -/
def plainResults (d : LinearForm) : List Int :=
  let bound := -d.constant.toInt
  bound :: -bound :: d.terms.flatMap fun t =>
    let scale : Int := t.coefficient.toInt.natAbs
    scale :: (solvingResults bound scale ++ solvingResults (-bound) scale)

theorem inRange_solvingResults {bound : Int} (h : bound.natAbs ≤ Int64.maxValue.toInt)
    (scale : Int) : ∀ n ∈ solvingResults bound scale, Checked.InRange n := by
  have hquotient := Int.natAbs_ediv_le_natAbs bound scale
  have hrest : (bound.tmod scale).natAbs ≤ bound.natAbs := by
    rw [Int.natAbs_tmod]
    exact Nat.mod_le _ _
  intro n hn
  apply Checked.inRange_of_natAbs_le
  simp only [solvingResults, List.mem_cons, List.not_mem_nil, or_false] at hn
  rcases hn with rfl | rfl | rfl <;> omega

theorem mem_solvingResults_of_solvedBound? {relation : Relation} {bound scale solved : Int}
    (h : Comparison.solvedBound? relation bound scale = some solved) :
    solved ∈ solvingResults bound scale ∨ solved ∈ solvingResults (-bound) scale := by
  cases relation with
  | eq | ne =>
    simp only [Comparison.solvedBound?] at h
    split at h
    · cases h
      exact .inl (by simp [solvingResults])
    · cases h
  | gt | le =>
    cases h
    exact .inl (by simp [solvingResults])
  | ge | lt =>
    cases h
    exact .inr (by simp [solvingResults])

/-- Whatever is solved for, with the bound or its negation, is one of these results. -/
theorem solvedBound?_mem_plainResults {d : LinearForm} {t : Term} (ht : t ∈ d.terms)
    {relation : Relation} {bound solved : Int}
    (hbound : bound = -d.constant.toInt ∨ bound = d.constant.toInt)
    (h : Comparison.solvedBound? relation bound t.coefficient.toInt.natAbs = some solved) :
    solved ∈ d.plainResults := by
  have hmem := mem_solvingResults_of_solvedBound? h
  refine List.mem_cons_of_mem _ (List.mem_cons_of_mem _ (List.mem_flatMap.mpr ⟨t, ht, ?_⟩))
  refine List.mem_cons_of_mem _ (List.mem_append.mpr ?_)
  rcases hbound with rfl | rfl
  · exact hmem
  · rw [Int.neg_neg]
    exact hmem.symm

/-- **Nothing that is computed without a check leaves the range**, unless a coefficient has no
negation. -/
theorem plainResults_fit_iff {d : LinearForm} (h : d.constant ≠ Int64.minValue) :
    (∀ n ∈ d.plainResults, Checked.InRange n) ↔
      ∀ t ∈ d.terms, t.coefficient ≠ Int64.minValue := by
  have hbound := Checked.natAbs_le_of_ne_minValue h
  have hnegated : (-d.constant.toInt).natAbs ≤ Int64.maxValue.toInt := by omega
  have hrestored : (- -d.constant.toInt).natAbs ≤ Int64.maxValue.toInt := by omega
  constructor
  · intro hfit t ht hmin
    have hscale : ((t.coefficient.toInt.natAbs : Nat) : Int) ∈ d.plainResults :=
      List.mem_cons_of_mem _ (List.mem_cons_of_mem _
        (List.mem_flatMap.mpr ⟨t, ht, List.mem_cons_self⟩))
    have hmax := (hfit _ hscale).2
    rw [hmin] at hmax
    exact absurd hmax (by decide)
  · intro hterms n hn
    rcases List.mem_cons.mp hn with rfl | hn
    · exact Checked.inRange_of_natAbs_le hnegated
    rcases List.mem_cons.mp hn with rfl | hn
    · exact Checked.inRange_of_natAbs_le hrestored
    obtain ⟨t, ht, hn⟩ := List.mem_flatMap.mp hn
    rcases List.mem_cons.mp hn with rfl | hn
    · have hscale := Checked.natAbs_le_of_ne_minValue (hterms t ht)
      exact Checked.inRange_of_natAbs_le (by omega)
    rcases List.mem_append.mp hn with hn | hn
    · exact inRange_solvingResults hnegated _ n hn
    · exact inRange_solvingResults hrestored _ n hn

end LinearForm

/-! ## Conditions -/

namespace Occurrence

/-- Lowering one side of the comparison comes to a quotient that leaves the 64-bit range; the right
side is lowered once the left one has a form. -/
def Overflows (s : Setting) (o : Occurrence) : Prop :=
  o.left.Overflows s.resolve ∨
    ∃ f, LinearForm.ofValue s.resolve o.left = .ok f ∧ o.right.Overflows s.resolve

theorem rows_eq_overflow_iff (s : Setting) (o : Occurrence) :
    o.rows s = .error .overflow ↔ o.Overflows s := by
  have hrows : o.rows s = .error .overflow ↔
      Comparison.ofValues s.resolve o.left o.relation o.right = .error .overflow :=
    Lowered.bind_eq_overflow_iff fun c => c.fails_toRows s.options
  rw [hrows, Comparison.ofValues, Lowered.bind_eq_overflow, LinearForm.ofValue_eq_overflow_iff]
  refine or_congr_right (exists_congr fun f => and_congr_right fun _ => ?_)
  rw [← LinearForm.ofValue_eq_overflow_iff]
  exact Lowered.bind_eq_overflow_iff fun g => Comparison.fails_ofForms f o.relation g

end Occurrence

/-- **Where lowering overflows.**  A condition compiles or is refused, unless one of its comparisons
overflows; and a comparison does exactly where it comes to a quotient that leaves the 64-bit range.
Everything else that is computed without a check, the bounds that are solved for among it, stays in
the range for a difference in which no coefficient is the smallest integer, and only for these. -/
theorem Trigger.overflow_of_compile (s : Setting) (c : Condition) :
    ((∃ t, compile s c = .ok t) ∨ (∃ e, compile s c = .error (.rejected e)) ∨
      compile s c = .error .overflow ∧ ∃ o ∈ c.comparisons, o.Overflows s) ∧
    (∀ o ∈ c.comparisons, o.rows s = .error .overflow ↔ o.Overflows s) ∧
    ∀ o ∈ c.comparisons, ∀ f g d, Comparison.HasForms s.resolve o.left o.right f g d →
      d.constant ≠ Int64.minValue →
      ((∀ n ∈ d.plainResults, Checked.InRange n) ↔
        ∀ t ∈ d.terms, t.coefficient ≠ Int64.minValue) ∧
      ∀ t ∈ d.terms, ∀ relation bound solved,
        bound = -d.constant.toInt ∨ bound = d.constant.toInt →
        Comparison.solvedBound? relation bound t.coefficient.toInt.natAbs = some solved →
        solved ∈ d.plainResults := by
  refine ⟨?_, fun o _ => o.rows_eq_overflow_iff s, fun o _ f g d _ hd =>
    ⟨LinearForm.plainResults_fit_iff hd, fun t ht _ _ _ hbound hsolved =>
      LinearForm.solvedBound?_mem_plainResults ht hbound hsolved⟩⟩
  cases hcompile : compile s c with
  | ok t => exact .inl ⟨t, rfl⟩
  | error failure =>
    cases failure with
    | rejected e => exact .inr (.inl ⟨e, rfl⟩)
    | overflow =>
      obtain ⟨o, ho, hrows⟩ := fails_compile s c _ hcompile
      exact .inr (.inr ⟨rfl, o, ho, (o.rows_eq_overflow_iff s).mp hrows⟩)

/-- The smallest integer over minus one, in the address of a read. -/
def Condition.negatedSmallest : Condition :=
  .and (.compare (.read "byte" (.constant 1)) .eq (.constant 1))
    (.resetIf (.compare (.read "word" (.div (.constant Int64.minValue) (.constant (-1)))) .eq
      (.constant 0)))

theorem Trigger.overflow_of_compile_negatedSmallest :
    compile {} Condition.negatedSmallest = .error .overflow ∧
      ∃ o ∈ Condition.negatedSmallest.comparisons, o.Overflows {} := by
  have hcompile : compile {} Condition.negatedSmallest = .error .overflow := by decide +kernel
  obtain ⟨⟨t, ht⟩ | ⟨e, he⟩ | hoverflow, -, -⟩ := overflow_of_compile {} Condition.negatedSmallest
  · rw [hcompile] at ht
    cases ht
  · rw [hcompile] at he
    cases he
  · exact hoverflow

end MemoryTrigger

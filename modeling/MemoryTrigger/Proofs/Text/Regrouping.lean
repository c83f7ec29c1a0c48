import MemoryTrigger.Condition.Text
import MemoryTrigger.Meaning.IntegerValue
import MemoryTrigger.Proofs.IntegerBits
import MemoryTrigger.Wire.Writer

/-! # Values grouped from the left

The text of a value shows a bracket only around a sum: behind a minus sign, and inside a product, a
quotient or a mask.  A chain of `+` and `-`, or of `*`, `/` and `&`, is written without brackets
however it is grouped.  `Value.regrouped` groups every such chain from the left, which does not
change the text (`text_regrouped`).

Regrouping sums does not change the value.  Regrouping products does, unless everything on the right
is multiplied by a product, or masked by a mask (`Value.isWellGrouped`, `valueAs_regrouped`):
`2 * (3 / 2)` is regrouped to `(2 * 3) / 2`. -/
namespace MemoryTrigger
namespace Value

/-- A product, a quotient or a mask. -/
def arith : Arithmetic → Value → Value → Value
  | .mul => mul
  | .div => div
  | .mask => mask

/-- Whether the value is a product, a quotient or a mask. -/
def isProduct : Value → Bool
  | mul _ _ | div _ _ | mask _ _ => true
  | _ => false

/-- `x + y`, with the terms of `y` added to `x` one after another. -/
def joinSum (x : Value) : Value → Value
  | add c d => add (joinSum x c) d
  | sub c d => sub (joinSum x c) d
  | y => add x y

/-- The operation on `x` and `y`, with the factors of `y` applied to `x` one after another. -/
def joinProduct (o : Arithmetic) (x : Value) : Value → Value
  | mul c d => mul (joinProduct o x c) d
  | div c d => div (joinProduct o x c) d
  | mask c d => mask (joinProduct o x c) d
  | y => arith o x y

/-- The value with every chain grouped from the left. -/
def regrouped : Value → Value
  | constant n => constant n
  | read accessor address => read accessor address.regrouped
  | viewed view v => viewed view v.regrouped
  | add a b => joinSum a.regrouped b.regrouped
  | sub a b => sub a.regrouped b.regrouped
  | mul a b => joinProduct .mul a.regrouped b.regrouped
  | div a b => joinProduct .div a.regrouped b.regrouped
  | mask a b => joinProduct .mask a.regrouped b.regrouped

/-! ## Chains -/

theorem joinSum_of_not_isSum {y : Value} (h : y.isSum = false) (x : Value) :
    joinSum x y = add x y := by
  cases y with
  | add | sub => cases h
  | _ => rfl

theorem joinProduct_of_not_isProduct {y : Value} (h : y.isProduct = false) (o : Arithmetic)
    (x : Value) : joinProduct o x y = arith o x y := by
  cases y with
  | mul | div | mask => cases h
  | _ => rfl

theorem joinSum_assoc (x y z : Value) : joinSum x (joinSum y z) = joinSum (joinSum x y) z := by
  induction z with
  | add c d ihc => exact congrArg (add · d) ihc
  | sub c d ihc => exact congrArg (sub · d) ihc
  | _ => rfl

theorem joinProduct_assoc (o p : Arithmetic) (x y z : Value) :
    joinProduct o x (joinProduct p y z) = joinProduct p (joinProduct o x y) z := by
  induction z with
  | mul c d ihc => exact congrArg (mul · d) ihc
  | div c d ihc => exact congrArg (div · d) ihc
  | mask c d ihc => exact congrArg (mask · d) ihc
  | _ => cases p <;> rfl

@[simp] theorem isSum_joinSum (x y : Value) : (joinSum x y).isSum = true := by
  cases y <;> rfl

@[simp] theorem isSum_joinProduct (o : Arithmetic) (x y : Value) :
    (joinProduct o x y).isSum = false := by
  cases y with
  | mul | div | mask => rfl
  | _ => cases o <;> rfl

theorem isSum_regrouped (v : Value) : v.regrouped.isSum = v.isSum := by
  cases v with
  | add => exact isSum_joinSum _ _
  | mul | div | mask => exact isSum_joinProduct _ _ _
  | _ => rfl

/-! ## Texts -/

/-- The text of a value as a factor. -/
def factorText (v : Value) : String := v.bracketed v.text

theorem factorText_of_not_isSum {v : Value} (h : v.isSum = false) : v.factorText = v.text := by
  simp [factorText, bracketed, h]

theorem text_arith (o : Arithmetic) (a b : Value) :
    (arith o a b).text = a.factorText ++ " " ++ o.symbol ++ " " ++ b.factorText := by
  have hsymbol (s : String) : a.factorText ++ (" " ++ s ++ " ") ++ b.factorText =
      a.factorText ++ " " ++ s ++ " " ++ b.factorText := by simp only [String.append_assoc]
  rw [← hsymbol]
  cases o <;> rfl

theorem text_joinSum (x y : Value) : (joinSum x y).text = x.text ++ " + " ++ y.text := by
  induction y with
  | add c d ihc => simp only [joinSum, text, ihc, String.append_assoc]
  | sub c d ihc => simp only [joinSum, text, ihc, String.append_assoc]
  | _ => rfl

theorem text_joinProduct (o : Arithmetic) (x y : Value) :
    (joinProduct o x y).text = x.factorText ++ " " ++ o.symbol ++ " " ++ y.factorText := by
  -- the factors of a chain stand behind one another, whatever the last operation is
  have hchain (p : Arithmetic) (c d : Value)
      (ih : (joinProduct o x c).text = x.factorText ++ " " ++ o.symbol ++ " " ++ c.factorText) :
      (arith p (joinProduct o x c) d).text =
        x.factorText ++ " " ++ o.symbol ++ " " ++ (arith p c d).factorText := by
    have hproduct : (arith p c d).isSum = false := by cases p <;> rfl
    rw [text_arith, factorText_of_not_isSum (isSum_joinProduct o x c), ih,
      factorText_of_not_isSum hproduct, text_arith]
    simp only [String.append_assoc]
  induction y with
  | mul c d ihc => exact hchain .mul c d ihc
  | div c d ihc => exact hchain .div c d ihc
  | mask c d ihc => exact hchain .mask c d ihc
  | _ => exact text_arith o x _

/-- Only a constant is written in another way where it is an address. -/
theorem addressText_regrouped (v : Value) (t : String) :
    v.regrouped.addressText t = v.addressText t := by
  have hproduct (o : Arithmetic) (x y : Value) : (joinProduct o x y).addressText t = t := by
    cases y with
    | mul | div | mask => rfl
    | _ => cases o <;> rfl
  cases v with
  | add a b => simp only [regrouped]; cases b.regrouped <;> rfl
  | mul | div | mask => exact hproduct _ _ _
  | _ => rfl

/-- **Regrouping does not show.** -/
theorem text_regrouped (v : Value) : v.regrouped.text = v.text := by
  have hfactor {v : Value} (ih : v.regrouped.text = v.text) :
      v.regrouped.factorText = v.factorText := by
    rw [factorText, factorText, bracketed, bracketed, isSum_regrouped, ih]
  induction v with
  | constant n => rfl
  | read accessor address ih =>
    simp only [regrouped, text, addressText_regrouped, ih]
  | viewed view v ih => simp only [regrouped, text, ih]
  | add a b iha ihb => simp only [regrouped, text_joinSum, iha, ihb, text]
  | sub a b iha ihb =>
    have hb := hfactor ihb
    simp only [factorText] at hb
    simp only [regrouped, text, iha, hb]
  | mul a b iha ihb =>
    rw [regrouped, text_joinProduct, hfactor iha, hfactor ihb]
    exact (text_arith .mul a b).symm
  | div a b iha ihb =>
    rw [regrouped, text_joinProduct, hfactor iha, hfactor ihb]
    exact (text_arith .div a b).symm
  | mask a b iha ihb =>
    rw [regrouped, text_joinProduct, hfactor iha, hfactor ihb]
    exact (text_arith .mask a b).symm

/-! ## Values -/

/-- Whether everything that is chained on the right is chained by the same operation. -/
def isRunOf (o : Arithmetic) : Value → Bool
  | mul c d => o == .mul && c.isRunOf o && d.isRunOf o
  | div _ _ => false
  | mask c d => o == .mask && c.isRunOf o && d.isRunOf o
  | _ => true

/-- Whether every chain of products can be grouped from the left: products are multiplied by
products, masks are masked by masks, and nothing is divided by a product, a quotient or a mask. -/
def isWellGrouped : Value → Bool
  | constant _ => true
  | read _ address => address.isWellGrouped
  | viewed _ v => v.isWellGrouped
  | add a b | sub a b => a.isWellGrouped && b.isWellGrouped
  | mul a b => a.isWellGrouped && b.isWellGrouped && b.isRunOf .mul
  | div a b => a.isWellGrouped && b.isWellGrouped && !b.isProduct
  | mask a b => a.isWellGrouped && b.isWellGrouped && b.isRunOf .mask

/-! ### Chains that keep their values -/

theorem isRunOf_joinSum (o : Arithmetic) (x y : Value) : (joinSum x y).isRunOf o = true := by
  cases y <;> rfl

/-- A chain of one operation goes on being one. -/
theorem isRunOf_joinProduct {o : Arithmetic} (ho : o ≠ .div) {x y : Value}
    (hx : x.isRunOf o = true) (hy : y.isRunOf o = true) : (joinProduct o x y).isRunOf o = true := by
  induction y with
  | mul c d ihc =>
    simp only [isRunOf, Bool.and_eq_true] at hy
    simp [joinProduct, isRunOf, hy, ihc hy.1.2]
  | div => cases hy
  | mask c d ihc =>
    simp only [isRunOf, Bool.and_eq_true] at hy
    simp [joinProduct, isRunOf, hy, ihc hy.1.2]
  | _ =>
    cases o with
    | mul | mask => simp [joinProduct, arith, isRunOf, hx]
    | div => exact absurd rfl ho

theorem isRunOf_regrouped {o : Arithmetic} {v : Value} (h : v.isRunOf o = true) :
    v.regrouped.isRunOf o = true := by
  induction v with
  | add a b => exact isRunOf_joinSum o _ _
  | mul a b iha ihb =>
    simp only [isRunOf, Bool.and_eq_true, beq_iff_eq] at h
    obtain ⟨⟨rfl, ha⟩, hb⟩ := h
    exact isRunOf_joinProduct (by decide) (iha ha) (ihb hb)
  | div => cases h
  | mask a b iha ihb =>
    simp only [isRunOf, Bool.and_eq_true, beq_iff_eq] at h
    obtain ⟨⟨rfl, ha⟩, hb⟩ := h
    exact isRunOf_joinProduct (by decide) (iha ha) (ihb hb)
  | _ => rfl

section
variable (resolve : String → Option Size) (m : Memory) (view? : Option View)

theorem valueAs_joinSum (x y : Value) :
    (joinSum x y).valueAs resolve m view? =
      x.valueAs resolve m view? + y.valueAs resolve m view? := by
  induction y with
  | add c d ihc => simp only [joinSum, valueAs, ihc, Int.add_assoc]
  | sub c d ihc => simp only [joinSum, valueAs, ihc, Int.sub_eq_add_neg, Int.add_assoc]
  | _ => rfl

theorem valueAs_joinProduct_mul (x : Value) {y : Value} (hy : y.isRunOf .mul = true) :
    (joinProduct .mul x y).valueAs resolve m view? =
      x.valueAs resolve m view? * y.valueAs resolve m view? := by
  induction y with
  | mul c d ihc =>
    simp only [isRunOf, Bool.and_eq_true] at hy
    simp only [joinProduct, valueAs, ihc hy.1.2, Int.mul_assoc]
  | div | mask => cases hy
  | _ => rfl

theorem valueAs_joinProduct_mask (x : Value) {y : Value} (hy : y.isRunOf .mask = true) :
    (joinProduct .mask x y).valueAs resolve m view? =
      (x.valueAs resolve m view?).land (y.valueAs resolve m view?) := by
  induction y with
  | mask c d ihc =>
    simp only [isRunOf, Bool.and_eq_true] at hy
    simp only [joinProduct, valueAs, ihc hy.1.2, IntegerBits.land_assoc]
  | div | mul => cases hy
  | _ => rfl

theorem isProduct_regrouped {v : Value} (h : v.isProduct = false) :
    v.regrouped.isProduct = false := by
  cases v with
  | add a b =>
    simp only [regrouped]
    cases b.regrouped <;> rfl
  | mul | div | mask => cases h
  | _ => rfl

/-- **Values that are well grouped keep their value when they are regrouped.** -/
theorem valueAs_regrouped {v : Value} (h : v.isWellGrouped = true) :
    v.regrouped.valueAs resolve m view? = v.valueAs resolve m view? := by
  induction v generalizing view? with
  | constant n => rfl
  | read accessor address ih => simp only [regrouped, valueAs, ih none h]
  | viewed view v ih => exact ih (some view) h
  | add a b iha ihb =>
    obtain ⟨ha, hb⟩ := Bool.and_eq_true_iff.mp h
    rw [regrouped, valueAs_joinSum, iha view? ha, ihb view? hb, valueAs]
  | sub a b iha ihb =>
    obtain ⟨ha, hb⟩ := Bool.and_eq_true_iff.mp h
    rw [regrouped, valueAs, iha view? ha, ihb view? hb, valueAs]
  | mul a b iha ihb =>
    simp only [isWellGrouped, Bool.and_eq_true] at h
    rw [regrouped, valueAs_joinProduct_mul _ _ _ _ (isRunOf_regrouped h.2), iha view? h.1.1,
      ihb view? h.1.2, valueAs]
  | div a b iha ihb =>
    simp only [isWellGrouped, Bool.and_eq_true, Bool.not_eq_true'] at h
    rw [regrouped, joinProduct_of_not_isProduct (isProduct_regrouped h.2), arith, valueAs,
      iha view? h.1.1, ihb view? h.1.2, valueAs]
  | mask a b iha ihb =>
    simp only [isWellGrouped, Bool.and_eq_true] at h
    rw [regrouped, valueAs_joinProduct_mask _ _ _ _ (isRunOf_regrouped h.2), iha view? h.1.1,
      ihb view? h.1.2, valueAs]

end

end Value
end MemoryTrigger

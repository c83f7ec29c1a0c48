import MemoryTrigger.Failure

/-! # Linear forms

Value arithmetic comes down to a sum of memory terms with integer coefficients, plus a constant.
Like terms are combined and terms that cancel vanish.  A product, quotient or mask of two reads, and
the quotient or mask of a read by a literal, is a term of its own with a modifier; any other product
or quotient cannot be brought into this form and is refused.

Coefficients and constants are 64-bit integers, and sums and products that leave their range are
refused as well. -/
namespace MemoryTrigger

namespace Checked

/-- The 64-bit integer of this value, if it is in range. -/
def ofInt? (n : Int) : Option Int64 :=
  if Int64.minValue.toInt ≤ n ∧ n ≤ Int64.maxValue.toInt then some (Int64.ofInt n) else none

def add? (a b : Int64) : Option Int64 := ofInt? (a.toInt + b.toInt)

def mul? (a b : Int64) : Option Int64 := ofInt? (a.toInt * b.toInt)

/-- The 32-bit word of this value, if it is in range. -/
def word? (n : Int) : Option UInt32 :=
  if 0 ≤ n ∧ n < UInt32.size then some (UInt32.ofNat n.toNat) else none

end Checked

/-- A read and the pointer rows that locate it. -/
structure Cell where
  pointer : List Row
  operand : Operand
  deriving DecidableEq, Repr

/-- Arithmetic on a read with a second operand. -/
structure Modifier where
  arithmetic : Arithmetic
  right : Operand
  deriving DecidableEq, Repr

/-- A coefficient times a read, or times a modified read. -/
structure Term where
  cell : Cell
  modifier : Option Modifier := none
  coefficient : Int64 := 1
  deriving DecidableEq, Repr

/-- A sum of terms and a constant. -/
structure LinearForm where
  terms : List Term := []
  constant : Int64 := 0
  deriving DecidableEq, Repr

namespace Term

/-- Whether two terms can be combined. -/
def like (t u : Term) : Bool := t.cell == u.cell && t.modifier == u.modifier

/-- Whether the term can stand on a row as it is. -/
def isPlain (t : Term) : Bool := t.modifier.isNone && t.coefficient.abs == 1

/-- Add a term to the first like one, or behind all others. -/
def insert (t : Term) : List Term → Lowered (List Term)
  | [] => .ok [t]
  | u :: rest =>
      if u.like t then do
        let sum ← Lowered.require (Checked.add? u.coefficient t.coefficient)
          (.valueOutOfRange t.coefficient)
        pure ({ u with coefficient := sum } :: rest)
      else do
        let rest ← insert t rest
        pure (u :: rest)

/-- The term with its coefficient multiplied. -/
def scale (factor : Int64) (t : Term) : Lowered Term := do
  let product ← Lowered.require (Checked.mul? t.coefficient factor) (.valueOutOfRange factor)
  pure { t with coefficient := product }

/-- The terms that do not vanish. -/
def nonzero (ts : List Term) : List Term := ts.filter (·.coefficient != 0)

end Term

/-- A literal operand, which has to fit 32 bits. -/
def Operand.ofInt (n : Int64) : Lowered Operand := do
  let value ← Lowered.require (Checked.word? n.toInt) (.valueOutOfRange n)
  pure (.literal value)

namespace LinearForm

def ofCell (cell : Cell) : LinearForm := { terms := [{ cell }] }

def ofModified (cell : Cell) (arithmetic : Arithmetic) (right : Operand) : LinearForm :=
  { terms := [{ cell, modifier := some ⟨arithmetic, right⟩ }] }

/-- The form with one more term. -/
def addTerm (f : LinearForm) (t : Term) : Lowered LinearForm := do
  let terms ← t.insert f.terms
  pure { f with terms := Term.nonzero terms }

def plus (f g : LinearForm) : Lowered LinearForm := do
  let constant ← Lowered.require (Checked.add? f.constant g.constant) (.valueOutOfRange g.constant)
  g.terms.foldlM addTerm { f with constant }

def scaled (f : LinearForm) (factor : Int64) : Lowered LinearForm := do
  let constant ← Lowered.require (Checked.mul? f.constant factor) (.valueOutOfRange factor)
  let terms ← f.terms.mapM (Term.scale factor)
  pure { terms := Term.nonzero terms, constant }

/-- Whether the form is a constant. -/
def isConstant (f : LinearForm) : Bool := f.terms.isEmpty

/-- The read that the form consists of, if it is one read as it is. -/
def cell? (f : LinearForm) : Option Cell :=
  match f.terms with
  | [t] => if f.constant = 0 ∧ t.coefficient = 1 ∧ t.modifier = none then some t.cell else none
  | _ => none

/-- Two reads behind one pointer. -/
def cells? (f g : LinearForm) : Option (Cell × Cell) :=
  match f.cell?, g.cell? with
  | some a, some b => if a.pointer = b.pointer then some (a, b) else none
  | _, _ => none

def times (f g : LinearForm) : Lowered LinearForm :=
  if g.isConstant then f.scaled g.constant
  else if f.isConstant then g.scaled f.constant
  else
    match cells? f g with
    | some (a, b) => .ok (ofModified a .mul b.operand)
    | none => Lowered.reject .cannotEliminateMultiplication

/-- Whether a 64-bit quotient by the divisor leaves its range. -/
def overflowsBy (f : LinearForm) (divisor : Int64) : Bool :=
  divisor == -1 &&
    (f.constant == Int64.minValue || f.terms.any (·.coefficient == Int64.minValue))

/-- Whether the divisor divides the constant and every coefficient. -/
def isDivisibleBy (f : LinearForm) (divisor : Int64) : Bool :=
  f.constant % divisor == 0 && f.terms.all (·.coefficient % divisor == 0)

/-- The form divided by a constant, toward zero. -/
def dividedBy (f : LinearForm) (divisor : Int64) : Lowered LinearForm :=
  if divisor = 0 then Lowered.reject .divisionByZero
  else if divisor = 1 then .ok f
  else if f.overflowsBy divisor then .error .overflow
  else if f.isConstant || f.isDivisibleBy divisor then
    .ok {
      terms := f.terms.map fun t => { t with coefficient := t.coefficient / divisor }
      constant := f.constant / divisor }
  else
    match f.cell? with
    | some cell =>
        if 0 < divisor then do
          let right ← Operand.ofInt divisor
          pure (ofModified cell .div right)
        else Lowered.reject .cannotNormalizeDivision
    | none => Lowered.reject .cannotNormalizeDivision

def divided (f g : LinearForm) : Lowered LinearForm :=
  if g.isConstant then f.dividedBy g.constant
  else
    match cells? f g with
    | some (a, b) => .ok (ofModified a .div b.operand)
    | none => Lowered.reject .cannotNormalizeDivision

/-- The bits that a form has in common with a constant. -/
def maskedBy (f : LinearForm) (bits : Int64) : Lowered LinearForm :=
  if f.isConstant then .ok { constant := f.constant &&& bits }
  else
    match f.cell? with
    | some cell => do
        let right ← Operand.ofInt bits
        pure (ofModified cell .mask right)
    | none => Lowered.reject (.unsupportedNesting .compoundMask)

def masked (f g : LinearForm) : Lowered LinearForm :=
  if g.isConstant then f.maskedBy g.constant
  else if f.isConstant then g.maskedBy f.constant
  else
    match cells? f g with
    | some (a, b) => .ok (ofModified a .mask b.operand)
    | none => Lowered.reject (.unsupportedNesting .compoundMask)

/-- The pointer row of the term that an address is built on. -/
def pointerRow (t : Term) : Lowered Row :=
  let row := Row.modifier .addAddress t.cell.operand
  match t.modifier with
  | none =>
      if t.coefficient = 1 then .ok row
      else do
        let right ← Operand.ofInt t.coefficient
        pure { row with operator := .arith .mul, right }
  | some m =>
      if t.coefficient = 1 then .ok { row with operator := .arith m.arithmetic, right := m.right }
      else Lowered.reject .complexAddress

/-- An address of 32 bits. -/
def addressOf (n : Int64) : Lowered UInt32 :=
  Lowered.require (Checked.word? n.toInt) (.addressOutOfRange n)

/-- The read at an address: a constant, or one pointer term plus an offset that is not negative. -/
def cellAt (size : Size) (address : LinearForm) : Lowered Cell :=
  match address.terms with
  | [] => do
      let place ← addressOf address.constant
      pure ⟨[], .memory size place⟩
  | [t] =>
      if t.coefficient ≤ 0 then Lowered.reject .complexAddress
      else if address.constant < 0 then Lowered.reject (.negativeOffset address.constant)
      else do
        let row ← pointerRow t
        let offset ← addressOf address.constant
        pure ⟨t.cell.pointer ++ [row], .memory size offset⟩
  | _ => Lowered.reject .complexAddress

/-- The form as another view of the read it consists of. -/
def viewedAs (view : View) (f : LinearForm) : Lowered LinearForm :=
  match f.cell? with
  | some cell =>
      if cell.operand.kind = .current then
        .ok (ofCell { cell with operand := { cell.operand with kind := view.kind } })
      else Lowered.reject (.nestedView view)
  | none => Lowered.reject (.viewWithoutMemory view)

/-- The linear form of a value; `resolve` gives the sizes of accessors. -/
def ofValue (resolve : String → Option Size) : Value → Lowered LinearForm
  | .constant n => .ok { constant := n }
  | .read accessor address => do
      let size ← Lowered.require (resolve accessor) (.unknownAccessor accessor)
      let address ← ofValue resolve address
      let cell ← cellAt size address
      pure (ofCell cell)
  | .viewed view value => do
      let form ← ofValue resolve value
      form.viewedAs view
  | .add a b => do
      let f ← ofValue resolve a
      let g ← ofValue resolve b
      f.plus g
  | .sub a b => do
      let f ← ofValue resolve a
      let g ← ofValue resolve b
      let g ← g.scaled (-1)
      f.plus g
  | .mul a b => do
      let f ← ofValue resolve a
      let g ← ofValue resolve b
      f.times g
  | .div a b => do
      let f ← ofValue resolve a
      let g ← ofValue resolve b
      f.divided g
  | .mask a b => do
      let f ← ofValue resolve a
      let g ← ofValue resolve b
      f.masked g

end LinearForm
end MemoryTrigger

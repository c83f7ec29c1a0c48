import MemoryTrigger.Meaning.IntegerValue

/-! # What an expression comes to in rows

`Value.valueIn` is the value of an expression over the integers.  Rows keep to it except where two
reads meet: their product, quotient or mask is computed by one row, and has 32 bits.

That two reads meet cannot be seen from how an expression is written.  `byte(1) + 0` is a read as
much as `byte(1)` is, and `byte(1) - byte(1) + 2` is a constant.  So it is said of the quantity that
an expression gives in all memories together (`Quantity.IsRead`), and `Value.quantity` cannot be
computed one memory at a time. -/
namespace MemoryTrigger

/-- What is given in each memory, under each view of the outermost reads. -/
abbrev Quantity : Type := Memory → Option View → Int

/-- Arithmetic over the integers; quotients go toward zero. -/
def Arithmetic.applyInt : Arithmetic → Int → Int → Int
  | mul, a, b => a * b
  | div, a, b => a.tdiv b
  | mask, a, b => a.land b

namespace Quantity

/-- The quantity is that of a single read, of one size and at an address that memory determines. -/
def IsRead (q : Quantity) : Prop :=
  ∃ (size : Size) (kind : Option View → OperandKind) (place : Memory → UInt32), ∀ m view?,
    Operand.isMemory ⟨kind view?, size, place m⟩ = true ∧
      q m view? = (m.read ⟨kind view?, size, place m⟩).toNat

open scoped Classical in
/-- Arithmetic on quantities: that of a row between two reads, and otherwise over the integers. -/
noncomputable def combine (a : Arithmetic) (p q : Quantity) : Quantity := fun m view? =>
  if p.IsRead ∧ q.IsRead then
    (a.apply (UInt32.ofInt (p m view?)) (UInt32.ofInt (q m view?))).toNat
  else a.applyInt (p m view?) (q m view?)

end Quantity

namespace Value

/-- The quantity of an expression; `resolve` gives the sizes of accessors, and an unknown one reads
zero.  Addresses have 32 bits. -/
noncomputable def quantity (resolve : String → Option Size) : Value → Quantity
  | constant n => fun _ _ => n.toInt
  | read accessor address => fun m view? => (resolve accessor).elim 0 fun size =>
      (m.read ⟨.ofView? view?, size, UInt32.ofInt (address.quantity resolve m none)⟩).toNat
  | viewed view v => fun m _ => v.quantity resolve m (some view)
  | add a b => fun m view? => a.quantity resolve m view? + b.quantity resolve m view?
  | sub a b => fun m view? => a.quantity resolve m view? - b.quantity resolve m view?
  | mul a b => .combine .mul (a.quantity resolve) (b.quantity resolve)
  | div a b => .combine .div (a.quantity resolve) (b.quantity resolve)
  | mask a b => .combine .mask (a.quantity resolve) (b.quantity resolve)

end Value
end MemoryTrigger

import Mathlib.Data.Int.Bitwise
import MemoryTrigger.Meaning.FirstFrame

/-! # The integer value of an expression

What an expression says in one frame, over the integers: sums, differences and products do not wrap,
whatever their size.  Only addresses have 32 bits.  A view of an expression is the expression over
viewed reads, so that `prev(byte(1))` is the previous byte at address 1; the reads that an address
is computed from are not affected.

`Value.isLinear` marks the expressions in which products are by constants and nothing is divided or
masked.  These are the ones whose integer value the rows of a trigger can be held against. -/
namespace MemoryTrigger

/-- The kind of operand that a read with this view is, or without one. -/
def OperandKind.ofView? : Option View → OperandKind
  | none => .current
  | some view => view.kind

namespace Value

/-- The value of an expression whose outermost reads have a view, if one is given; `resolve` gives
the sizes of accessors, and an unknown one reads zero.  Quotients go toward zero. -/
def valueAs (resolve : String → Option Size) (m : Memory) : Option View → Value → Int
  | _, constant n => n.toInt
  | view?, read accessor address =>
      match resolve accessor with
      | some size =>
          (m.read ⟨.ofView? view?, size, UInt32.ofInt (address.valueAs resolve m none)⟩).toNat
      | none => 0
  | _, viewed view value => value.valueAs resolve m (some view)
  | view?, add a b => a.valueAs resolve m view? + b.valueAs resolve m view?
  | view?, sub a b => a.valueAs resolve m view? - b.valueAs resolve m view?
  | view?, mul a b => a.valueAs resolve m view? * b.valueAs resolve m view?
  | view?, div a b => (a.valueAs resolve m view?).tdiv (b.valueAs resolve m view?)
  | view?, mask a b => (a.valueAs resolve m view?).land (b.valueAs resolve m view?)

/-- The value of an expression. -/
def valueIn (resolve : String → Option Size) (m : Memory) (v : Value) : Int :=
  v.valueAs resolve m none

/-- Whether the expression reads no memory. -/
def isConstant : Value → Bool
  | constant _ => true
  | read _ _ => false
  | viewed _ v => v.isConstant
  | add a b | sub a b | mul a b | div a b | mask a b => a.isConstant && b.isConstant

/-- Sums and differences of constants, reads and viewed reads, with constant factors.  Addresses are
built in the same way. -/
def isLinear : Value → Bool
  | constant _ => true
  | read _ address => address.isLinear
  | viewed _ v => v.isLinear
  | add a b | sub a b => a.isLinear && b.isLinear
  | mul a b => a.isLinear && b.isLinear && (a.isConstant || b.isConstant)
  | div _ _ | mask _ _ => false

end Value
end MemoryTrigger

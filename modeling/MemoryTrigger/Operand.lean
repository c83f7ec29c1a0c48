/-! # Operands

One side of a row: a sized read of emulated memory, a literal, or nothing.  A read can look at the
current frame, at the frame before, at the last different value, or decode the memory as
binary-coded decimal.  Every read has a known range `[0, maxValue]`, which is what the simplifier
folds comparisons against. -/
namespace MemoryTrigger

/-! ## Numerals

The texts of numbers: plain decimal, and hexadecimal padded with zeros.  Hexadecimal digits are
lower case in wire text and upper case in script text. -/

namespace Numeral

/-- Decimal digits of `n`, without leading zeros. -/
def decimal (n : Nat) : String := String.ofList (Nat.toDigits 10 n)

/-- Decimal text of an integer, with a minus sign when it is negative. -/
def signed (n : Int) : String :=
  if n < 0 then "-" ++ decimal n.natAbs else decimal n.natAbs

/-- Lower-case hexadecimal digits of `n`, padded with zeros to at least `width` digits. -/
def hexLower (width n : Nat) : String := String.ofList ((Nat.toDigits 16 n).leftpad width '0')

/-- Upper-case hexadecimal digits of `n`, padded with zeros to at least `width` digits. -/
def hexUpper (width n : Nat) : String :=
  String.ofList (((Nat.toDigits 16 n).map Char.toUpper).leftpad width '0')

end Numeral

/-! ## Reads -/

/-- How much memory a read covers, and in which byte order. -/
inductive Size where
  | bit (index : Fin 8)
  | lowNibble
  | highNibble
  | byte
  | word
  | tbyte
  | dword
  | wordBE
  | tbyteBE
  | dwordBE
  | bitCount
  deriving DecidableEq, Repr

namespace Size

/-- Every size, single bits first. -/
def all : List Size :=
  [bit 0, bit 1, bit 2, bit 3, bit 4, bit 5, bit 6, bit 7, lowNibble, highNibble, byte, word,
    tbyte, dword, wordBE, tbyteBE, dwordBE, bitCount]

/-- Largest value a read of this size can produce. -/
def maxValue : Size → UInt32
  | bit _ => 1
  | lowNibble | highNibble => 0xF
  | byte => 0xFF
  | word | wordBE => 0xFFFF
  | tbyte | tbyteBE => 0xFFFFFF
  | dword | dwordBE => 0xFFFFFFFF
  | bitCount => 8

/-- Largest value a read of this size can produce when decoded as binary-coded decimal. -/
def maxBcd : Size → UInt32
  | lowNibble | highNibble => 9
  | byte => 99
  | word | wordBE => 9999
  | tbyte | tbyteBE => 999999
  | dword | dwordBE => 99999999
  | size => size.maxValue

/-- Position of a single-bit read. -/
def bitIndex? : Size → Option (Fin 8)
  | bit index => some index
  | _ => none

/-- The single-bit read at a position, if there is one. -/
def ofBitIndex? (index : Nat) : Option Size :=
  if h : index < 8 then some (bit ⟨index, h⟩) else none

/-- Name of the read in scripts, such as `byte` or `bit3`. -/
def accessor : Size → String
  | bit index => "bit" ++ Numeral.decimal index
  | lowNibble => "low4"
  | highNibble => "high4"
  | byte => "byte"
  | word => "word"
  | tbyte => "tbyte"
  | dword => "dword"
  | wordBE => "word_be"
  | tbyteBE => "tbyte_be"
  | dwordBE => "dword_be"
  | bitCount => "bitcount"

/-- The size a script name stands for. -/
def ofAccessor? (name : String) : Option Size :=
  all.find? fun size => size.accessor == name

end Size

/-- Where an operand takes its value from. -/
inductive OperandKind where
  /-- No operand, as on the right of a row without operator. -/
  | unused
  /-- Memory in the current frame. -/
  | current
  /-- Memory in the frame before. -/
  | previous
  /-- The last value the memory held before it most recently changed. -/
  | prior
  /-- Memory decoded as binary-coded decimal. -/
  | bcd
  /-- A literal. -/
  | literal
  deriving DecidableEq, Repr

/-- One side of a row.  `value` is the address of a read and the value of a literal. -/
structure Operand where
  kind : OperandKind
  size : Size
  value : UInt32
  deriving DecidableEq, Repr

namespace Operand

/-- The operand of a row that has none on that side. -/
def missing : Operand := ⟨.unused, .byte, 0⟩

/-- A read of the current frame. -/
def memory (size : Size) (address : UInt32) : Operand := ⟨.current, size, address⟩

/-- A literal value. -/
def literal (value : UInt32) : Operand := ⟨.literal, .dword, value⟩

/-- Whether the operand reads memory. -/
def isMemory (o : Operand) : Bool :=
  match o.kind with
  | .current | .previous | .prior | .bcd => true
  | .unused | .literal => false

/-- Whether the operand is a literal. -/
def isLiteral (o : Operand) : Bool := o.kind == .literal

/-- Largest value the operand can have. -/
def maxValue (o : Operand) : UInt32 :=
  match o.kind with
  | .unused => 0
  | .literal => o.value
  | .bcd => o.size.maxBcd
  | .current | .previous | .prior => o.size.maxValue

end Operand
end MemoryTrigger

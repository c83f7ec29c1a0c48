import MemoryTrigger.Trigger

/-! # Writing wire text

A trigger is written as its core rows, joined by underscores, then each alternate group behind an
`S`.  Roles and sizes are named by single letters, which are written in upper case and read in
either case; a word read is written with a space.  Addresses have at least six hexadecimal digits.
A core without rows is written `1=1` when alternates follow, because a reader expects rows in front
of them. -/
namespace MemoryTrigger

/-! ## Letters -/

/-- Flag letter of every role except plain filters. -/
def Role.flags : List (Char × Role) :=
  [('R', .resetIf), ('P', .pauseIf), ('A', .addSource), ('B', .subSource), ('C', .addHits),
    ('D', .subHits), ('N', .andNext), ('O', .orNext), ('M', .measured), ('G', .measuredPercent),
    ('Q', .measuredIf), ('I', .addAddress), ('T', .trigger), ('Z', .resetNextIf)]

/-- Flag letter of a role; plain filters have none. -/
def Role.flag? (role : Role) : Option Char :=
  (Role.flags.find? fun entry => entry.2 == role).map Prod.fst

/-- Role of a flag letter in either case. -/
def Role.ofFlag? (letter : Char) : Option Role :=
  (Role.flags.find? fun entry => entry.1 == letter.toUpper).map Prod.snd

/-- Letter of a size, written after `0x`. -/
def Size.letter : Size → Char
  | bit 0 => 'M'
  | bit 1 => 'N'
  | bit 2 => 'O'
  | bit 3 => 'P'
  | bit 4 => 'Q'
  | bit 5 => 'R'
  | bit 6 => 'S'
  | bit 7 => 'T'
  | lowNibble => 'L'
  | highNibble => 'U'
  | byte => 'H'
  | word => ' '
  | tbyte => 'W'
  | dword => 'X'
  | wordBE => 'I'
  | tbyteBE => 'J'
  | dwordBE => 'G'
  | bitCount => 'K'

/-- Size of a letter in either case. -/
def Size.ofLetter? (letter : Char) : Option Size :=
  Size.all.find? fun size => size.letter == letter.toUpper

/-- Letter in front of a read that does not look at the current frame. -/
def OperandKind.mark : OperandKind → String
  | previous => "d"
  | prior => "p"
  | bcd => "b"
  | _ => ""

/-- Kind of read a mark stands for, in either case. -/
def OperandKind.ofMark? (letter : Char) : Option OperandKind :=
  match letter.toLower with
  | 'd' => some .previous
  | 'p' => some .prior
  | 'b' => some .bcd
  | _ => none

/-- Symbol of a relation between the operands of a row; equality is a single sign. -/
def Relation.wire : Relation → String
  | eq => "="
  | r => r.symbol

/-- Symbol of an arithmetic modifier. -/
def Arithmetic.symbol : Arithmetic → String
  | mul => "*"
  | div => "/"
  | mask => "&"

/-- Symbol of an operator in wire text. -/
def Operator.wire : Operator → String
  | absent => ""
  | compare r => r.wire
  | arith a => a.symbol

/-! ## Rows and triggers -/

def Operand.wire (o : Operand) : String :=
  match o.kind with
  | .unused => ""
  | .literal => Numeral.decimal o.value.toNat
  | kind =>
      kind.mark ++ "0x" ++ String.singleton o.size.letter ++ Numeral.hexLower 6 o.value.toNat

/-- `[flag:]left[operator right][.hits.]` -/
def Row.wire (r : Row) : String :=
  let flag := match r.role.flag? with
    | some letter => String.singleton letter ++ ":"
    | none => ""
  let right := if r.operator = .absent then "" else r.operator.wire ++ r.right.wire
  let hits := if r.hits > 0 then "." ++ Numeral.decimal r.hits.toNat ++ "." else ""
  flag ++ r.left.wire ++ right ++ hits

/-- The rows of one group. -/
def Row.groupWire (rows : List Row) : String := "_".intercalate (rows.map Row.wire)

namespace Trigger

def wire (t : Trigger) : String :=
  let core := if t.core.isEmpty && !t.alternates.isEmpty then [Row.alwaysTrue] else t.core
  Row.groupWire core ++ String.join (t.alternates.map fun rows => "S" ++ Row.groupWire rows)

end Trigger
end MemoryTrigger

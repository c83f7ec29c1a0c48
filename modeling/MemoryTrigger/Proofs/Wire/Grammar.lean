import MemoryTrigger.Trigger
import MemoryTrigger.Wire.Writer

/-! # The grammar of wire text

    trigger  := group? (('S' | 's') group)*
    group    := row ('_' row)*
    row      := (flag ':')? operand (operator operand)? hits?
    operand  := mark? '0' ('x' | 'X') size? hex{1,8} | ('h' | 'H') hex{1,8} | '-'? digit+
    operator := '=' | '==' | '!=' | '<' | '<=' | '>' | '>=' | '*' | '/' | '&'
    hits     := '.' digit+ '.' | '(' digit+ ')'

A derivation by these rules is a *phrase*.  It carries the conditions that the rules leave out, which
are the ranges of the decimal numerals, so that there is a phrase only where the text is one of the
language.  Every phrase has a text and stands for a part of a trigger. -/
namespace MemoryTrigger

/-! ## Characters -/

section Letters
variable {α : Type}

/-- A table of letters, with the lower case of each beside it. -/
def inEitherCase (table : List (Char × α)) : List (Char × α) :=
  table ++ table.map fun entry => (entry.1.toLower, entry.2)

/-- A letter of a table, in either case, and what it stands for. -/
structure Letter (table : List (Char × α)) where
  char : Char
  value : α
  listed : (char, value) ∈ inEitherCase table

end Letters

/-- One of the given characters. -/
def OneOf (cs : List Char) : Type := { c : Char // c ∈ cs }

/-- The letters in front of a read that does not look at the current frame. -/
def OperandKind.marks : List (Char × OperandKind) :=
  [('D', .previous), ('P', .prior), ('B', .bcd)]

/-- The letters of the sizes. -/
def Size.letters : List (Char × Size) := Size.all.map fun size => (size.letter, size)

/-- The hexadecimal digits. -/
def hexDigits : List (Char × Nat) :=
  [('0', 0), ('1', 1), ('2', 2), ('3', 3), ('4', 4), ('5', 5), ('6', 6), ('7', 7), ('8', 8),
    ('9', 9), ('A', 10), ('B', 11), ('C', 12), ('D', 13), ('E', 14), ('F', 15)]

/-- The text of a part that may be missing. -/
def optionalText {σ : Type} (text : σ → List Char) (o : Option σ) : List Char := o.elim [] text

/-! ## Numerals -/

/-- One or more decimal digits. -/
structure DecimalPhrase where
  text : List Char
  ne_nil : text ≠ []
  isDigit : ∀ c ∈ text, c.isDigit = true

namespace DecimalPhrase

def value (n : DecimalPhrase) : Nat := Nat.ofDigitChars 10 n.text 0

/-- The number that the digits stand for behind a minus sign or without one. -/
def signed (n : DecimalPhrase) (minus : Bool) : Int := if minus then -(n.value : Int) else n.value

/-- The number lies between `-2^31` and `2^32 - 1`. -/
def IsLiteral (n : DecimalPhrase) (minus : Bool) : Prop :=
  -0x80000000 ≤ n.signed minus ∧ n.signed minus < 0x100000000

end DecimalPhrase

/-- One to eight hexadecimal digits. -/
structure HexPhrase where
  digits : List (Letter hexDigits)
  ne_nil : digits ≠ []
  length_le : digits.length ≤ 8

namespace HexPhrase

def text (n : HexPhrase) : List Char := n.digits.map Letter.char

def value (n : HexPhrase) : UInt32 :=
  ((n.digits.map Letter.value).foldl (fun sum digit => 16 * sum + digit) 0).toUInt32

end HexPhrase

/-! ## Operands -/

inductive OperandPhrase where
  /-- A read: an optional mark, `0x`, an optional size letter and the address. -/
  | read (mark : Option (Letter OperandKind.marks)) (x : OneOf ['x', 'X'])
      (size : Option (Letter Size.letters)) (address : HexPhrase)
  | hexadecimal (h : OneOf ['h', 'H']) (value : HexPhrase)
  | decimal (minus : Bool) (digits : DecimalPhrase) (inRange : digits.IsLiteral minus)

namespace OperandPhrase

def text : OperandPhrase → List Char
  | read mark x size address =>
      optionalText (fun m => [m.char]) mark ++
        '0' :: x.val :: (optionalText (fun s => [s.char]) size ++ address.text)
  | hexadecimal h value => h.val :: value.text
  | decimal minus digits _ => if minus then '-' :: digits.text else digits.text

/-- A read without a mark looks at the current frame, and one without a size letter is a word read.
A negative literal stands for its 32-bit complement. -/
def operand : OperandPhrase → Operand
  | read mark _ size address =>
      ⟨(mark.map Letter.value).getD .current, (size.map Letter.value).getD .word, address.value⟩
  | hexadecimal _ value => .literal value.value
  | decimal minus digits _ => .literal (UInt32.ofInt (digits.signed minus))

end OperandPhrase

/-! ## Rows -/

inductive OperatorPhrase where
  | equal | doubleEqual | notEqual | less | lessEqual | greater | greaterEqual
  | times | divide | mask
  deriving DecidableEq

namespace OperatorPhrase

def text : OperatorPhrase → List Char
  | equal => ['=']
  | doubleEqual => ['=', '=']
  | notEqual => ['!', '=']
  | less => ['<']
  | lessEqual => ['<', '=']
  | greater => ['>']
  | greaterEqual => ['>', '=']
  | times => ['*']
  | divide => ['/']
  | mask => ['&']

def operator : OperatorPhrase → Operator
  | equal | doubleEqual => .compare .eq
  | notEqual => .compare .ne
  | less => .compare .lt
  | lessEqual => .compare .le
  | greater => .compare .gt
  | greaterEqual => .compare .ge
  | times => .arith .mul
  | divide => .arith .div
  | mask => .arith .mask

end OperatorPhrase

/-- An operator and the operand behind it. -/
structure SidePhrase where
  operator : OperatorPhrase
  right : OperandPhrase

namespace SidePhrase

def text (s : SidePhrase) : List Char := s.operator.text ++ s.right.text

def side (s : SidePhrase) : Operator × Operand := (s.operator.operator, s.right.operand)

end SidePhrase

/-- A hit target between dots or round brackets, which has to fit 32 bits. -/
structure HitsPhrase where
  brackets : Char × Char
  listed : brackets ∈ [('.', '.'), ('(', ')')]
  count : DecimalPhrase
  fits : count.value < UInt32.size

namespace HitsPhrase

def text (h : HitsPhrase) : List Char := h.brackets.1 :: (h.count.text ++ [h.brackets.2])

def hits (h : HitsPhrase) : UInt32 := h.count.value.toUInt32

end HitsPhrase

structure RowPhrase where
  flag : Option (Letter Role.flags)
  left : OperandPhrase
  side : Option SidePhrase
  hits : Option HitsPhrase

namespace RowPhrase

def text (r : RowPhrase) : List Char :=
  optionalText (fun f => [f.char, ':']) r.flag ++
    (r.left.text ++ (optionalText SidePhrase.text r.side ++ optionalText HitsPhrase.text r.hits))

/-- A row without a flag is a plain filter, and one without an operator has no right operand. -/
def row (r : RowPhrase) : Row :=
  let side := (r.side.map SidePhrase.side).getD (.absent, .missing)
  { left := r.left.operand, operator := side.1, right := side.2,
    role := (r.flag.map Letter.value).getD .plain, hits := (r.hits.map HitsPhrase.hits).getD 0 }

/-- A further row of a group. -/
def behindUnderscore (r : RowPhrase) : List Char := '_' :: r.text

end RowPhrase

/-! ## Triggers -/

structure GroupPhrase where
  first : RowPhrase
  more : List RowPhrase

namespace GroupPhrase

def text (g : GroupPhrase) : List Char :=
  g.first.text ++ g.more.flatMap RowPhrase.behindUnderscore

def rows (g : GroupPhrase) : List Row := g.first.row :: g.more.map RowPhrase.row

end GroupPhrase

/-- A group behind an `S` of either case. -/
structure AlternatePhrase where
  mark : OneOf ['S', 's']
  group : GroupPhrase

def AlternatePhrase.text (a : AlternatePhrase) : List Char := a.mark.val :: a.group.text

structure TriggerPhrase where
  core : Option GroupPhrase
  alternates : List AlternatePhrase

namespace TriggerPhrase

def text (t : TriggerPhrase) : List Char :=
  optionalText GroupPhrase.text t.core ++ t.alternates.flatMap AlternatePhrase.text

/-- A core of exactly `1=1` is dropped where alternates follow. -/
def trigger (t : TriggerPhrase) : Trigger :=
  let core := (t.core.map GroupPhrase.rows).getD []
  { core := if !t.alternates.isEmpty && core == [Row.alwaysTrue] then [] else core,
    alternates := t.alternates.map fun a => a.group.rows }

end TriggerPhrase
end MemoryTrigger

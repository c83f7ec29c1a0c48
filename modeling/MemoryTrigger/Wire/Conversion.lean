import MemoryTrigger.Compile
import MemoryTrigger.Wire.Scanner
import MemoryTrigger.Wire.Writer

/-! # Reading and converting wire text

Reading takes everything that writing produces, and some older spellings beside: letters in either
case, `==` for `=`, hexadecimal literals behind an `h`, negative literals, hit targets in round
brackets, and reads without a size letter, which are word reads.

A flag, an operator, a `0x`, the start of a hit target and an `S` each commit the reader to what
must follow; elsewhere it stops where it cannot go on, and the text is refused there.

With a reader and a writer, a trigger given as text is simplified to text, and a condition is
compiled to text. -/
namespace MemoryTrigger

namespace Scanner

/-- A read: an optional mark, `0x`, an optional size letter and the address. -/
def memory : Scanner Operand := do
  let kind ← (letter OperandKind.ofMark?).optional
  let _ ← oneOf ['0']
  let _ ← oneOf ['x', 'X']
  let size ← (letter Size.ofLetter?).optional
  let address ← hexWord.required.labelled "hex address"
  pure ⟨kind.getD .current, size.getD .word, address⟩

/-- A hexadecimal literal behind an `h`. -/
def hexLiteral : Scanner Operand := do
  let _ ← oneOf ['h', 'H']
  let value ← hexWord.required
  pure (.literal value)

/-- Value of decimal digits with an optional minus sign. -/
def signedValue (minus : Option Char) (ds : List Char) : Int :=
  if minus.isSome then -(Nat.ofDigitChars 10 ds 0 : Int) else Nat.ofDigitChars 10 ds 0

/-- A literal must lie between `-2^31` and `2^32 - 1`; a negative one stands for its 32-bit
complement.  Any other number is a fatal mistake, noticed behind its digits. -/
def literalOf (n : Int) : Scanner Operand := fun rest =>
  if -0x80000000 ≤ n ∧ n < 0x100000000 then .ok (.literal (UInt32.ofInt n)) rest else .fatal {} rest

/-- A decimal literal with an optional minus sign. -/
def decimalLiteral : Scanner Operand := do
  let minus ← (oneOf ['-']).optional
  let ds ← digits
  literalOf (signedValue minus ds)

def operand : Scanner Operand :=
  (memory.or (hexLiteral.or decimalLiteral)).labelled "operand"

/-- Two characters that make one symbol, or the first alone. -/
def relationOr (first : Char) (second : Char) (both alone : Relation) : Scanner Operator := do
  let _ ← oneOf [first]
  let more ← (oneOf [second]).optional
  pure (.compare (if more.isSome then both else alone))

def notEqual : Scanner Operator := do
  let _ ← oneOf ['!']
  let _ ← oneOf ['=']
  pure (.compare .ne)

def arithmetic : Scanner Operator :=
  letter fun
    | '*' => some (.arith .mul)
    | '/' => some (.arith .div)
    | '&' => some (.arith .mask)
    | _ => none

def operator : Scanner Operator :=
  (relationOr '=' '=' .eq .eq).or <| notEqual.or <| (relationOr '<' '=' .le .lt).or <|
    (relationOr '>' '=' .ge .gt).or arithmetic

/-- A flag letter and its colon. -/
def flag : Scanner Role := do
  let role ← letter Role.ofFlag?
  let _ ← oneOf [':']
  pure role

/-- A hit target between two marks. -/
def hitsBetween (start stop : Char) : Scanner UInt32 := do
  let _ ← oneOf [start]
  let n ← word.required
  let _ ← (oneOf [stop]).required
  pure n

def hits : Scanner UInt32 :=
  ((hitsBetween '.' '.').or (hitsBetween '(' ')')).labelled "hit count"

/-- An operator and the operand behind it. -/
def rightSide : Scanner (Operator × Operand) := do
  let op ← operator
  let right ← operand.required
  pure (op, right)

/-- The first operand of a row, which a flag in front of it requires. -/
def leftSide (flagged : Bool) : Scanner Operand :=
  if flagged then operand.required else operand

/-- A row: an optional flag, an operand, an optional right side, an optional hit target. -/
def row : Scanner Row := do
  let role ← flag.optional
  let left ← leftSide role.isSome
  let right ← rightSide.optional
  let target ← hits.optional
  let right := right.getD (.absent, .missing)
  pure { left, operator := right.1, right := right.2, role := role.getD .plain,
         hits := target.getD 0 }

/-! ### Rows shrink the text -/

theorem Shrinks.oneOf (cs : List Char) : Shrinks (oneOf cs) := .letter _

theorem Shrinks.memory : Shrinks memory :=
  (Shrinks.letter _).optional.bind fun _ => (Shrinks.oneOf _).bind fun _ =>
    (Shrinks.oneOf _).bind fun _ => (Shrinks.letter _).optional.bind fun _ =>
      (Shrinks.hexWord.required.labelled _).bind fun _ => .pure _

theorem Shrinks.hexLiteral : Shrinks hexLiteral :=
  (Shrinks.oneOf _).bind fun _ => Shrinks.hexWord.required.bind fun _ => .pure _

theorem Shrinks.literalOf (n : Int) : Shrinks (literalOf n) := by
  intro text
  unfold Scanner.literalOf
  split
  · exact List.suffix_refl text
  · exact List.suffix_refl text

theorem Shrinks.decimalLiteral : Shrinks decimalLiteral :=
  (Shrinks.oneOf _).optional.bind fun _ => Shrinks.digits.bind fun _ => .literalOf _

theorem Shrinks.operand : Shrinks operand :=
  (Shrinks.memory.or (Shrinks.hexLiteral.or Shrinks.decimalLiteral)).labelled _

theorem Shrinks.relationOr (first second : Char) (both alone : Relation) :
    Shrinks (relationOr first second both alone) :=
  (Shrinks.oneOf _).bind fun _ => (Shrinks.oneOf _).optional.bind fun _ => .pure _

theorem Shrinks.notEqual : Shrinks notEqual :=
  (Shrinks.oneOf _).bind fun _ => (Shrinks.oneOf _).bind fun _ => .pure _

theorem Shrinks.operator : Shrinks operator :=
  (Shrinks.relationOr _ _ _ _).or <| Shrinks.notEqual.or <| (Shrinks.relationOr _ _ _ _).or <|
    (Shrinks.relationOr _ _ _ _).or (.letter _)

theorem Shrinks.flag : Shrinks flag :=
  (Shrinks.letter _).bind fun _ => (Shrinks.oneOf _).bind fun _ => .pure _

theorem Shrinks.hitsBetween (start stop : Char) : Shrinks (hitsBetween start stop) :=
  (Shrinks.oneOf _).bind fun _ => Shrinks.word.required.bind fun _ =>
    (Shrinks.oneOf _).required.bind fun _ => .pure _

theorem Shrinks.hits : Shrinks hits :=
  ((Shrinks.hitsBetween _ _).or (Shrinks.hitsBetween _ _)).labelled _

theorem Shrinks.rightSide : Shrinks rightSide :=
  Shrinks.operator.bind fun _ => Shrinks.operand.required.bind fun _ => .pure _

theorem Shrinks.leftSide (flagged : Bool) : Shrinks (leftSide flagged) := by
  cases flagged
  · exact Shrinks.operand
  · exact Shrinks.operand.required

theorem Shrinks.row : Shrinks row :=
  Shrinks.flag.optional.bind fun _ => (Shrinks.leftSide _).bind fun _ =>
    Shrinks.rightSide.optional.bind fun _ => Shrinks.hits.optional.bind fun _ => .pure _

/-! ### Groups -/

/-- The rows behind underscores.  An underscore without a row behind it is left where it is. -/
def moreRows (text : List Char) : Outcome (List Row) :=
  match text with
  | '_' :: rest =>
      match _h : row rest with
      | .ok r rest' =>
          match moreRows rest' with
          | .ok rs rest'' => .ok (r :: rs) rest''
          | failure => failure
      | .retry _ _ => .ok [] text
      | .fatal expected rest' => .fatal expected rest'
  | _ => .ok [] text
termination_by text.length
decreasing_by
  exact Nat.lt_succ_of_le (Shrinks.row.suffix_of_eq _h).length_le

/-- One or more rows. -/
def group : Scanner (List Row) := do
  let r ← row
  let rs ← moreRows
  pure (r :: rs)

theorem Shrinks.moreRows : Shrinks moreRows := by
  intro text
  fun_induction Scanner.moreRows text with
  | case1 rest r rest' h rs rest'' hrec ih =>
      rw [hrec] at ih
      exact ih.trans ((Shrinks.row.suffix_of_eq h).trans (List.suffix_cons _ rest))
  | case2 rest r rest' h hfail ih =>
      exact ih.trans ((Shrinks.row.suffix_of_eq h).trans (List.suffix_cons _ rest))
  | case3 => exact List.suffix_refl _
  | case4 rest expected rest' h =>
      exact (Shrinks.row.suffix_of_eq h).trans (List.suffix_cons _ rest)
  | case5 => exact List.suffix_refl _

theorem Shrinks.group : Shrinks group :=
  Shrinks.row.bind fun _ => Shrinks.moreRows.bind fun _ => .pure _

/-- A group behind an `S`, which must be there. -/
def alternate : Scanner (List Row) := group.required.labelled "alternate group"

theorem Shrinks.alternate : Shrinks alternate := Shrinks.group.required.labelled _

/-- The alternate groups, each behind an `S` of either case. -/
def alternates (text : List Char) : Outcome (List (List Row)) :=
  match text with
  | [] => .ok [] []
  | c :: rest =>
      if c = 'S' ∨ c = 's' then
        match _h : alternate rest with
        | .ok rows rest' =>
            match alternates rest' with
            | .ok more rest'' => .ok (rows :: more) rest''
            | failure => failure
        | .retry expected rest' => .retry expected rest'
        | .fatal expected rest' => .fatal expected rest'
      else .ok [] (c :: rest)
termination_by text.length
decreasing_by
  exact Nat.lt_succ_of_le (Shrinks.alternate.suffix_of_eq _h).length_le

/-- A whole trigger.  A core of exactly `1=1` in front of alternates only holds their place. -/
def trigger : Scanner Trigger := do
  let core ← group.optional
  let alternates ← alternates
  let core := core.getD []
  let core := if !alternates.isEmpty && core == [Row.alwaysTrue] then [] else core
  pure { core, alternates }

end Scanner

/-! ### Mistakes -/

/-- Why a text is no trigger, and how many bytes of it come before the mistake. -/
structure ReadError where
  expected : Expectation
  offset : Nat
  deriving DecidableEq, Repr

namespace ReadError

/-- What was expected; empty where the text just goes on behind a whole trigger. -/
def detail (e : ReadError) : String :=
  let labels := if e.expected.labels.isEmpty then []
    else ["expected " ++ ", ".intercalate e.expected.labels]
  let cause := if e.expected.tooLarge then ["number too large to fit in target type"] else []
  "\n".intercalate (labels ++ cause)

def message (e : ReadError) : String :=
  let place := "parse error at offset " ++ Numeral.decimal e.offset
  if e.detail.isEmpty then place else place ++ ": " ++ e.detail

end ReadError

/-- Bytes that characters take in UTF-8. -/
def byteLength (text : List Char) : Nat := text.foldr (fun c length => c.utf8Size + length) 0

/-- Read a trigger from its wire text, all of which must be used. -/
def Trigger.read (text : String) : Except ReadError Trigger :=
  let chars := text.toList
  let offset (rest : List Char) : Nat := byteLength chars - byteLength rest
  match Scanner.trigger chars with
  | .ok t [] => .ok t
  | .ok _ rest => .error ⟨{}, offset rest⟩
  | .retry expected rest => .error ⟨expected, offset rest⟩
  | .fatal expected rest => .error ⟨expected, offset rest⟩

/-! ## From text to text -/

/-- Read a trigger, simplify it and write it again. -/
def simplifyWire (text : String) : Except ReadError String := do
  let t ← Trigger.read text
  pure t.simplify.wire

/-- Compile a condition and write its trigger. -/
def compileToWire (s : Setting) (c : Condition) : Lowered String := do
  let t ← Trigger.compile s c
  pure t.wire

end MemoryTrigger

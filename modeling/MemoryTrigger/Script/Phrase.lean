import MemoryTrigger.Condition.Basic
import MemoryTrigger.Trigger
import MemoryTrigger.Wire.Writer

/-! # Rows as script text

A clause is shown as one script condition: accumulated rows as a sum, pointer rows as reads inside
reads, hit targets as `once`, `repeated` and `tally`, and roles as `never`, `unless`, `measured` and
`trigger_when`.  Reading a clause keeps what the rows so far have prepared for the rows to come
(`ClauseReading`). -/
namespace MemoryTrigger

inductive NumberFormat where
  | decimal
  | hex
  deriving DecidableEq, Repr

structure RenderOptions where
  /-- Longest line, in bytes; zero for one line of any length. -/
  width : Nat := 0
  /-- Spaces in front of every line but the first. -/
  indent : Nat := 4
  numberFormat : NumberFormat := .decimal
  deriving DecidableEq, Repr

/-- Text of a condition, and the junction at its top if it has one. -/
structure Phrase where
  text : String
  junction : Option Junction := none
  deriving DecidableEq, Repr

def Junction.symbol : Junction → String
  | and => " && "
  | or => " || "

namespace Phrase

/-- Text as an operand of a junction, in brackets where it is a run of the other one. -/
def operand (j : Junction) (p : Phrase) : String :=
  match p.junction with
  | some own => if own = j then p.text else "(" ++ p.text ++ ")"
  | none => p.text

def join (j : Junction) (p q : Phrase) : Phrase :=
  { text := p.operand j ++ j.symbol ++ q.operand j, junction := some j }

end Phrase

namespace NumberFormat

def text (format : NumberFormat) (n : UInt32) : String :=
  match format with
  | decimal => Numeral.decimal n.toNat
  | hex => "0x" ++ Numeral.hexUpper 1 n.toNat

end NumberFormat

namespace Operand

/-- Text of the address of a read, relative to a pointer in front of it. -/
def addressScript (pointer : Option String) (o : Operand) : String :=
  let place := "0x" ++ Numeral.hexUpper 6 o.value.toNat
  match pointer with
  | some base => if o.value = 0 then base else base ++ " + " ++ place
  | none => place

/-- Text of an operand. -/
def script (format : NumberFormat) (pointer : Option String) (o : Operand) : String :=
  let read := o.size.accessor ++ "(" ++ o.addressScript pointer ++ ")"
  match o.kind with
  | .unused => ""
  | .literal => format.text o.value
  | .current => read
  | .previous => "prev(" ++ read ++ ")"
  | .prior => "prior(" ++ read ++ ")"
  | .bcd => "bcd(" ++ read ++ ")"

end Operand

namespace Row

/-- Text of the left operand with the arithmetic applied to it. -/
def valueScript (format : NumberFormat) (pointer : Option String) (r : Row) : String :=
  let left := r.left.script format pointer
  match r.operator with
  | .arith a => left ++ " " ++ a.symbol ++ " " ++ r.right.script format pointer
  | _ => left

/-- Text of accumulated terms, each with whether it is subtracted. -/
def sumScript : List (Bool × String) → String
  | [] => ""
  | (subtract, first) :: rest =>
      (if subtract then "0 - " else "") ++ first ++
        String.join (rest.map fun (subtract, term) => (if subtract then " - " else " + ") ++ term)

/-- Text of a comparison behind accumulated terms. -/
def comparisonScript (format : NumberFormat) (pointer : Option String)
    (terms : List (Bool × String)) (relation : Relation) (r : Row) : String :=
  if terms.isEmpty && r = alwaysTrue then "always_true()"
  else if terms.isEmpty && r = alwaysFalse then "always_false()"
  else
    let sum := sumScript terms
    let own := r.left.script format pointer
    let left := if sum.isEmpty then own else sum ++ " + " ++ own
    left ++ " " ++ relation.symbol ++ " " ++ r.right.script format pointer

/-- Text of a row that does not feed the accumulator. -/
def testScript (format : NumberFormat) (pointer : Option String) (terms : List (Bool × String))
    (r : Row) : String :=
  match r.operator with
  | .compare relation => comparisonScript format pointer terms relation r
  | _ => valueScript format pointer r

end Row

/-- What the rows of a clause have prepared so far. -/
structure ClauseReading where
  /-- Address that the next row's reads are relative to. -/
  pointer : Option String := none
  /-- Terms accumulated for the next comparison, with whether they are subtracted. -/
  terms : List (Bool × String) := []
  /-- Condition that the next one is joined to. -/
  chain : Option (Phrase × Junction) := none
  /-- Conditions that add their hits to the last one. -/
  tally : List String := []
  /-- Condition that resets the next one. -/
  reset : Option String := none
  /-- The condition of the last row. -/
  result : Phrase := { text := "" }
  deriving Repr

namespace ClauseReading

/-- The condition of a row, joined to the chain before it. -/
def joined (s : ClauseReading) (p : Phrase) : Phrase :=
  match s.chain with
  | some (previous, j) => previous.join j p
  | none => p

/-- The condition with the reset that was prepared for it. -/
def withReset (s : ClauseReading) (p : Phrase) : Phrase :=
  match s.reset with
  | some reset => p.join .and { text := "never(" ++ reset ++ ")" }
  | none => p

/-- The condition with its hit target and the hits that are added to it. -/
def counted (s : ClauseReading) (hits : UInt32) (p : Phrase) : Phrase :=
  if !s.tally.isEmpty then
    { text := "tally(" ++ Numeral.decimal hits.toNat ++ ", " ++
        ", ".intercalate (s.tally ++ [p.text]) ++ ")" }
  else if hits = 1 then { text := "once(" ++ p.text ++ ")" }
  else if hits > 1 then
    { text := "repeated(" ++ Numeral.decimal hits.toNat ++ ", " ++ p.text ++ ")" }
  else p

/-- Read one row. -/
def step (format : NumberFormat) (s : ClauseReading) (r : Row) : ClauseReading :=
  let pointer := s.pointer
  let s := { s with pointer := none }
  match r.role with
  | .addAddress => { s with pointer := some (r.valueScript format pointer) }
  | .addSource => { s with terms := s.terms ++ [(false, r.valueScript format pointer)] }
  | .subSource => { s with terms := s.terms ++ [(true, r.valueScript format pointer)] }
  | role =>
      let test : Phrase := { text := r.testScript format pointer s.terms }
      let s := { s with terms := [] }
      match role with
      | .resetNextIf => { s with reset := some test.text }
      | .andNext => { s with chain := some (s.joined test, .and) }
      | .orNext => { s with chain := some (s.joined test, .or) }
      | role =>
          let condition := s.withReset (s.joined test)
          let s := { s with chain := none, reset := none }
          match role with
          | .addHits => { s with tally := s.tally ++ [condition.text] }
          | .subHits => { s with tally := s.tally ++ ["deduct(" ++ condition.text ++ ")"] }
          | _ => { s with result := s.counted r.hits condition }

/-- The condition read; a chain left open counts as it stands. -/
def finish (s : ClauseReading) : Phrase :=
  match s.chain with
  | some (dangling, _) => dangling
  | none => s.result

end ClauseReading

namespace Clause

/-- The condition of a clause without its role. -/
def bodyPhrase (format : NumberFormat) (c : Clause) : Phrase :=
  (c.rows.foldl (ClauseReading.step format) {}).finish

/-- The condition of a clause.  Measurements are left to their group. -/
def phrase (format : NumberFormat) (c : Clause) : Phrase :=
  let body := c.bodyPhrase format
  match c.role with
  | .resetIf => { text := "never(" ++ body.text ++ ")" }
  | .pauseIf => { text := "unless(" ++ body.text ++ ")" }
  | .trigger => { text := "trigger_when(" ++ body.text ++ ")" }
  | _ => body

/-- Text of a measurement with the conditions under which it counts. -/
def measuredPhrase (guards : List String) (percent : Bool) (body : String) : Phrase :=
  let guard := if guards.isEmpty then "" else ", when=" ++ " && ".intercalate guards
  let format := if percent then ", format=\"percent\"" else ""
  { text := "measured(" ++ body ++ guard ++ format ++ ")" }

/-- The conditions of a group.  Guards of a measurement are shown inside it. -/
def groupPhrases (format : NumberFormat) (rows : List Row) : List Phrase :=
  let clauses := split rows
  let guards := (clauses.filter fun c => c.role == .measuredIf).map fun c =>
    (c.phrase format).operand .and
  let measures := clauses.any (·.role.isMeasured)
  clauses.filterMap fun c =>
    let p := c.phrase format
    match c.role with
    | .measured => some (measuredPhrase guards false p.text)
    | .measuredPercent => some (measuredPhrase guards true p.text)
    | .measuredIf => if measures then none else some { text := "measured_if(" ++ p.text ++ ")" }
    | _ => some p

end Clause

namespace Trigger

/-- Text of an alternate. -/
def alternateScript (format : NumberFormat) (rows : List Row) : String :=
  match (Clause.groupPhrases format rows).map (·.operand .and) with
  | [] => "always_true()"
  | [single] => single
  | conditions => "(" ++ " && ".intercalate conditions ++ ")"

/-- The conjuncts of a trigger: each condition of the core, then the alternates as one. -/
def segments (format : NumberFormat) (t : Trigger) : List String :=
  let core := (Clause.groupPhrases format t.core).map (·.operand .and)
  let alternation := " || ".intercalate (t.alternates.map (alternateScript format))
  if t.alternates.isEmpty then if core.isEmpty then ["always_true()"] else core
  else if core.isEmpty then [alternation]
  else core ++ ["(" ++ alternation ++ ")"]

end Trigger
end MemoryTrigger

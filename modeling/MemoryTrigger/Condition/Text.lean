import MemoryTrigger.Condition.Basic

/-! # Conditions as text

Values and conditions written the way a script would.  Brackets stand only where the reading would
change without them: around sums inside products, quotients and masks and behind a minus sign, and
around disjunctions inside conjunctions.  Locations do not show. -/
namespace MemoryTrigger

namespace Value

/-- Whether the value is a sum or a difference. -/
def isSum : Value → Bool
  | add _ _ | sub _ _ => true
  | _ => false

/-- Text in brackets if the value is a sum. -/
def bracketed (v : Value) (text : String) : String :=
  if v.isSum then "(" ++ text ++ ")" else text

/-- Text of the address of a read: hexadecimal for constants that are not negative. -/
def addressText (address : Value) (text : String) : String :=
  match address with
  | constant n => if 0 ≤ n.toInt then "0x" ++ Numeral.hexUpper 6 n.toInt.toNat else text
  | _ => text

def text : Value → String
  | constant n => Numeral.signed n.toInt
  | read accessor address => accessor ++ "(" ++ address.addressText address.text ++ ")"
  | viewed view value => view.name ++ "(" ++ value.text ++ ")"
  | add a b => a.text ++ " + " ++ b.text
  | sub a b => a.text ++ " - " ++ b.bracketed b.text
  | mul a b => a.bracketed a.text ++ " * " ++ b.bracketed b.text
  | div a b => a.bracketed a.text ++ " / " ++ b.bracketed b.text
  | mask a b => a.bracketed a.text ++ " & " ++ b.bracketed b.text

end Value

namespace Condition

/-- Text in brackets if the condition is a disjunction. -/
def bracketed (c : Condition) (text : String) : String :=
  if c.junction? = some .or then "(" ++ text ++ ")" else text

/-- Text of the format of a measurement, where it is not the usual one. -/
def formatText (format : Option MeasuredFormat) : String :=
  if format = some .percent then ", format=\"percent\"" else ""

mutual

def text : Condition → String
  | compare left relation right => left.text ++ " " ++ relation.symbol ++ " " ++ right.text
  | and a b => a.bracketed a.text ++ " && " ++ b.bracketed b.text
  | or a b => a.text ++ " || " ++ b.text
  | literal true => "always_true()"
  | literal false => "always_false()"
  | repeated count body =>
      if count = 1 then "once(" ++ body.text ++ ")"
      else "repeated(" ++ Numeral.decimal count.toNat ++ ", " ++ body.text ++ ")"
  | resetIf body => "never(" ++ body.text ++ ")"
  | pauseIf body => "unless(" ++ body.text ++ ")"
  | measured body none format => "measured(" ++ body.text ++ formatText format ++ ")"
  | measured body (some guard) format =>
      "measured(" ++ body.text ++ ", when=" ++ guard.text ++ formatText format ++ ")"
  | tally count items => "tally(" ++ Numeral.decimal count.toNat ++ itemsText items ++ ")"
  | triggerWhen body => "trigger_when(" ++ body.text ++ ")"
  | located _ body => body.text

/-- The items of a tally, each behind a comma. -/
def itemsText : List (TallyItem Condition) → String
  | [] => ""
  | ⟨c, true⟩ :: rest => ", deduct(" ++ c.text ++ ")" ++ itemsText rest
  | ⟨c, false⟩ :: rest => ", " ++ c.text ++ itemsText rest

end

end Condition

/-- `start..stop` -/
def Location.text (l : Location) : String :=
  Numeral.decimal l.start ++ ".." ++ Numeral.decimal l.stop

end MemoryTrigger

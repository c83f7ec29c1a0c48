import MemoryTrigger.Condition.Text

/-! # Building conditions

Conditions can be built by instructions on a stack of values, conditions and tally items.  An
instruction takes what it needs off the top of the stack and puts one entry back; it does not apply
where something else lies there. -/
namespace MemoryTrigger

/-- Something under construction. -/
inductive StackEntry where
  | value (v : Value)
  | condition (c : Condition)
  | item (i : TallyItem Condition)
  deriving Repr

def StackEntry.text : StackEntry → String
  | value v => v.text
  | condition c => c.text
  | item ⟨c, true⟩ => "deduct " ++ c.text
  | item ⟨c, false⟩ => "count " ++ c.text

/-- Arithmetic between two values. -/
inductive ValueOperation where
  | add
  | sub
  | mul
  | div
  | mask
  deriving DecidableEq, Repr

def ValueOperation.apply : ValueOperation → Value → Value → Value
  | add => .add
  | sub => .sub
  | mul => .mul
  | div => .div
  | mask => .mask

/-- A step of building. -/
inductive Instruction where
  | constant (n : Int64)
  | read (accessor : String)
  | view (view : View)
  | operate (operation : ValueOperation)
  | compare (relation : Relation)
  | join (j : Junction)
  | literal (truth : Bool)
  | repeated (count : UInt32)
  | resetIf
  | pauseIf
  | measured (format : Option MeasuredFormat)
  | measuredWhen
  | triggerWhen
  | located (location : Location)
  | unlocated
  | item (deduct : Bool)
  | tally (count : UInt32) (items : Nat)
  deriving DecidableEq, Repr

def Junction.apply : Junction → Condition → Condition → Condition
  | and => .and
  | or => .or

namespace StackEntry

/-- Take tally items off the stack, the top one last. -/
def popItems : Nat → List (TallyItem Condition) → List StackEntry →
    Option (List (TallyItem Condition) × List StackEntry)
  | 0, items, stack => some (items, stack)
  | n + 1, items, item i :: rest => popItems n (i :: items) rest
  | _ + 1, _, _ => none

/-- The stack after an instruction; the top is the head of the list. -/
def step (stack : List StackEntry) (i : Instruction) : Option (List StackEntry) :=
  match i, stack with
  | .constant n, rest => some (value (.constant n) :: rest)
  | .read accessor, value a :: rest => some (value (.read accessor a) :: rest)
  | .view view, value v :: rest => some (value (.viewed view v) :: rest)
  | .operate op, value b :: value a :: rest => some (value (op.apply a b) :: rest)
  | .compare relation, value b :: value a :: rest => some (condition (.compare a relation b) :: rest)
  | .join j, condition b :: condition a :: rest => some (condition (j.apply a b) :: rest)
  | .literal truth, rest => some (condition (.literal truth) :: rest)
  | .repeated count, condition c :: rest => some (condition (.repeated count c) :: rest)
  | .resetIf, condition c :: rest => some (condition (.resetIf c) :: rest)
  | .pauseIf, condition c :: rest => some (condition (.pauseIf c) :: rest)
  | .measured format, condition c :: rest => some (condition (.measured c none format) :: rest)
  | .measuredWhen, condition guard :: condition c :: rest =>
      some (condition (.measured c (some guard) none) :: rest)
  | .triggerWhen, condition c :: rest => some (condition (.triggerWhen c) :: rest)
  | .located location, condition c :: rest => some (condition (.located location c) :: rest)
  | .unlocated, condition c :: rest => some (condition c.unlocated :: rest)
  | .item deduct, condition c :: rest => some (item ⟨c, deduct⟩ :: rest)
  | .tally count n, stack => do
      let (items, rest) ← popItems n [] stack
      pure (condition (.tally count items) :: rest)
  | _, _ => none

/-- The stacks after each of the instructions, the last one last. -/
def run (stack : List StackEntry) : List Instruction → Option (List (List StackEntry))
  | [] => some []
  | i :: rest => do
      let stack ← step stack i
      let more ← run stack rest
      pure (stack :: more)

end StackEntry
end MemoryTrigger

import MemoryTrigger.Row

/-! # Conditions

What a trigger is compiled from: a tree of comparisons between integer expressions over memory
reads.  The tree has no negation; conditions that reset, pause, count and measure are nodes of their
own.  A node can carry its place in the script it came from, which matters to error messages only. -/
namespace MemoryTrigger

/-- A span of the script a condition came from. -/
structure Location where
  start : Nat
  stop : Nat
  deriving DecidableEq, Repr

/-- A way to look at a read other than its value in the current frame. -/
inductive View where
  | prev
  | prior
  | bcd
  deriving DecidableEq, Repr

namespace View

/-- Name of the view in scripts. -/
def name : View → String
  | prev => "prev"
  | prior => "prior"
  | bcd => "bcd"

/-- The kind of operand that a read with this view is. -/
def kind : View → OperandKind
  | prev => .previous
  | prior => .prior
  | bcd => .bcd

end View

/-- Integer arithmetic over constants and memory reads. -/
inductive Value where
  | constant (n : Int64)
  /-- Memory behind a named accessor, such as `byte` or `bit3`. -/
  | read (accessor : String) (address : Value)
  | viewed (view : View) (value : Value)
  | add (a b : Value)
  | sub (a b : Value)
  | mul (a b : Value)
  | div (a b : Value)
  | mask (a b : Value)
  deriving DecidableEq, Repr

/-- How a measurement is shown. -/
inductive MeasuredFormat where
  | raw
  | percent
  deriving DecidableEq, Repr

/-- A contribution to a tally.  The hits of a deducted item count against it. -/
structure TallyItem (α : Type) where
  condition : α
  deduct : Bool := false
  deriving DecidableEq, Repr

/-- The condition a trigger is compiled from. -/
inductive Condition where
  | compare (left : Value) (relation : Relation) (right : Value)
  | and (a b : Condition)
  | or (a b : Condition)
  | literal (truth : Bool)
  /-- True once the body has been true in `count` frames. -/
  | repeated (count : UInt32) (body : Condition)
  /-- Clears all hit counts while the body is true. -/
  | resetIf (body : Condition)
  /-- Pauses its group while the body is true. -/
  | pauseIf (body : Condition)
  /-- Measures the body, while `when?` is true; the format defaults to that of the options. -/
  | measured (body : Condition) (when? : Option Condition) (format : Option MeasuredFormat)
  /-- True once the items together have been true in `count` frames. -/
  | tally (count : UInt32) (items : List (TallyItem Condition))
  | triggerWhen (body : Condition)
  | located (location : Location) (body : Condition)
  deriving Repr

/-- The two ways to join conditions. -/
inductive Junction where
  | and
  | or
  deriving DecidableEq, Repr

namespace Junction

def opposite : Junction → Junction
  | and => or
  | or => and

/-- Role of a row that joins the next one. -/
def link : Junction → Role
  | and => .andNext
  | or => .orNext

end Junction

namespace Condition

/-- The condition without the locations around it. -/
def unlocated : Condition → Condition
  | located _ c => c.unlocated
  | c => c

/-- Whether there is a location around the condition. -/
def isLocated : Condition → Bool
  | located _ _ => true
  | _ => false

/-- The junction at the top of the condition, seen through locations. -/
def junction? : Condition → Option Junction
  | and _ _ => some .and
  | or _ _ => some .or
  | located _ c => c.junction?
  | _ => none

/-- What a reset at the top of the condition resets on, seen through locations. -/
def resetBody? : Condition → Option Condition
  | resetIf c => some c
  | located _ c => c.resetBody?
  | _ => none

/-- The operands of the largest run of one junction at the top of the condition, left to right.
Locations around the run itself are dropped, those around its operands stay. -/
def operands (j : Junction) : Condition → List Condition
  | and a b => if j = .and then a.operands j ++ b.operands j else [and a b]
  | or a b => if j = .or then a.operands j ++ b.operands j else [or a b]
  | located l c => if c.junction? = some j then c.operands j else [located l c]
  | c => [c]

/-- An operand is no larger than the condition it belongs to. -/
theorem sizeOf_le_of_mem_operands {j : Junction} {c d : Condition} (h : c ∈ d.operands j) :
    sizeOf c ≤ sizeOf d := by
  fun_induction operands j d with
  | case1 a b hj iha ihb =>
      rcases List.mem_append.mp h with h | h
      · have := iha h
        simp only [and.sizeOf_spec]
        omega
      · have := ihb h
        simp only [and.sizeOf_spec]
        omega
  | case2 => simp_all
  | case3 hj a b iha ihb =>
      rcases List.mem_append.mp h with h | h
      · have := iha h
        simp only [or.sizeOf_spec]
        omega
      · have := ihb h
        simp only [or.sizeOf_spec]
        omega
  | case4 => simp_all
  | case5 l c hc ih =>
      have := ih h
      simp only [located.sizeOf_spec]
      omega
  | case6 => simp_all
  | case7 => simp_all

/-- What a reset resets on is smaller than the reset. -/
theorem sizeOf_lt_of_resetBody? {c d : Condition} (h : d.resetBody? = some c) :
    sizeOf c < sizeOf d := by
  fun_induction resetBody? d with
  | case1 d =>
      cases h
      simp only [resetIf.sizeOf_spec]
      omega
  | case2 l d ih =>
      have := ih h
      simp only [located.sizeOf_spec]
      omega
  | case3 => cases h

end Condition
end MemoryTrigger

/-! # Relations

The six comparisons a row or a condition can make.  A relation can be negated (`inverse`) and turned
around (`reverse`); `Relation.holds` is its meaning over any ordered type, so that the same relation
serves memory words and unbounded integers. -/
namespace MemoryTrigger

/-- A comparison between two values. -/
inductive Relation where
  | eq
  | ne
  | lt
  | le
  | gt
  | ge
  deriving DecidableEq, Repr

namespace Relation

/-- Negation: `a r b` fails exactly when `a r.inverse b` holds. -/
def inverse : Relation → Relation
  | eq => ne
  | ne => eq
  | lt => ge
  | le => gt
  | gt => le
  | ge => lt

/-- Operand swap: `a r b` holds exactly when `b r.reverse a` holds. -/
def reverse : Relation → Relation
  | lt => gt
  | le => ge
  | gt => lt
  | ge => le
  | r => r

/-- Whether `a r b`. -/
def holds {α : Type} [DecidableEq α] [LT α] [DecidableLT α] [LE α] [DecidableLE α]
    (r : Relation) (a b : α) : Bool :=
  match r with
  | eq => decide (a = b)
  | ne => decide (a ≠ b)
  | lt => decide (a < b)
  | le => decide (a ≤ b)
  | gt => decide (b < a)
  | ge => decide (b ≤ a)

/-- The symbol of the relation in script text. -/
def symbol : Relation → String
  | eq => "=="
  | ne => "!="
  | lt => "<"
  | le => "<="
  | gt => ">"
  | ge => ">="

theorem inverse_inverse (r : Relation) : r.inverse.inverse = r := by cases r <;> rfl

theorem reverse_reverse (r : Relation) : r.reverse.reverse = r := by cases r <;> rfl

end Relation
end MemoryTrigger

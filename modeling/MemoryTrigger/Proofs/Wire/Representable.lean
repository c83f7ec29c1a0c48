import MemoryTrigger.Trigger

/-! # Triggers that wire text can express

Wire text has no way to write an operand that is not there, the width of a literal, or an alternate
without rows, and it reads a core of exactly `1=1` in front of alternates as no core at all.
`Trigger.IsRepresentable` says that a trigger makes no use of these. -/
namespace MemoryTrigger

/-- The operand is there, and is of full width if it is a literal. -/
def Operand.IsRepresentable (o : Operand) : Prop :=
  o.kind ≠ .unused ∧ (o.kind = .literal → o.size = .dword)

instance : DecidablePred Operand.IsRepresentable := fun o =>
  inferInstanceAs (Decidable (o.kind ≠ .unused ∧ (o.kind = .literal → o.size = .dword)))

/-- The row has a left operand, and a right one exactly if it has an operator. -/
def Row.IsRepresentable (r : Row) : Prop :=
  r.left.IsRepresentable ∧
    if r.operator = .absent then r.right = .missing else r.right.IsRepresentable

instance : DecidablePred Row.IsRepresentable := fun r =>
  inferInstanceAs (Decidable (r.left.IsRepresentable ∧
    if r.operator = .absent then r.right = .missing else r.right.IsRepresentable))

/-- Rows that wire text can express as an alternate. -/
def Row.AreRepresentable (rows : List Row) : Prop := rows ≠ [] ∧ ∀ r ∈ rows, r.IsRepresentable

/-- **A trigger that wire text can express**: every row can be written, no alternate is empty, and a
core in front of alternates is not the `1=1` that holds the place of an empty one. -/
structure Trigger.IsRepresentable (t : Trigger) : Prop where
  rows : ∀ r ∈ t.rows, r.IsRepresentable
  alternates : ∀ rows ∈ t.alternates, rows ≠ []
  core : t.alternates ≠ [] → t.core ≠ [.alwaysTrue]

namespace Operand

theorem isRepresentable_literal (value : UInt32) : (literal value).IsRepresentable :=
  ⟨by simp [literal], fun _ => rfl⟩

theorem isRepresentable_of_isMemory {o : Operand} (h : o.isMemory = true) : o.IsRepresentable := by
  obtain ⟨kind, size, value⟩ := o
  revert h
  cases kind <;> simp [isMemory, IsRepresentable]

end Operand

namespace Row

/-- What a row is for and how often it has to hold can always be written. -/
theorem IsRepresentable.of_eq {r r' : Row} (h : r.IsRepresentable) (hleft : r'.left = r.left)
    (hoperator : r'.operator = r.operator) (hright : r'.right = r.right) :
    r'.IsRepresentable := by
  rwa [IsRepresentable, hleft, hoperator, hright]

theorem isRepresentable_comparing {left right : Operand} (hleft : left.IsRepresentable)
    (relation : Relation) (hright : right.IsRepresentable) :
    (comparing left relation right).IsRepresentable :=
  ⟨hleft, by simpa [comparing] using hright⟩

theorem isRepresentable_constant (truth : Bool) : (constant truth).IsRepresentable := by
  cases truth <;> decide

end Row
end MemoryTrigger

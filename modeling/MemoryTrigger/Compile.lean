import MemoryTrigger.Chain
import MemoryTrigger.Edit
import MemoryTrigger.Simplify.Pipeline

/-! # Compiling conditions

A condition becomes a trigger: conjunctions and disjunctions outside of chains multiply out into a
core and alternates, everything else becomes clauses.  All measurements of one trigger must have the
same target; the first target met is carried along and compared with the others. -/
namespace MemoryTrigger

/-- The target of the first measurement so far. -/
abbrev FirstTarget : Type := Option UInt32

namespace FirstTarget

/-- The target after a row was measured, which has to agree with an earlier one. -/
def measure (first : FirstTarget) (target : Option UInt32) : Lowered FirstTarget :=
  match first, target with
  | first, none => .ok first
  | none, some t => .ok (some t)
  | some f, some t => if f = t then .ok (some f) else Lowered.reject (.mismatchedTargets f t)

end FirstTarget

/-- The role of a measured row. -/
def MeasuredFormat.role : MeasuredFormat → Role
  | raw => .measured
  | percent => .measuredPercent

namespace Condition

/-- The rows of a measurement, with the conditions under which it counts behind it. -/
def measuredRows (s : Setting) (first : FirstTarget) (body : Condition) (when? : Option Condition)
    (format : Option MeasuredFormat) : Lowered (List Row × FirstTarget) := do
  let rows ← body.chain s (format.getD s.options.measuredFormat).role
  let first ← first.measure (rows.getLast?.bind Row.target?)
  let guards ← match when? with
    | none => pure []
    | some guard => chains s .measuredIf (guard.operands .and)
  pure (rows ++ guards, first)

/-- The trigger of a condition before simplification, and the first measured target. -/
def lower (s : Setting) : Condition → FirstTarget → Lowered (Trigger × FirstTarget)
  | located l c, first => (c.lower s first).located l
  | and a b, first => do
      let (ta, first) ← a.lower s first
      let (tb, first) ← b.lower s first
      pure (ta.and tb, first)
  | or a b, first => do
      let (ta, first) ← a.lower s first
      let (tb, first) ← b.lower s first
      pure (ta.or tb, first)
  | triggerWhen c, first => do
      let (t, first) ← c.lower s first
      pure (t.mapRows fun r => if r.role = .plain then { r with role := .trigger } else r, first)
  | resetIf c, first => do
      let core ← chains s .resetIf (c.operands .or)
      pure ({ core }, first)
  | pauseIf c, first => do
      let core ← chains s .pauseIf (c.operands .or)
      pure ({ core }, first)
  | measured body when? format, first => do
      let (core, first) ← measuredRows s first body when? format
      pure ({ core }, first)
  | c, first => do
      let core ← c.chainRows s
      pure ({ core }, first)

end Condition

namespace Trigger

/-- Compile a condition. -/
def compile (s : Setting) (c : Condition) : Lowered Trigger := do
  let (t, _) ← c.lower s none
  if !t.rows.any (·.role.isTruthy) then Lowered.reject .noTruthyConditions
  else pure (if s.options.simplify then t.simplify else t)

end Trigger
end MemoryTrigger

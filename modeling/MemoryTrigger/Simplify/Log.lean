import MemoryTrigger.Wire.Writer

/-! # The simplifier's log

Simplifying a trigger leaves a log of what was changed.  `Logged` carries it beside a value, so
that a pass is a plain function of the trigger whose value can be studied without its log. -/
namespace MemoryTrigger

/-- How two clauses became one. -/
inductive MergeKind where
  | keepFirst
  | keepSecond
  | replace
  deriving DecidableEq, Repr

def MergeKind.name : MergeKind → String
  | keepFirst => "KeepFirst"
  | keepSecond => "KeepSecond"
  | replace => "Replace"

inductive LogLevel where
  | trace
  | debug
  | error
  deriving DecidableEq, Repr

def LogLevel.name : LogLevel → String
  | trace => "TRACE"
  | debug => "DEBUG"
  | error => "ERROR"

/-- Something the simplifier did. -/
inductive Event where
  | normalized (before after : Row)
  | linkRemoved (row : Row)
  | clausePromoted
  | clausesMerged (first second : Nat) (kind : MergeKind)
  | alternatesMerged (kept removed : Nat)
  | alternateImplied (index : Nat)
  | bitsMerged (count : Nat) (row : Row)
  | passChanged (name : String)
  | converged (rounds : Nat)
  | stopped (rounds : Nat)
  deriving DecidableEq, Repr

namespace Event

def level : Event → LogLevel
  | passChanged _ | converged _ => .debug
  | stopped _ => .error
  | _ => .trace

def text : Event → String
  | normalized before after => "normalized " ++ before.wire ++ " to " ++ after.wire
  | linkRemoved row => "removed identity link " ++ row.wire
  | clausePromoted => "promoted shared clause to core"
  | clausesMerged first second kind =>
      "merged clauses " ++ Numeral.decimal first ++ " and " ++ Numeral.decimal second ++ ": " ++
        kind.name
  | alternatesMerged kept removed =>
      "merged alternate " ++ Numeral.decimal removed ++ " into alternate " ++ Numeral.decimal kept
  | alternateImplied index => "alternate " ++ Numeral.decimal index ++ " implies a sibling"
  | bitsMerged count row =>
      "merged " ++ Numeral.decimal count ++ " bit tests into " ++ row.wire
  | passChanged name => "optimizer pass '" ++ name ++ "' rewrote the trigger"
  | converged rounds => "optimizer converged after " ++ Numeral.decimal rounds ++ " iterations"
  | stopped rounds =>
      "optimizer stopped after " ++ Numeral.decimal rounds ++ " iterations without converging"

/-- A line of the log. -/
def line (e : Event) : String := e.level.name ++ " " ++ e.text

end Event

/-- A value and the events that led to it, oldest first. -/
structure Logged (α : Type) where
  value : α
  events : List Event := []
  deriving Repr

namespace Logged
variable {α β : Type}

instance : Monad Logged where
  pure a := { value := a }
  bind x f :=
    let y := f x.value
    { value := y.value, events := x.events ++ y.events }

/-- Add one event. -/
def note (e : Event) : Logged Unit := { value := (), events := [e] }

@[simp] theorem value_pure (a : α) : (pure a : Logged α).value = a := rfl

@[simp] theorem value_bind (x : Logged α) (f : α → Logged β) :
    (x >>= f).value = (f x.value).value := rfl

/-- The same logged step on every element. -/
def each (f : α → Logged β) (xs : List α) : Logged (List β) :=
  let ys := xs.map f
  { value := ys.map Logged.value, events := ys.flatMap Logged.events }

@[simp] theorem value_each (f : α → Logged β) (xs : List α) :
    (each f xs).value = xs.map fun x => (f x).value := by
  simp [each, Function.comp_def]

/-- Repeat a step while it applies, at most `limit` times. -/
def exhaust (step : α → Option (α × Event)) : Nat → α → Logged α
  | 0, a => pure a
  | limit + 1, a =>
      match step a with
      | none => pure a
      | some (b, e) => do
          note e
          exhaust step limit b

/-- **Induction along the steps of a run**, with what it logs: what is true of a run without steps,
and of a run once it is true of the run after its first step. -/
theorem exhaust_induction {step : α → Option (α × Event)} {motive : α → Logged α → Prop}
    (done : ∀ a, motive a ⟨a, []⟩)
    (more : ∀ a b e result, step a = some (b, e) → motive b result →
      motive a ⟨result.value, [e] ++ result.events⟩) (limit : Nat) (a : α) :
    motive a (exhaust step limit a) := by
  induction limit generalizing a with
  | zero => exact done a
  | succ limit ih =>
      unfold exhaust
      split
      · exact done a
      · rename_i b e h
        exact more a b e _ h (ih b)

/-- **What every step keeps, exhausting the steps keeps.** -/
theorem exhaust_keeps {step : α → Option (α × Event)} {P : α → Prop}
    (hstep : ∀ a b e, step a = some (b, e) → P a → P b) (limit : Nat) (a : α) (ha : P a) :
    P (exhaust step limit a).value :=
  exhaust_induction (motive := fun a result => P a → P result.value) (fun _ ha => ha)
    (fun a b e _ h ih ha => ih (hstep a b e h ha)) limit a ha

end Logged
end MemoryTrigger

import MemoryTrigger.Comparison

/-! # Chains

A condition inside a reset, a pause, a count, a tally or a measurement has to become one clause:
rows joined by `andNext` and `orNext`, the last of which takes the role that is asked for.  Links act
strictly from the first row to the last, so that among the operands of a junction only one may itself
be a run of the other junction; its rows come first. -/
namespace MemoryTrigger

structure CompileOptions where
  /-- Write `1=1` or `0=1` for comparisons that do not depend on memory instead of refusing them. -/
  allowTrivial : Bool := false
  /-- Format of measurements that do not choose one. -/
  measuredFormat : MeasuredFormat := .raw
  /-- Simplify the compiled trigger. -/
  simplify : Bool := true
  deriving DecidableEq, Repr

/-- What compiling depends on beside the condition. -/
structure Setting where
  /-- The sizes of memory accessors. -/
  resolve : String → Option Size := Size.ofAccessor?
  options : CompileOptions := {}

/-- Change the last element of a list. -/
def mapLast {α : Type} (f : α → α) : List α → List α
  | [] => []
  | [x] => [f x]
  | x :: y :: rest => x :: mapLast f (y :: rest)

namespace Row

/-- Rows with the role of the last one set. -/
def endingIn (role : Role) (rows : List Row) : List Row := mapLast ({ · with role }) rows

/-- Rows with the hit target of the last one set. -/
def countingTo (hits : UInt32) (rows : List Row) : List Row := mapLast ({ · with hits }) rows

end Row

/-- The rows of a comparison.  One that does not depend on memory is refused unless trivial rows are
allowed. -/
def Comparison.toRows (options : CompileOptions) : Comparison → Lowered (List Row)
  | .rows rs => .ok rs
  | .constant truth =>
      if options.allowTrivial then .ok [Row.constant truth]
      else Lowered.reject (if truth then .alwaysTrue else .neverTrue)

/-- An operand of a chain, and its rows if it has any. -/
structure Link where
  junction? : Option Junction
  rows : Lowered (List Row)

/-- Rows for the operands of a junction; the one that is a run of the other junction comes first. -/
def Link.joined (j : Junction) (links : List Link) : Lowered (List Row) :=
  let compound := links.filter fun l => l.junction? = some j.opposite
  let simple := links.filter fun l => ¬ l.junction? = some j.opposite
  if compound.length > 1 then Lowered.reject .chainTooComplex
  else do
    let chains ← (compound ++ simple).mapM Link.rows
    pure (Row.endingIn .plain (chains.map (Row.endingIn j.link)).flatten)

/-- Chains whose hits add up: all but the last add theirs to it. -/
def Link.summed : List (Lowered (List Row)) → Lowered (List Row)
  | [] => .ok []
  | [last] => do
      let rows ← last
      pure (Row.endingIn .plain rows)
  | first :: rest => do
      let rows ← first
      let more ← summed rest
      pure (Row.endingIn .addHits rows ++ more)

/-- Rows of a tally.  The last item that is not deducted carries the target, and comes last. -/
def Link.tallied (count : UInt32) (items : List (TallyItem (Lowered (List Row)))) :
    Lowered (List Row) :=
  if count = 0 then Lowered.reject .zeroRepeatCount
  else if items.isEmpty then Lowered.reject .emptyTally
  else
    match splitLast? (fun item => !item.deduct) items with
    | none => Lowered.reject .noCountedTallyItem
    | some (before, last, behind) => do
        let others ← (before ++ behind).mapM fun item => do
          let rows ← item.condition
          pure (Row.endingIn (if item.deduct then .subHits else .addHits) rows)
        let rows ← last.condition
        pure (others.flatten ++ Row.countingTo count (Row.endingIn .plain rows))

namespace Condition

/-- What the resets among the conjuncts of a counted condition reset on. -/
def countedResets (c : Condition) : List Condition := (c.operands .and).filterMap resetBody?

/-- The other conjuncts of a counted condition. -/
def countedParts (c : Condition) : List Condition :=
  (c.operands .and).filter fun part => part.resetBody?.isNone

theorem sizeOf_lt_of_mem_countedResets {c d : Condition} (h : c ∈ d.countedResets) :
    sizeOf c < sizeOf d := by
  obtain ⟨part, hpart, hreset⟩ := List.mem_filterMap.mp h
  exact Nat.lt_of_lt_of_le (sizeOf_lt_of_resetBody? hreset) (sizeOf_le_of_mem_operands hpart)

theorem sizeOf_le_of_mem_countedParts {c d : Condition} (h : c ∈ d.countedParts) :
    sizeOf c ≤ sizeOf d :=
  sizeOf_le_of_mem_operands (List.mem_filter.mp h).1

theorem sizeOf_lt_of_mem_append {j : Junction} {a b c : Condition}
    (h : c ∈ a.operands j ++ b.operands j) : sizeOf c < 1 + sizeOf a + sizeOf b := by
  rcases List.mem_append.mp h with h | h
  · have := sizeOf_le_of_mem_operands h
    omega
  · have := sizeOf_le_of_mem_operands h
    omega

theorem sizeOf_lt_repeated {count : UInt32} {c d : Condition} (h : sizeOf c ≤ sizeOf d) :
    sizeOf c < sizeOf (repeated count d) := by
  simp only [repeated.sizeOf_spec]
  omega

theorem sizeOf_lt_tally {count : UInt32} {item : TallyItem Condition}
    {items : List (TallyItem Condition)} (h : item ∈ items) :
    sizeOf item.condition < sizeOf (tally count items) := by
  have hitem := List.sizeOf_lt_of_mem h
  cases item
  simp only [TallyItem.mk.sizeOf_spec] at hitem
  simp only [tally.sizeOf_spec]
  omega

/-- The rows of a condition as one clause with a plain last row. -/
def chainRows (s : Setting) : Condition → Lowered (List Row)
  | located l c => (c.chainRows s).located l
  | compare left relation right => do
      let comparison ← Comparison.ofValues s.resolve left relation right
      comparison.toRows s.options
  | literal truth => .ok [Row.constant truth]
  | and a b =>
      Link.joined .and ((a.operands .and ++ b.operands .and).attach.map fun ⟨c, _hc⟩ =>
        ⟨c.junction?, c.chainRows s⟩)
  | or a b =>
      Link.joined .or ((a.operands .or ++ b.operands .or).attach.map fun ⟨c, _hc⟩ =>
        ⟨c.junction?, c.chainRows s⟩)
  | repeated count body =>
      if count = 0 then Lowered.reject .zeroRepeatCount
      else do
        let resets ← (body.countedResets.attach.map fun ⟨c, _hc⟩ => c.chainRows s).mapM id
        let counted ← match _h : body.countedParts with
          | [] => Lowered.reject .noTruthyConditions
          | [part] =>
              if part.junction? = some .or then
                Link.summed ((part.operands .or).attach.map fun ⟨c, _hc⟩ => c.chainRows s)
              else part.chainRows s
          | parts => Link.joined .and (parts.attach.map fun ⟨c, _hc⟩ =>
              ⟨c.junction?, c.chainRows s⟩)
        pure ((resets.map (Row.endingIn .resetNextIf)).flatten ++
          Row.countingTo count (Row.endingIn .plain counted))
  | tally count items =>
      Link.tallied count (items.attach.map fun ⟨item, _hitem⟩ =>
        { item with condition := item.condition.chainRows s })
  | resetIf _ => Lowered.reject (.unsupportedNesting .resetIf)
  | pauseIf _ => Lowered.reject (.unsupportedNesting .pauseIf)
  | measured _ _ _ => Lowered.reject (.unsupportedNesting .measured)
  | triggerWhen _ => Lowered.reject (.unsupportedNesting .triggerWhen)
termination_by c => sizeOf c
decreasing_by
  · simp only [located.sizeOf_spec]
    omega
  · exact sizeOf_lt_of_mem_append _hc
  · exact sizeOf_lt_of_mem_append _hc
  · exact sizeOf_lt_repeated (Nat.le_of_lt (sizeOf_lt_of_mem_countedResets _hc))
  · exact sizeOf_lt_repeated (Nat.le_trans (sizeOf_le_of_mem_operands _hc)
      (sizeOf_le_of_mem_countedParts (_h ▸ List.mem_singleton.mpr rfl)))
  · exact sizeOf_lt_repeated (sizeOf_le_of_mem_countedParts (_h ▸ List.mem_singleton.mpr rfl))
  · exact sizeOf_lt_repeated (sizeOf_le_of_mem_countedParts (_h ▸ _hc))
  · exact sizeOf_lt_tally _hitem

/-- The rows of a condition as one clause whose last row has the role. -/
def chain (s : Setting) (role : Role) (c : Condition) : Lowered (List Row) := do
  let rows ← c.chainRows s
  pure (Row.endingIn role rows)

/-- One chain after another, each ending in the role. -/
def chains (s : Setting) (role : Role) (cs : List Condition) : Lowered (List Row) := do
  let rows ← cs.mapM (chain s role)
  pure rows.flatten

end Condition
end MemoryTrigger

import MemoryTrigger.Proofs.Lowering.Failures
import MemoryTrigger.Proofs.Lowering.Runs

/-! # Which trees fit into one chain

Links act strictly from the first row to the last, so that the operands of a run fit into one chain
only if at most one of them is a run of the other junction.  `Condition.runs` lists the runs of a
tree that are not part of a longer one.  A tree whose comparisons have rows is refused exactly when
one of these runs has two operands of the other junction; every other tree becomes one clause that
is as true as the tree (`Condition.chain_of_isTree`). -/
namespace MemoryTrigger

/-! ## Runs of a tree -/

/-- Operands that one junction joins. -/
structure Run where
  junction : Junction
  operands : List Condition
  deriving Repr

/-- Whether two or more operands are runs of the other junction. -/
def Run.isMixed (run : Run) : Bool :=
  1 < run.operands.countP fun c => c.junction? = some run.junction.opposite

namespace Condition

/-- The longest runs in a condition that is itself an operand of the given junction. -/
def runsBelow : Condition → Option Junction → List Run
  | and a b, above? =>
      (if above? = some .and then [] else [⟨.and, (and a b).operands .and⟩]) ++
        (a.runsBelow (some .and) ++ b.runsBelow (some .and))
  | or a b, above? =>
      (if above? = some .or then [] else [⟨.or, (or a b).operands .or⟩]) ++
        (a.runsBelow (some .or) ++ b.runsBelow (some .or))
  | located _ c, above? => c.runsBelow above?
  | _, _ => []

/-- The longest runs in a condition. -/
def runs (c : Condition) : List Run := c.runsBelow none

/-- Whether every comparison of a tree has rows. -/
def comparisonsLower (s : Setting) : Condition → Bool
  | compare left relation right => ((compare left relation right).chainRows s).isOk
  | and a b | or a b => a.comparisonsLower s && b.comparisonsLower s
  | located _ c => c.comparisonsLower s
  | _ => true

/-- Below a junction that is not its own, a run is as long as it is by itself. -/
theorem runsBelow_of_junction?_ne {j : Junction} {c : Condition} (h : c.junction? ≠ some j) :
    c.runsBelow (some j) = c.runs := by
  unfold runs
  fun_induction junction? c with
  | case1 a b => simp_all [runsBelow, eq_comm]
  | case2 a b => simp_all [runsBelow, eq_comm]
  | case3 l c ih => exact ih h
  | case4 c hand hor hlocated => cases c <;> simp_all [runsBelow]

/-- The runs below a junction are those of the operands. -/
theorem mem_runsBelow {j : Junction} {c : Condition} {run : Run} :
    run ∈ c.runsBelow (some j) ↔ ∃ d ∈ c.operands j, run ∈ d.runs := by
  have hone {c : Condition} (h : c.junction? ≠ some j) :
      run ∈ c.runsBelow (some j) ↔ ∃ d ∈ [c], run ∈ d.runs := by
    simp [runsBelow_of_junction?_ne h]
  fun_induction operands j c with
  | case1 a b hj iha ihb =>
    subst hj
    simp only [runsBelow, if_true, List.nil_append, List.mem_append, iha, ihb, or_and_right,
      exists_or]
  | case2 a b hj => exact hone (by simpa [junction?, eq_comm] using hj)
  | case3 a b hj iha ihb =>
    subst hj
    simp only [runsBelow, if_true, List.nil_append, List.mem_append, iha, ihb, or_and_right,
      exists_or]
  | case4 a b hj => exact hone (by simpa [junction?, eq_comm] using hj)
  | case5 l c hc ih => exact ih
  | case6 l c hc => exact hone hc
  | case7 c hand hor hlocated =>
    refine hone ?_
    rw [junction?.eq_4 c hand hor hlocated]
    simp

/-- The runs of joined conditions: the one at the top, and those of its operands. -/
theorem mem_runs_join {j : Junction} {a b : Condition} {run : Run} :
    run ∈ (j.join a b).runs ↔ run = ⟨j, (j.join a b).operands j⟩ ∨
      ∃ d ∈ (j.join a b).operands j, run ∈ d.runs := by
  have hbelow : (j.join a b).runs =
      ⟨j, (j.join a b).operands j⟩ :: (j.join a b).runsBelow (some j) := by
    cases j <;> simp [runs, Junction.join, runsBelow]
  rw [hbelow, List.mem_cons, mem_runsBelow]

/-! ## Trees that are refused -/

/-- Whether some run of the condition has two operands of the other junction. -/
def isMixed (c : Condition) : Bool := c.runs.any Run.isMixed

theorem isMixed_join {j : Junction} {a b : Condition} :
    (j.join a b).isMixed = true ↔ 1 < compounds j ((j.join a b).operands j) ∨
      ∃ d ∈ (j.join a b).operands j, d.isMixed = true := by
  have htop : 1 < compounds j ((j.join a b).operands j) ↔
      (Run.isMixed ⟨j, (j.join a b).operands j⟩) = true := by
    simp [compounds, Run.isMixed]
  simp only [isMixed, List.any_eq_true, mem_runs_join, htop]
  constructor
  · rintro ⟨run, rfl | ⟨d, hd, hrun⟩, hmixed⟩
    · exact .inl hmixed
    · exact .inr ⟨d, hd, run, hrun, hmixed⟩
  · rintro (hmixed | ⟨d, hd, run, hrun, hmixed⟩)
    · exact ⟨_, .inl rfl, hmixed⟩
    · exact ⟨run, .inr ⟨d, hd, hrun⟩, hmixed⟩

theorem isTree_of_isOutermost {c : Condition} (h : c.isOutermost = true) : c.isTree = false := by
  cases c with
  | resetIf _ | pauseIf _ | measured _ _ _ | triggerWhen _ => rfl
  | _ => cases h

theorem comparisonsLower_of_mem_operands {s : Setting} {j : Junction} {c d : Condition}
    (hc : c.comparisonsLower s = true) (h : d ∈ c.operands j) : d.comparisonsLower s = true :=
  of_mem_operands (P := fun c => c.comparisonsLower s = true)
    (fun j a b hjoin => by cases j <;> simpa [Junction.join, comparisonsLower] using hjoin)
    (fun _ _ hlocated => hlocated) hc h

end Condition

/-- A failure because a condition is too complex for one chain. -/
def Failure.IsTooComplex (f : Failure) : Prop :=
  ∃ location, f = .rejected ⟨.chainTooComplex, location⟩

namespace Lowered
variable {α β : Type}

/-- Steps that all succeed succeed together. -/
theorem exists_mapM_eq_ok {f : α → Lowered β} {xs : List α} (h : ∀ x ∈ xs, ∃ y, f x = .ok y) :
    ∃ ys, xs.mapM f = .ok ys := by
  induction xs with
  | nil => exact ⟨[], rfl⟩
  | cons x xs ih =>
    obtain ⟨⟨y, hy⟩, hxs⟩ := List.forall_mem_cons.mp h
    obtain ⟨ys, hys⟩ := ih hxs
    exact ⟨y :: ys, mapM_eq_ok.mpr (.cons hy (mapM_eq_ok.mp hys))⟩

/-- Where steps succeed together, each of them does. -/
theorem exists_eq_ok_of_mapM {f : α → Lowered β} {xs : List α} {ys : List β}
    (h : xs.mapM f = .ok ys) {x : α} (hx : x ∈ xs) : ∃ y, f x = .ok y := by
  induction mapM_eq_ok.mp h with
  | nil => cases hx
  | cons hxy hrest ih =>
    rcases List.mem_cons.mp hx with rfl | hx
    · exact ⟨_, hxy⟩
    · exact ih (mapM_eq_ok.mpr hrest) hx

end Lowered

namespace Condition
open Lowered

variable {s : Setting}

/-- Nothing but its runs can be wrong with a tree whose comparisons have rows. -/
theorem fails_chainRows_of_isTree {c : Condition} (hc : c.isTree = true)
    (hlower : c.comparisonsLower s = true) : (c.chainRows s).Fails Failure.IsTooComplex := by
  induction c using chain_induction with
  | compare left relation right =>
    obtain ⟨rows, hrows⟩ := exists_eq_ok_of_isOk hlower
    rw [hrows]
    exact fails_ok rows
  | literal truth =>
    rw [chainRows]
    exact fails_ok _
  | located l c ih =>
    rw [chainRows]
    intro f hf
    cases hchain : c.chainRows s with
    | ok rows =>
      rw [hchain] at hf
      cases hf
    | error g =>
      obtain ⟨location, rfl⟩ := ih hc hlower g hchain
      rw [hchain] at hf
      cases hf
      exact ⟨_, rfl⟩
  | join j a b ih =>
    rw [chainRows_join]
    split
    · rintro f ⟨⟩
      exact ⟨none, rfl⟩
    · refine Fails.bind (Fails.mapM fun d hd => ?_) fun _ => fails_pure _
      have hd := mem_linkOrder.mp hd
      exact ih d hd (isTree_of_mem_operands hc hd) (comparisonsLower_of_mem_operands hlower hd)
  | repeated count body => cases hc
  | tally count items => cases hc
  | outermost c houter => simp [isTree_of_isOutermost houter] at hc

/-- **A tree whose comparisons have rows has a chain unless a run of it is mixed.** -/
theorem exists_chainRows_iff {c : Condition} (hc : c.isTree = true)
    (hlower : c.comparisonsLower s = true) :
    (∃ rows, c.chainRows s = .ok rows) ↔ c.isMixed = false := by
  induction c using chain_induction with
  | compare left relation right =>
    exact ⟨fun _ => rfl, fun _ => exists_eq_ok_of_isOk hlower⟩
  | literal truth =>
    rw [chainRows]
    exact ⟨fun _ => rfl, fun _ => ⟨_, rfl⟩⟩
  | located l c ih =>
    simp only [chainRows, located_eq_ok]
    exact ih hc hlower
  | join j a b ih =>
    have hoperand {d : Condition} (hd : d ∈ (j.join a b).operands j) :=
      ih d hd (isTree_of_mem_operands hc hd) (comparisonsLower_of_mem_operands hlower hd)
    rw [← Bool.not_eq_true, isMixed_join, chainRows_join]
    split
    · rename_i hmixed
      simp [hmixed]
    · rename_i hsimple
      simp only [hsimple, false_or, not_exists, not_and, Bool.not_eq_true, bind_eq_ok, pure_eq_ok]
      constructor
      · rintro ⟨rows, chains, hchains, -⟩ d hd
        exact (hoperand hd).mp (exists_eq_ok_of_mapM hchains (mem_linkOrder.mpr hd))
      · intro hoperands
        have hlinked (d) (hd : d ∈ linkOrder j ((j.join a b).operands j)) :
            ∃ rows, d.chainRows s = .ok rows :=
          (hoperand (mem_linkOrder.mp hd)).mpr (hoperands d (mem_linkOrder.mp hd))
        obtain ⟨chains, hchains⟩ := exists_mapM_eq_ok hlinked
        exact ⟨_, chains, hchains, rfl⟩
  | repeated count body => cases hc
  | tally count items => cases hc
  | outermost c houter => simp [isTree_of_isOutermost houter] at hc

/-- **Chains take exactly the trees that are not mixed, and keep their meaning.**  The chain of a
tree whose comparisons have rows fails exactly when some longest run of the tree has two operands of
the other junction, and then because it is too complex.  Every other tree becomes the rows of one
clause: all but the last chain on, the last has the role that was asked for, and read from the first
row to the last the clause is as true as the tree, in every memory. -/
theorem chain_of_isTree {c : Condition} (hc : c.isTree = true)
    (hlower : c.comparisonsLower s = true) (role : Role) :
    ((∃ f, c.chain s role = .error f) ↔ c.isMixed = true) ∧
      (∀ f, c.chain s role = .error f → f.IsTooComplex) ∧
      (c.isMixed = false → ∃ clause : Clause, c.chain s role = .ok clause.rows ∧
        (∀ r ∈ clause.lead, r.role.isCombining = true) ∧ clause.role = role ∧
        ∀ m, clause.holdsIn m = c.truthIn s.resolve m) := by
  have hfails : (c.chain s role).Fails Failure.IsTooComplex :=
    (fails_chainRows_of_isTree hc hlower).bind fun _ => fails_pure _
  have haccepts := exists_chainRows_iff hc hlower
  have hclause (hsimple : c.isMixed = false) : ∃ clause : Clause,
      c.chain s role = .ok clause.rows ∧ (∀ r ∈ clause.lead, r.role.isCombining = true) ∧
        clause.role = role ∧ ∀ m, clause.holdsIn m = c.truthIn s.resolve m := by
    obtain ⟨rows, hrows⟩ := haccepts.mpr hsimple
    obtain ⟨clause, rfl, hjoins⟩ := join_chainRows hc hrows
    refine ⟨clause.withRole role, ?_, hjoins.lead, rfl, hjoins.holdsIn_withRole role⟩
    rw [chain, hrows, ← Clause.endingIn_rows]
    rfl
  refine ⟨⟨?_, fun hmixed => ?_⟩, hfails, hclause⟩
  · rintro ⟨f, hf⟩
    cases hmixed : c.isMixed with
    | true => rfl
    | false =>
      obtain ⟨clause, hok, -⟩ := hclause hmixed
      rw [hok] at hf
      cases hf
  · cases hchain : c.chain s role with
    | error f => exact ⟨f, rfl⟩
    | ok rows =>
      simp only [chain, bind_eq_ok, pure_eq_ok] at hchain
      obtain ⟨plain, hplain, -⟩ := hchain
      rw [haccepts.mp ⟨plain, hplain⟩] at hmixed
      cases hmixed

/-- There is no score, or the level is the first and either the lives or the timer, behind a
pointer, have run out; and the game is not paused. -/
def nestedChoice : Condition :=
  let zero (accessor : String) (address : Value) : Condition :=
    .compare (.read accessor address) .eq (.constant 0)
  .and (zero "bit0" (.constant 0x40))
    (.located ⟨20, 90⟩ (.or (zero "word" (.constant 0x30))
      (.located ⟨30, 90⟩ (.and (zero "low4" (.constant 0x31))
        (.or (zero "byte" (.constant 0x10))
          (zero "word" (.add (.read "dword" (.constant 0x20)) (.constant 4))))))))

theorem chain_of_isTree_nestedChoice :
    nestedChoice.isTree = true ∧ nestedChoice.comparisonsLower {} = true ∧
      nestedChoice.isMixed = false ∧ ∃ clause : Clause,
        nestedChoice.chain {} .resetIf = .ok clause.rows ∧ clause.role = .resetIf ∧
          clause.holdsIn .zero = true := by
  have htree : nestedChoice.isTree = true := by decide
  have hlower : nestedChoice.comparisonsLower {} = true := by decide +kernel
  have hsimple : nestedChoice.isMixed = false := by decide +kernel
  obtain ⟨-, -, hclause⟩ := chain_of_isTree htree hlower .resetIf
  obtain ⟨clause, hchain, -, hrole, hholds⟩ := hclause hsimple
  exact ⟨htree, hlower, hsimple, clause, hchain, hrole, (hholds .zero).trans (by decide +kernel)⟩

end Condition
end MemoryTrigger

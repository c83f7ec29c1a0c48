import MemoryTrigger.Proofs.Simplify.Settling

/-! # Leaving identity links out of a chain

A link that cannot change the outcome of its chain is left out by the first pass: an `andNext` row
that always holds, or an `orNext`, `addHits` or `subHits` row that never does.  Whether that is right
depends on what stands before the link.  Behind a modifier row its truth is not the one of its
comparison alone; behind an `andNext` row, an `orNext` row that does not hold still cuts off the
chain.  The pass looks at the last row that it kept, which is what the chain state has to be compared
with: `ChainState.IsLeftBy` ties the two, and `ChainState.Alike` says that the state of the shorter
chain serves as well as that of the longer. -/
namespace MemoryTrigger

namespace ChainState

/-- Two states let every next row come out alike. -/
structure Alike (s s' : ChainState) : Prop where
  base : s.base = s'.base
  sum : s.sum = s'.sum
  hits : s.hits = s'.hits
  joined : ∀ truth, s.joined truth = s'.joined truth

theorem Alike.refl (s : ChainState) : s.Alike s := ⟨rfl, rfl, rfl, fun _ => rfl⟩

theorem Alike.trans {s s' s'' : ChainState} (h : s.Alike s') (h' : s'.Alike s'') :
    s.Alike s'' :=
  ⟨h.base.trans h'.base, h.sum.trans h'.sum, h.hits.trans h'.hits,
    fun truth => (h.joined truth).trans (h'.joined truth)⟩

variable (m : Memory)

theorem Alike.truthOf {s s' : ChainState} (h : s.Alike s') (r : Row) :
    s.truthOf m r = s'.truthOf m r := by
  rw [ChainState.truthOf, ChainState.truthOf, h.base, h.sum, h.joined]

/-- States that are alike stay so. -/
theorem Alike.step {s s' : ChainState} (h : s.Alike s') (r : Row) :
    (s.step m r).Alike (s'.step m r) := by
  have htruth := h.truthOf m r
  unfold ChainState.step
  split
  · exact ⟨by rw [h.base], h.sum, h.hits, h.joined⟩
  · exact ⟨rfl, by rw [h.base, h.sum], h.hits, h.joined⟩
  · exact ⟨rfl, by rw [h.base, h.sum], h.hits, h.joined⟩
  all_goals
    rw [h.hits]
    try rw [htruth]
    exact .refl _

/-- The state behind a row, or at the front of a chain. -/
def IsLeftBy (previous : Option Row) (s : ChainState) : Prop :=
  match previous with
  | none => s = {}
  | some p => ∃ before : ChainState, s = before.step m p

/-- Where a link may be left out, nothing is added to it, and what it is joined to is of its own
kind. -/
theorem IsLeftBy.of_linkIsDroppable {previous : Option Row} {s : ChainState} {r : Row}
    (h : s.IsLeftBy m previous) (hdrop : r.linkIsDroppable previous = true) :
    s.base = 0 ∧ s.sum = 0 ∧ (s.pending = none ∨
      (∃ truth, s.pending = some (.and, truth)) ∧ r.role = .andNext ∨
      (∃ truth, s.pending = some (.or, truth)) ∧ r.role = .orNext) := by
  cases previous with
  | none =>
    obtain rfl : s = {} := h
    exact ⟨rfl, rfl, .inl rfl⟩
  | some p =>
    obtain ⟨before, rfl⟩ := h
    simp only [Row.linkIsDroppable] at hdrop
    unfold step
    split at hdrop
    · cases hdrop
    · cases hdrop
    · cases hdrop
    · rename_i hrole
      rw [hrole] at hdrop ⊢
      exact ⟨rfl, rfl, .inr (.inl ⟨⟨_, rfl⟩, (beq_iff_eq.mp hdrop).symm⟩)⟩
    · rename_i hrole
      rw [hrole] at hdrop ⊢
      exact ⟨rfl, rfl, .inr (.inr ⟨⟨_, rfl⟩, (beq_iff_eq.mp hdrop).symm⟩)⟩
    · split
      all_goals first | contradiction | exact ⟨rfl, rfl, .inl rfl⟩

/-- **An identity link leaves the state of its chain as good as it was.** -/
theorem alike_step_of_isIdentityLink {previous : Option Row} {s : ChainState} {r : Row}
    (h : s.IsLeftBy m previous) (hdrop : r.linkIsDroppable previous = true)
    (hlink : r.isIdentityLink = true) : (s.step m r).Alike s := by
  obtain ⟨hbase, hsum, hpending⟩ := h.of_linkIsDroppable m hdrop
  have htruth {truth : Bool} (hvalue : r.evaluate? = some truth) :
      s.truthOf m r = s.joined truth := by
    rw [truthOf, hsum, Row.testIn_of_evaluate? m s.base hvalue]
  unfold Row.isIdentityLink at hlink
  unfold step
  cases hrole : r.role <;> simp only [hrole, beq_iff_eq, Bool.false_eq_true] at hlink hpending ⊢
  case addHits | subHits =>
    -- nothing is pending, so that the link does not count
    have hnone : s.pending = none := by simpa using hpending
    have hfalse : s.truthOf m r = false := by rw [htruth hlink, joined, hnone]
    refine ⟨hbase.symm, hsum.symm, ?_, fun truth => ?_⟩
    · simp [hfalse]
    · rw [joined, joined, hnone]
  case resetNextIf =>
    have hnone : s.pending = none := by simpa using hpending
    refine ⟨hbase.symm, hsum.symm, rfl, fun truth => ?_⟩
    rw [joined, joined, hnone]
  case orNext =>
    refine ⟨hbase.symm, hsum.symm, rfl, fun truth => ?_⟩
    rw [htruth hlink]
    rcases hpending with hnone | ⟨-, hand⟩ | ⟨⟨before, hor⟩, -⟩
    · simp [joined, hnone]
    · cases hand
    · simp [joined, hor]
  case andNext =>
    refine ⟨hbase.symm, hsum.symm, rfl, fun truth => ?_⟩
    rw [htruth (by simpa using (Bool.and_eq_true_iff.mp hlink).2)]
    rcases hpending with hnone | ⟨⟨before, hand⟩, -⟩ | ⟨-, hor⟩
    · simp [joined, hnone]
    · simp [joined, hand]
    · cases hor

/-- **A chain without its identity links** leaves a state that serves as well. -/
theorem alike_foldl_removeIdentityLinks {previous : Option Row} {s s' : ChainState}
    (h : s.Alike s') (hprevious : s'.IsLeftBy m previous) (lead : List Row) :
    (lead.foldl (step m) s).Alike
      ((Row.removeIdentityLinks previous lead).value.foldl (step m) s') := by
  -- the longer chain runs through the links that the shorter one leaves out
  induction lead generalizing previous s s' with
  | nil => exact h
  | cons r rest ih =>
    rw [Row.removeIdentityLinks, List.foldl_cons]
    split
    · rename_i hdropped
      obtain ⟨hdrop, hlink⟩ := Bool.and_eq_true_iff.mp hdropped
      exact ih ((h.step m r).trans (alike_step_of_isIdentityLink m hprevious hdrop hlink)) hprevious
    · exact ih (h.step m r) ⟨s', rfl⟩

end ChainState

namespace Clause

/-- The clause without its identity links. -/
def unlinked (c : Clause) : Clause := ⟨(Row.removeIdentityLinks none c.lead).value, c.terminal⟩

theorem sublist_rows_unlinked (c : Clause) : c.unlinked.rows.Sublist c.rows :=
  (Row.sublist_removeIdentityLinks none c.lead).append_right [c.terminal]

/-- Leaving out identity links does not change whether a clause holds. -/
theorem holdsIn_unlinked (m : Memory) (c : Clause) : c.unlinked.holdsIn m = c.holdsIn m := by
  have hfront : ChainState.IsLeftBy m none {} := rfl
  have halike : (c.stateIn m).Alike (c.unlinked.stateIn m) :=
    ChainState.alike_foldl_removeIdentityLinks m (.refl {}) hfront c.lead
  rw [holdsIn_eq, holdsIn_eq, halike.hits, halike.truthOf m c.terminal]
  rfl

theorem rows_unlinked {c : Clause} (h : c.terminal.role.isCombining = false) :
    c.unlinked.rows = (Row.removeIdentityLinks none c.rows).value := by
  have hterminal := Row.isIdentityLink_of_not_combining h
  have happend (previous : Option Row) (lead : List Row) :
      (Row.removeIdentityLinks previous (lead ++ [c.terminal])).value =
        (Row.removeIdentityLinks previous lead).value ++ [c.terminal] := by
    induction lead generalizing previous with
    | nil => simp [Row.removeIdentityLinks, hterminal]
    | cons r lead ih =>
      rw [List.cons_append, Row.removeIdentityLinks, Row.removeIdentityLinks]
      split
      · exact ih previous
      · simp only [Logged.value_bind, Logged.value_pure, ih (some r), List.cons_append]
  exact (happend none c.lead).symm

theorem IsTerminated.unlinked {c : Clause} (h : c.IsTerminated) : c.unlinked.IsTerminated :=
  ⟨fun r hr => h.lead r ((Row.sublist_removeIdentityLinks none c.lead).subset hr), h.terminal⟩

end Clause

namespace ClauseGroups
open Clause

/-- **The first pass works clause by clause** where all clauses end in terminal rows. -/
theorem settledClauses_of_isTerminated {rows : List Row}
    (h : ∀ c ∈ split rows, c.IsTerminated) :
    settledClauses rows = foldConstants ((split rows).map fun c => c.settled.unlinked) := by
  have hsettled : ∀ c ∈ (split rows).map settled, c.IsTerminated :=
    List.forall_mem_map.mpr fun c hc => (h c hc).settledFrom false
  have hrows : (Row.normalizeRows false rows).value = join ((split rows).map settled) := by
    rw [← split_normalizeRows_false, join_split]
  have hlinks : (Row.removeIdentityLinks none (join ((split rows).map settled))).value =
      join ((split rows).map fun c => c.settled.unlinked) := by
    rw [Row.value_removeIdentityLinks_join hsettled, join, List.flatMap_map, List.flatMap_map]
    refine List.flatMap_congr fun c hc => ?_
    exact (rows_unlinked (hsettled _ (List.mem_map_of_mem hc)).terminal).symm
  rw [settledClauses, hrows, hlinks, split_join]
  exact List.forall_mem_map.mpr fun c hc => ((h c hc).settledFrom false).unlinked

/-- A group means what it meant once its comparisons are settled. -/
theorem agreeIn_settledClauses (m : Memory) {rows : List Row}
    (h : ∀ c ∈ split rows, c.IsTerminated)
    (hmodifier : ∀ r ∈ rows, r.role.isModifier = true → r.isComparison = false) :
    AgreeIn m (settledClauses rows) (split rows) := by
  rw [settledClauses_of_isTerminated h]
  refine (agreeIn_foldConstants m _).trans (agreeIn_map m fun c hc => ⟨?_, ?_⟩)
  · exact role_settledFrom false c.lead c.terminal
  · rw [holdsIn_unlinked, holdsIn_settled]
    exact fun r hr => hmodifier r (mem_of_mem_split hc (List.mem_append_left _ hr))

end ClauseGroups
end MemoryTrigger

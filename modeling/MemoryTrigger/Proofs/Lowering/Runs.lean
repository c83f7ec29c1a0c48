import MemoryTrigger.Proofs.Lowering.Locations

/-! # Chains and their operands

The rows of a run are the rows of its operands, in an order of their own: the operand that is a run
of the other junction comes first, and the others follow as they stand (`Condition.linkOrder`).
Everything that is said about chains is said by induction on how they are made: a run of its
operands, a counted condition of its body or of the operands of the disjunction that its body is, a
tally of its items (`Condition.chain_induction`). -/
namespace MemoryTrigger

/-! ## Tied chains -/

namespace Row

/-- Chains one behind another, all but the last of which end in the role. -/
def tied (role : Role) : List (List Row) → List Row
  | [] => []
  | [last] => endingIn .plain last
  | first :: rest => endingIn role first ++ tied role rest

theorem endingIn_endingIn (role role' : Role) (rows : List Row) :
    endingIn role (endingIn role' rows) = endingIn role rows := by
  rcases List.eq_nil_or_concat' rows with rfl | ⟨front, last, rfl⟩
  · rfl
  · simp only [endingIn, mapLast_concat]

theorem endingIn_ne_nil (role : Role) {rows : List Row} (h : rows ≠ []) :
    endingIn role rows ≠ [] := by
  obtain ⟨front, last, rfl⟩ := (List.eq_nil_or_concat' rows).resolve_left h
  simp [endingIn, mapLast_concat]

theorem endingIn_flatten (role : Role) {chains : List (List Row)} (h : ∀ rows ∈ chains, rows ≠ []) :
    endingIn .plain (chains.map (endingIn role)).flatten = tied role chains := by
  induction chains with
  | nil => rfl
  | cons first rest ih =>
    cases rest with
    | nil => simp [tied, endingIn_endingIn]
    | cons next others =>
      obtain ⟨hfirst, hrest⟩ := List.forall_mem_cons.mp h
      obtain ⟨hnext, -⟩ := List.forall_mem_cons.mp hrest
      have hne : ((next :: others).map (endingIn role)).flatten ≠ [] := by
        simp [endingIn_ne_nil role hnext]
      rw [tied, ← ih hrest, List.map_cons, List.flatten_cons, endingIn, mapLast_append _ _ hne,
        ← endingIn]
      simp

end Row

/-- Chains whose hits add up are tied so that each lends its own. -/
theorem Link.exists_of_summed {f : Condition → Lowered (List Row)} {cs : List Condition}
    {rows : List Row} (h : Link.summed (cs.map f) = .ok rows) :
    ∃ chains, List.Forall₂ (fun c rows => f c = .ok rows) cs chains ∧
      rows = Row.tied .addHits chains := by
  induction cs generalizing rows with
  | nil =>
    cases h
    exact ⟨[], .nil, rfl⟩
  | cons c rest ih =>
    cases rest with
    | nil =>
      simp only [List.map_cons, List.map_nil, summed, Lowered.bind_eq_ok, Lowered.pure_eq_ok] at h
      obtain ⟨last, hlast, rfl⟩ := h
      exact ⟨[last], .cons hlast .nil, rfl⟩
    | cons next others =>
      simp only [List.map_cons, summed, Lowered.bind_eq_ok, Lowered.pure_eq_ok] at h
      obtain ⟨first, hfirst, more, hmore, rfl⟩ := h
      obtain ⟨chains, hchains, rfl⟩ := ih hmore
      refine ⟨first :: chains, .cons hfirst hchains, ?_⟩
      cases hchains
      rfl

/-! ## Joined conditions -/

/-- Two conditions joined. -/
def Junction.join : Junction → Condition → Condition → Condition
  | and => .and
  | or => .or

namespace Condition

@[simp] theorem junction?_join (j : Junction) (a b : Condition) :
    (j.join a b).junction? = some j := by
  cases j <;> rfl

theorem operands_join (j : Junction) (a b : Condition) :
    (j.join a b).operands j = a.operands j ++ b.operands j := by
  cases j with
  | and => rw [Junction.join, operands, if_pos rfl]
  | or => rw [Junction.join, operands, if_pos rfl]

/-- What both sides of a junction have, and what locations do not take away, the operands of a run
have. -/
theorem of_mem_operands {P : Condition → Prop}
    (hjoin : ∀ (j : Junction) a b, P (j.join a b) → P a ∧ P b)
    (hlocated : ∀ l c, P (located l c) → P c) {j : Junction} {c d : Condition} (hc : P c)
    (h : d ∈ c.operands j) : P d := by
  fun_induction operands j c with
  | case1 a b hj iha ihb =>
    obtain ⟨ha, hb⟩ := hjoin .and a b hc
    exact (List.mem_append.mp h).elim (iha ha) (ihb hb)
  | case3 a b hj iha ihb =>
    obtain ⟨ha, hb⟩ := hjoin .or a b hc
    exact (List.mem_append.mp h).elim (iha ha) (ihb hb)
  | case5 l c _ ih => exact ih (hlocated l c hc) h
  | _ => exact List.mem_singleton.mp h ▸ hc

/-- Whether the condition cannot stand in a chain, whatever it is made of. -/
def isOutermost : Condition → Bool
  | resetIf _ | pauseIf _ | measured _ _ _ | triggerWhen _ => true
  | _ => false

/-- **Induction the way chains are made.** -/
theorem chain_induction {motive : Condition → Prop}
    (compare : ∀ left relation right, motive (compare left relation right))
    (literal : ∀ truth, motive (literal truth))
    (located : ∀ l c, motive c → motive (located l c))
    (join : ∀ (j : Junction) a b, (∀ d ∈ (j.join a b).operands j, motive d) → motive (j.join a b))
    (repeated : ∀ count body, motive body → (∀ d ∈ body.operands .or, motive d) →
      motive (repeated count body))
    (tally : ∀ count items, (∀ item ∈ items, motive item.condition) → motive (tally count items))
    (outermost : ∀ c : Condition, c.isOutermost = true → motive c) (c : Condition) : motive c := by
  induction hn : sizeOf c using Nat.strongRecOn generalizing c with
  | ind n ih =>
    subst hn
    have hjoin (j : Junction) (a b : Condition) (h : sizeOf (j.join a b) = 1 + sizeOf a + sizeOf b)
        (ih : ∀ m < sizeOf (j.join a b), ∀ c : Condition, sizeOf c = m → motive c) :
        motive (j.join a b) := by
      refine join j a b fun d hd => ih (sizeOf d) ?_ d rfl
      rw [operands_join] at hd
      exact h ▸ sizeOf_lt_of_mem_append hd
    cases c with
    | compare left relation right => exact compare left relation right
    | literal truth => exact literal truth
    | located l c =>
      exact located l c (ih (sizeOf c) (by simp only [Condition.located.sizeOf_spec]; omega) c rfl)
    | and a b => exact hjoin .and a b rfl ih
    | or a b => exact hjoin .or a b rfl ih
    | repeated count body =>
      refine repeated count body (ih _ (sizeOf_lt_repeated (Nat.le_refl _)) body rfl) fun d hd => ?_
      exact ih _ (sizeOf_lt_repeated (sizeOf_le_of_mem_operands hd)) d rfl
    | tally count items =>
      exact tally count items fun item hitem => ih _ (sizeOf_lt_tally hitem) item.condition rfl
    | _ => exact outermost _ rfl

/-! ## The order of the operands -/

/-- The operands of a junction that are no runs of the other one. -/
def simples (j : Junction) (cs : List Condition) : List Condition :=
  cs.filter fun c => ¬ c.junction? = some j.opposite

/-- The operands of a junction in the order of their rows. -/
def linkOrder (j : Junction) (cs : List Condition) : List Condition :=
  cs.filter (fun c => c.junction? = some j.opposite) ++ simples j cs

theorem linkOrder_perm (j : Junction) (cs : List Condition) : (linkOrder j cs).Perm cs := by
  have h := List.filter_append_perm (fun c : Condition => c.junction? = some j.opposite) cs
  simpa [linkOrder, simples] using h

theorem mem_linkOrder {j : Junction} {cs : List Condition} {c : Condition} :
    c ∈ linkOrder j cs ↔ c ∈ cs :=
  (linkOrder_perm j cs).mem_iff

/-- How many operands are runs of the other junction. -/
def compounds (j : Junction) (cs : List Condition) : Nat :=
  cs.countP fun c => c.junction? = some j.opposite

theorem joined_eq (f : Condition → Lowered (List Row)) (j : Junction) (cs : List Condition) :
    Link.joined j (cs.map fun c => ⟨c.junction?, f c⟩) =
      if 1 < compounds j cs then Lowered.reject .chainTooComplex
      else (do
        let chains ← (linkOrder j cs).mapM f
        pure (Row.endingIn .plain (chains.map (Row.endingIn j.link)).flatten)) := by
  unfold Link.joined
  simp only [List.filter_map, List.length_map, ← List.map_append, Function.comp_def,
    List.mapM_map, compounds, List.countP_eq_length_filter]
  rfl

variable (s : Setting)

theorem chainRows_join (j : Junction) (a b : Condition) :
    (j.join a b).chainRows s =
      if 1 < compounds j ((j.join a b).operands j) then Lowered.reject .chainTooComplex
      else (do
        let chains ← (linkOrder j ((j.join a b).operands j)).mapM (chainRows s)
        pure (Row.endingIn .plain (chains.map (Row.endingIn j.link)).flatten)) := by
  rw [← joined_eq, operands_join]
  cases j with
  | and => rw [Junction.join, chainRows, attach_map_links]
  | or => rw [Junction.join, chainRows, attach_map_links]

/-- A chain has rows. -/
theorem ne_nil_of_chainRows {c : Condition} {rows : List Row} (h : c.chainRows s = .ok rows) :
    rows ≠ [] :=
  have hany : Row.Inherited fun _ => True :=
    ⟨fun _ _ _ => trivial, fun _ => trivial, fun _ _ _ _ => trivial, fun _ _ _ => trivial⟩
  (formChain_chainRows hany h).ne_nil

theorem chainRows_join_eq_ok {j : Junction} {a b : Condition} {rows : List Row} :
    (j.join a b).chainRows s = .ok rows ↔
      compounds j ((j.join a b).operands j) ≤ 1 ∧ ∃ chains,
        List.Forall₂ (fun d rows => d.chainRows s = .ok rows)
          (linkOrder j ((j.join a b).operands j)) chains ∧ rows = Row.tied j.link chains := by
  have hrows {chains : List (List Row)} (hchains : List.Forall₂ (fun d rows =>
      d.chainRows s = .ok rows) (linkOrder j ((j.join a b).operands j)) chains) :
      Row.endingIn .plain (chains.map (Row.endingIn j.link)).flatten = Row.tied j.link chains :=
    Row.endingIn_flatten j.link <| Lowered.forall_mem_of_mapM (Lowered.mapM_eq_ok.mpr hchains)
      fun d _ rows => ne_nil_of_chainRows s
  rw [chainRows_join]
  split
  · rename_i hmixed
    simp [Nat.not_le_of_lt hmixed]
  · rename_i hsimple
    simp only [Lowered.bind_eq_ok, Lowered.pure_eq_ok, Lowered.mapM_eq_ok]
    constructor
    · rintro ⟨chains, hchains, rfl⟩
      exact ⟨Nat.le_of_not_lt hsimple, chains, hchains, hrows hchains⟩
    · rintro ⟨-, chains, hchains, rfl⟩
      exact ⟨chains, hchains, hrows hchains⟩

/-- Seen through locations, a run is the conditions that it joins. -/
theorem exists_join_of_junction? {j : Junction} {c : Condition} (h : c.junction? = some j) :
    ∃ a b, c.operands j = (j.join a b).operands j ∧
      ∀ rows, c.chainRows s = .ok rows ↔ (j.join a b).chainRows s = .ok rows := by
  fun_induction junction? c with
  | case1 a b =>
    cases h
    exact ⟨a, b, rfl, fun _ => .rfl⟩
  | case2 a b =>
    cases h
    exact ⟨a, b, rfl, fun _ => .rfl⟩
  | case3 l c ih =>
    obtain ⟨a, b, hoperands, hrows⟩ := ih h
    refine ⟨a, b, ?_, fun rows => ?_⟩
    · rw [operands, if_pos h, hoperands]
    · rw [chainRows, Lowered.located_eq_ok, hrows]
  | case4 => cases h

theorem chainRows_of_isOutermost {c : Condition} (h : c.isOutermost = true) (rows : List Row) :
    c.chainRows s ≠ .ok rows := by
  cases c with
  | resetIf _ | pauseIf _ | measured _ _ _ | triggerWhen _ => simp [chainRows]
  | _ => cases h

/-! ## Counted bodies -/

/-- The rows of what is counted where it has no resets: those of the body, or of the parts of a
disjunction one after the other. -/
def countedChain (body : Condition) : Lowered (List Row) :=
  if body.junction? = some .or then Link.summed ((body.operands .or).map (chainRows s))
  else body.chainRows s

theorem countedRows_operands_eq_ok {body : Condition} {rows : List Row} :
    countedRows s (body.operands .and) = .ok rows ↔ body.countedChain s = .ok rows := by
  by_cases hand : body.junction? = some .and
  · -- a conjunction is the run of its parts
    obtain ⟨a, b, hoperands, hrows⟩ := exists_join_of_junction? s hand
    rw [countedChain, if_neg (by simp [hand]), hrows, hoperands, chainRows_join, ← joined_eq]
    have hparts : ∃ first second rest,
        (Junction.and.join a b).operands .and = first :: second :: rest := by
      rw [operands_join]
      obtain ⟨first, front, ha⟩ := List.exists_cons_of_ne_nil (operands_ne_nil .and a)
      obtain ⟨second, rest, hb⟩ := List.exists_cons_of_ne_nil (operands_ne_nil .and b)
      cases front with
      | nil => exact ⟨first, second, rest, by rw [ha, hb]; rfl⟩
      | cons next front => exact ⟨first, next, front ++ b.operands .and, by rw [ha]; rfl⟩
    obtain ⟨first, second, rest, hparts⟩ := hparts
    rw [hparts, countedRows]
    all_goals simp
  · rw [operands_of_junction?_ne hand, countedRows, countedChain]

theorem chainRows_repeated_eq_ok {count : UInt32} {body : Condition} {rows : List Row}
    (hresets : ∀ d ∈ body.operands .and, d.resetBody? = none) :
    (repeated count body).chainRows s = .ok rows ↔ count ≠ 0 ∧ ∃ counted,
      body.countedChain s = .ok counted ∧
        rows = Row.countingTo count (Row.endingIn .plain counted) := by
  have hnone : body.countedResets = [] := List.filterMap_eq_nil_iff.mpr hresets
  have hparts : body.countedParts = body.operands .and :=
    List.filter_eq_self.mpr fun d hd => by simp [hresets d hd]
  rw [chainRows_repeated]
  by_cases hcount : count = 0
  · simp [hcount]
  · rw [if_neg hcount, hnone, hparts]
    simp only [List.mapM_nil, Lowered.bind_eq_ok, Lowered.pure_eq_ok, countedRows_operands_eq_ok]
    constructor
    · rintro ⟨resets, rfl, counted, hcounted, rfl⟩
      exact ⟨hcount, counted, hcounted, rfl⟩
    · rintro ⟨-, counted, hcounted, rfl⟩
      exact ⟨[], rfl, counted, hcounted, rfl⟩

end Condition
end MemoryTrigger

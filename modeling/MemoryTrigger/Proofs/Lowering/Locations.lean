import MemoryTrigger.Proofs.Lowering.Provenance

/-! # Locations do not matter to what is compiled

Junctions are flattened and resets are found through locations, and everywhere else a location only
fills in where a failure lies.  So a condition and the same condition without its locations go
through lowering side by side: chains (`Condition.chainRows_bare`) and triggers
(`Condition.lower_bare`) agree once the locations of failures are forgotten too. -/
namespace MemoryTrigger

/-! ## Results without locations -/

/-- The failure without its location. -/
def Failure.bare : Failure → Failure
  | rejected e => rejected { e with location := none }
  | overflow => overflow

theorem Failure.bare_located (l : Location) (f : Failure) : (f.located l).bare = f.bare := by
  cases f <;> rfl

namespace Lowered
variable {α β : Type}

/-- The step, with the locations of its failures forgotten. -/
def bare (x : Lowered α) : Lowered α := x.mapError Failure.bare

@[simp] theorem bare_ok (a : α) : bare (.ok a) = .ok a := rfl

@[simp] theorem bare_pure (a : α) : bare (pure a) = pure a := rfl

@[simp] theorem bare_reject (cause : Cause) : (reject cause : Lowered α).bare = reject cause := rfl

@[simp] theorem bare_located (l : Location) (x : Lowered α) : (x.located l).bare = x.bare := by
  cases x with
  | error f => exact congrArg Except.error (f.bare_located l)
  | ok a => rfl

theorem bare_bind (x : Lowered α) (f : α → Lowered β) :
    (x >>= f).bare = x.bare >>= fun a => (f a).bare := by
  cases x <;> rfl

theorem bare_mapM (f : α → Lowered β) (xs : List α) :
    (xs.mapM f).bare = xs.mapM fun x => (f x).bare := by
  induction xs with
  | nil => rfl
  | cons x xs ih => simp only [List.mapM_cons, bare_bind, bare_pure, ih]

theorem mapM_congr {f g : α → Lowered β} {xs : List α} (h : ∀ x ∈ xs, f x = g x) :
    xs.mapM f = xs.mapM g := by
  induction xs with
  | nil => rfl
  | cons x xs ih =>
    obtain ⟨hx, hxs⟩ := List.forall_mem_cons.mp h
    rw [List.mapM_cons, List.mapM_cons, hx, ih hxs]

/-- Steps that agree but for locations both succeed, with one value, or both fail for one cause. -/
theorem cases_of_bare_eq {x y : Lowered α} (h : x.bare = y.bare) :
    (∃ a, x = .ok a ∧ y = .ok a) ∨
      (∃ cause l l', x = .error (.rejected ⟨cause, l⟩) ∧ y = .error (.rejected ⟨cause, l'⟩)) ∨
      (x = .error .overflow ∧ y = .error .overflow) := by
  match x, y with
  | .ok a, .ok b =>
    obtain rfl : a = b := by simpa using h
    exact .inl ⟨a, rfl, rfl⟩
  | .error (.rejected ⟨cause, l⟩), .error (.rejected ⟨cause', l'⟩) =>
    obtain rfl : cause = cause' := by simpa [bare, Except.mapError, Failure.bare] using h
    exact .inr (.inl ⟨cause, l, l', rfl, rfl⟩)
  | .error .overflow, .error .overflow => exact .inr (.inr ⟨rfl, rfl⟩)
  | .ok _, .error _ => cases h
  | .error _, .ok _ => cases h
  | .error (.rejected _), .error .overflow => cases h
  | .error .overflow, .error (.rejected _) => cases h

end Lowered

/-! ## Chains of links -/

theorem splitLast?_map {α β : Type} (f : α → β) (p : β → Bool) (xs : List α) :
    splitLast? p (xs.map f) =
      (splitLast? (fun x => p (f x)) xs).map fun (before, x, behind) =>
        (before.map f, f x, behind.map f) := by
  induction xs with
  | nil => rfl
  | cons x xs ih =>
    rw [List.map_cons, splitLast?, splitLast?, ih]
    cases splitLast? (fun x => p (f x)) xs with
    | some found => rfl
    | none =>
      dsimp only [Option.map_none]
      split <;> rfl

namespace Link

/-- The link, with the locations of its failures forgotten. -/
def bare (l : Link) : Link := { l with rows := l.rows.bare }

theorem bare_joined (j : Junction) (links : List Link) :
    (joined j links).bare = joined j (links.map bare) := by
  -- which operands are compound does not depend on their rows
  have hfilter (p : Option Junction → Bool) :
      (links.map bare).filter (fun l => p l.junction?) =
        (links.filter fun l => p l.junction?).map bare := List.filter_map
  unfold joined
  rw [hfilter fun k => k = some j.opposite, hfilter fun k => ¬ k = some j.opposite]
  simp only [List.length_map, ← List.map_append, List.mapM_map]
  split
  · rfl
  · rw [Lowered.bare_bind, Lowered.bare_mapM]
    rfl

theorem bare_summed (steps : List (Lowered (List Row))) :
    (summed steps).bare = summed (steps.map Lowered.bare) := by
  induction steps with
  | nil => rfl
  | cons first rest ih =>
    cases rest with
    | nil => exact Lowered.bare_bind _ _
    | cons second rest =>
      simp only [List.map_cons, summed, Lowered.bare_bind, Lowered.bare_pure] at ih ⊢
      rw [ih]

theorem bare_tallied (count : UInt32) (items : List (TallyItem (Lowered (List Row)))) :
    (tallied count items).bare =
      tallied count (items.map fun item => { item with condition := item.condition.bare }) := by
  unfold tallied
  rw [splitLast?_map, List.isEmpty_map]
  split
  · rfl
  split
  · rfl
  cases splitLast? (fun item : TallyItem (Lowered (List Row)) => !item.deduct) items with
  | none => rfl
  | some found =>
    simp only [Option.map_some, ← List.map_append, List.mapM_map, Lowered.bare_bind,
      Lowered.bare_mapM, Lowered.bare_pure]
    rfl

end Link

/-! ## Conditions without locations -/

namespace Condition

mutual

/-- The condition without any locations, at whatever depth. -/
@[local simp] def bare : Condition → Condition
  | compare left relation right => compare left relation right
  | and a b => and a.bare b.bare
  | or a b => or a.bare b.bare
  | literal truth => literal truth
  | repeated count body => repeated count body.bare
  | resetIf body => resetIf body.bare
  | pauseIf body => pauseIf body.bare
  | measured body none format => measured body.bare none format
  | measured body (some guard) format => measured body.bare (some guard.bare) format
  | tally count items => tally count (bareItems items)
  | triggerWhen body => triggerWhen body.bare
  | located _ body => body.bare

/-- The items of a tally without locations. -/
@[local simp] def bareItems : List (TallyItem Condition) → List (TallyItem Condition)
  | [] => []
  | ⟨c, deduct⟩ :: rest => ⟨c.bare, deduct⟩ :: bareItems rest

end

theorem bareItems_eq_map (items : List (TallyItem Condition)) :
    bareItems items = items.map fun item => { item with condition := item.condition.bare } := by
  induction items with
  | nil => rw [bareItems]; rfl
  | cons item rest ih => rw [bareItems, ih]; rfl

theorem bare_measured (body : Condition) (when? : Option Condition)
    (format : Option MeasuredFormat) :
    (measured body when? format).bare = measured body.bare (when?.map bare) format := by
  cases when? <;> rw [bare] <;> rfl

/-! ### What is seen through locations -/

theorem junction?_bare (c : Condition) : c.bare.junction? = c.junction? := by
  fun_induction junction? c with
  | case1 a b => rw [bare, junction?]
  | case2 a b => rw [bare, junction?]
  | case3 l c ih => rw [bare, ih]
  | case4 c hand hor hlocated =>
    cases c with
    | measured body when? format => rw [bare_measured, junction?]; all_goals simp
    | _ => simp_all [junction?]

theorem resetBody?_bare (c : Condition) : c.bare.resetBody? = c.resetBody?.map bare := by
  fun_induction resetBody? c with
  | case1 c => rw [bare, resetBody?]; rfl
  | case2 l c ih => rw [bare, ih]
  | case3 c hreset hlocated =>
    cases c with
    | measured body when? format => rw [bare_measured, resetBody?]; all_goals simp
    | _ => simp_all [resetBody?]

/-- What is no run of the junction is its only operand. -/
theorem operands_of_junction?_ne {j : Junction} {c : Condition} (h : c.junction? ≠ some j) :
    c.operands j = [c] := by
  fun_induction operands j c with
  | case1 a b hj => exact absurd (congrArg some hj.symm) h
  | case3 a b hj => exact absurd (congrArg some hj.symm) h
  | case5 l c hc => exact absurd hc h
  | _ => rfl

theorem operands_bare (j : Junction) (c : Condition) :
    c.bare.operands j = (c.operands j).map bare := by
  fun_induction operands j c with
  | case1 a b hj iha ihb => rw [bare, operands, if_pos hj, iha, ihb, List.map_append]
  | case3 a b hj iha ihb => rw [bare, operands, if_pos hj, iha, ihb, List.map_append]
  | case5 l c hc ih => rw [bare, ih]
  | case2 a b hj => rw [bare, operands, if_neg hj, List.map_singleton, bare]
  | case4 a b hj => rw [bare, operands, if_neg hj, List.map_singleton, bare]
  | case6 l c hc => exact operands_of_junction?_ne ((junction?_bare _).trans_ne hc)
  | case7 c hand hor hlocated =>
    refine operands_of_junction?_ne ((junction?_bare c).trans_ne ?_)
    rw [junction?.eq_4 c hand hor hlocated]
    simp

theorem countedResets_bare (c : Condition) : c.bare.countedResets = c.countedResets.map bare := by
  rw [countedResets, countedResets, operands_bare, List.filterMap_map, List.map_filterMap]
  exact List.filterMap_congr fun part _ => part.resetBody?_bare

theorem countedParts_bare (c : Condition) : c.bare.countedParts = c.countedParts.map bare := by
  rw [countedParts, countedParts, operands_bare, List.filter_map]
  refine congrArg _ (List.filter_congr fun part _ => ?_)
  rw [Function.comp_apply, resetBody?_bare, Option.isNone_map]

/-! ### Chains -/

variable {s : Setting}

/-- Links of operands that agree but for locations. -/
theorem bare_links {cs : List Condition}
    (h : ∀ c ∈ cs, (c.bare.chainRows s).bare = (c.chainRows s).bare) :
    ((cs.map bare).map fun c => (⟨c.junction?, c.chainRows s⟩ : Link)).map Link.bare =
      (cs.map fun c => (⟨c.junction?, c.chainRows s⟩ : Link)).map Link.bare := by
  simp only [List.map_map]
  refine List.map_congr_left fun c hc => ?_
  simp only [Function.comp_apply, Link.bare, junction?_bare, h c hc]

theorem bare_chainRows_map {cs : List Condition}
    (h : ∀ c ∈ cs, (c.bare.chainRows s).bare = (c.chainRows s).bare) :
    ((cs.map bare).map (chainRows s)).map Lowered.bare =
      (cs.map (chainRows s)).map Lowered.bare := by
  simp only [List.map_map]
  exact List.map_congr_left h

theorem countedRows_bare {parts : List Condition}
    (h : ∀ part ∈ parts, ∀ c : Condition, sizeOf c ≤ sizeOf part →
      (c.bare.chainRows s).bare = (c.chainRows s).bare) :
    (countedRows s (parts.map bare)).bare = (countedRows s parts).bare := by
  match parts with
  | [] => rfl
  | [part] =>
    have hpart := h part List.mem_cons_self
    rw [List.map_singleton, countedRows, countedRows, junction?_bare]
    split
    · rw [operands_bare, Link.bare_summed, Link.bare_summed,
        bare_chainRows_map fun c hc => hpart c (sizeOf_le_of_mem_operands hc)]
    · exact hpart part (Nat.le_refl _)
  | first :: second :: rest =>
    have hlinks := bare_links fun c hc => h c hc c (Nat.le_refl _)
    rw [countedRows, countedRows, Link.bare_joined, Link.bare_joined, hlinks]
    all_goals simp

theorem chainRows_bare (c : Condition) : (c.bare.chainRows s).bare = (c.chainRows s).bare := by
  -- on size, since operands of a run and items of a tally lie deeper than one constructor
  induction hn : sizeOf c using Nat.strongRecOn generalizing c with
  | ind n ih =>
    subst hn
    cases c with
    | located l c =>
      rw [bare, chainRows.eq_1, Lowered.bare_located]
      exact ih (sizeOf c) (by simp only [located.sizeOf_spec]; omega) c rfl
    | compare left relation right => rw [bare]
    | literal truth => rw [bare]
    | and a b =>
      rw [bare, chainRows, chainRows, attach_map_links, attach_map_links, operands_bare,
        operands_bare, ← List.map_append, Link.bare_joined, Link.bare_joined,
        bare_links fun d hd => ih (sizeOf d) (sizeOf_lt_of_mem_append hd) d rfl]
    | or a b =>
      rw [bare, chainRows, chainRows, attach_map_links, attach_map_links, operands_bare,
        operands_bare, ← List.map_append, Link.bare_joined, Link.bare_joined,
        bare_links fun d hd => ih (sizeOf d) (sizeOf_lt_of_mem_append hd) d rfl]
    | repeated count body =>
      have hbody (d : Condition) (hle : sizeOf d ≤ sizeOf body) :=
        ih (sizeOf d) (sizeOf_lt_repeated hle) d rfl
      have hcounted := countedRows_bare (s := s) fun part hpart d hle =>
        hbody d (Nat.le_trans hle (sizeOf_le_of_mem_countedParts hpart))
      have hresets : (body.countedResets.map bare).mapM (fun d => (d.chainRows s).bare) =
          body.countedResets.mapM fun d => (d.chainRows s).bare := by
        rw [List.mapM_map]
        exact Lowered.mapM_congr fun d hd =>
          hbody d (Nat.le_of_lt (sizeOf_lt_of_mem_countedResets hd))
      rw [bare, chainRows_repeated, chainRows_repeated, countedResets_bare, countedParts_bare]
      split
      · rfl
      · simp only [Lowered.bare_bind, Lowered.bare_mapM, Lowered.bare_pure, hresets, hcounted]
    | tally count items =>
      rw [bare, bareItems_eq_map, chainRows, chainRows, attach_map_items, attach_map_items,
        Link.bare_tallied, Link.bare_tallied]
      simp only [List.map_map]
      refine congrArg _ (List.map_congr_left fun item hitem => ?_)
      simp only [Function.comp_apply, ih _ (sizeOf_lt_tally hitem) item.condition rfl]
    | measured body when? format => rw [bare_measured, chainRows, chainRows]
    | resetIf body => rw [bare, chainRows, chainRows]
    | pauseIf body => rw [bare, chainRows, chainRows]
    | triggerWhen body => rw [bare, chainRows, chainRows]

theorem chain_bare (role : Role) (c : Condition) :
    (c.bare.chain s role).bare = (c.chain s role).bare := by
  simp only [chain, Lowered.bare_bind, Lowered.bare_pure, chainRows_bare]

theorem chains_bare (role : Role) (cs : List Condition) :
    (chains s role (cs.map bare)).bare = (chains s role cs).bare := by
  simp only [chains, Lowered.bare_bind, Lowered.bare_pure, Lowered.bare_mapM, List.mapM_map,
    Function.comp_def, chain_bare]

/-! ### Triggers -/

theorem measuredRows_bare (first : FirstTarget) (body : Condition) (when? : Option Condition)
    (format : Option MeasuredFormat) :
    (measuredRows s first body.bare (when?.map bare) format).bare =
      (measuredRows s first body when? format).bare := by
  cases when? with
  | none => simp only [measuredRows, Option.map_none, Lowered.bare_bind, chain_bare]
  | some guard =>
    simp only [measuredRows, Option.map_some, Lowered.bare_bind, chain_bare, operands_bare,
      chains_bare]

theorem lower_bare (c : Condition) (first : FirstTarget) :
    (c.bare.lower s first).bare = (c.lower s first).bare := by
  fun_induction lower s c first with
  | case1 l c first ih => rw [bare, ih, Lowered.bare_located]
  | case2 a b first iha ihb =>
    simp only [bare, lower, Lowered.bare_bind, Lowered.bare_pure, iha, ihb]
  | case3 a b first iha ihb =>
    simp only [bare, lower, Lowered.bare_bind, Lowered.bare_pure, iha, ihb]
  | case4 c first ih => simp only [bare, lower, Lowered.bare_bind, Lowered.bare_pure, ih]
  | case5 c first =>
    simp only [bare, lower, Lowered.bare_bind, Lowered.bare_pure, operands_bare, chains_bare]
  | case6 c first =>
    simp only [bare, lower, Lowered.bare_bind, Lowered.bare_pure, operands_bare, chains_bare]
  | case7 body when? format first =>
    simp only [bare_measured, lower, Lowered.bare_bind, Lowered.bare_pure, measuredRows_bare]
  | case8 c first hlocated hand hor htrigger hreset hpause hmeasured =>
    have hlower : c.bare.lower s first = (do
        let core ← c.bare.chainRows s
        pure ({ core }, first)) := by
      cases c with
      | compare left relation right => rfl
      | literal truth => rfl
      | repeated count body => rfl
      | tally count items => rfl
      | _ => simp_all
    rw [hlower, Lowered.bare_bind, Lowered.bare_bind, chainRows_bare]

end Condition

/-- **Locations never change what is compiled**: with all of them taken away, a condition compiles
to the same trigger, or is refused for the same cause, or overflows alike. -/
theorem Trigger.compile_bare (s : Setting) (c : Condition) :
    (∃ t, compile s c = .ok t ∧ compile s c.bare = .ok t) ∨
      (∃ cause l l', compile s c = .error (.rejected ⟨cause, l⟩) ∧
        compile s c.bare = .error (.rejected ⟨cause, l'⟩)) ∨
      (compile s c = .error .overflow ∧ compile s c.bare = .error .overflow) := by
  refine Lowered.cases_of_bare_eq ?_
  simp only [compile, Lowered.bare_bind, c.lower_bare]

/-- The smallest integer over minus one, at a location. -/
def Condition.locatedQuotient : Condition :=
  .located ⟨3, 9⟩ (.compare (.div (.constant Int64.minValue) (.constant (-1))) .eq (.constant 0))

/-- A quotient that overflows is neither compiled nor refused, with its location or without. -/
theorem Trigger.compile_bare_locatedQuotient :
    compile {} Condition.locatedQuotient = .error .overflow ∧
      compile {} Condition.locatedQuotient.bare = .error .overflow := by
  have hcompile : compile {} Condition.locatedQuotient = .error .overflow := by decide +kernel
  obtain ⟨t, ht, -⟩ | ⟨cause, l, l', hrejected, -⟩ | hoverflow :=
    compile_bare {} Condition.locatedQuotient
  · rw [hcompile] at ht
    cases ht
  · rw [hcompile] at hrejected
    cases hrejected
  · exact hoverflow

end MemoryTrigger

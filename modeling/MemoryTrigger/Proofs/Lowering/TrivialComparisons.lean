import MemoryTrigger.Proofs.Lowering.Runs

/-! # Allowing trivial comparisons

The option is looked at in one place only, where a comparison that does not depend on memory is
written as a row or refused.  So two runs that differ in the option go side by side until the stricter
one is refused there, and whatever else it comes to, the other comes to as well
(`Lowered.Foretells`).  The relation is kept by every way of putting steps together, first for chains
(`Condition.foretells_chainRows`), then for triggers (`Condition.foretells_lower`). -/
namespace MemoryTrigger

/-- Refused because a comparison does not depend on memory. -/
def Failure.IsImpossible : Failure → Prop
  | rejected e => e.cause.kind = .impossible
  | overflow => False

namespace Lowered
variable {α β : Type}

/-- The first step tells what the second one comes to, unless it is refused because a comparison does
not depend on memory. -/
def Foretells (x y : Lowered α) : Prop := x = y ∨ ∃ f, x = .error f ∧ f.IsImpossible

theorem Foretells.refl (x : Lowered α) : Foretells x x := .inl rfl

theorem Foretells.bind {x y : Lowered α} {k k' : α → Lowered β} (h : Foretells x y)
    (hk : ∀ a, Foretells (k a) (k' a)) : Foretells (x >>= k) (y >>= k') := by
  rcases h with rfl | ⟨f, rfl, hf⟩
  · cases x with
    | error f => exact .refl _
    | ok a => exact hk a
  · exact .inr ⟨f, rfl, hf⟩

theorem Foretells.mapM {f g : α → Lowered β} {xs : List α} (h : ∀ x ∈ xs, Foretells (f x) (g x)) :
    Foretells (xs.mapM f) (xs.mapM g) := by
  induction xs with
  | nil => exact .refl _
  | cons x xs ih =>
    obtain ⟨hx, hxs⟩ := List.forall_mem_cons.mp h
    rw [List.mapM_cons, List.mapM_cons]
    exact hx.bind fun _ => (ih hxs).bind fun _ => .refl _

/-- A location says where a failure lies and not what it is. -/
theorem Foretells.located {x y : Lowered α} (h : Foretells x y) (l : Location) :
    Foretells (x.located l) (y.located l) := by
  rcases h with rfl | ⟨f, rfl, hf⟩
  · exact .refl _
  · cases f with
    | rejected e => exact .inr ⟨_, rfl, hf⟩
    | overflow => exact hf.elim

end Lowered

open Lowered

/-! ## Chains of links -/

namespace Link
variable {f g : Condition → Lowered (List Row)}

theorem foretells_joined (j : Junction) {cs : List Condition} (h : ∀ c ∈ cs, Foretells (f c) (g c)) :
    Foretells (joined j (cs.map fun c => ⟨c.junction?, f c⟩))
      (joined j (cs.map fun c => ⟨c.junction?, g c⟩)) := by
  rw [Condition.joined_eq, Condition.joined_eq]
  split
  · exact .refl _
  · refine Foretells.bind (.mapM fun c hc => ?_) fun _ => .refl _
    exact h c (Condition.mem_linkOrder.mp hc)

theorem foretells_summed {cs : List Condition} (h : ∀ c ∈ cs, Foretells (f c) (g c)) :
    Foretells (summed (cs.map f)) (summed (cs.map g)) := by
  induction cs with
  | nil => exact .refl _
  | cons c rest ih =>
    obtain ⟨hc, hrest⟩ := List.forall_mem_cons.mp h
    cases rest with
    | nil => exact hc.bind fun _ => .refl _
    | cons next others =>
      simp only [List.map_cons, summed] at ih ⊢
      exact hc.bind fun _ => (ih hrest).bind fun _ => .refl _

theorem foretells_tallied (count : UInt32) {items : List (TallyItem Condition)}
    (h : ∀ item ∈ items, Foretells (f item.condition) (g item.condition)) :
    Foretells (tallied count (items.map fun item => { item with condition := f item.condition }))
      (tallied count (items.map fun item => { item with condition := g item.condition })) := by
  unfold tallied
  rw [splitLast?_map, splitLast?_map, List.isEmpty_map, List.isEmpty_map]
  split
  · exact .refl _
  split
  · exact .refl _
  -- which item carries the target does not depend on its rows
  cases hsplit : splitLast? (fun item : TallyItem Condition => !item.deduct) items with
  | none => exact .refl _
  | some found =>
    obtain ⟨before, last, behind⟩ := found
    obtain ⟨hlast, hothers⟩ := mem_of_splitLast? hsplit
    simp only [Option.map_some, ← List.map_append, List.mapM_map]
    refine Foretells.bind (.mapM fun item hitem => ?_) fun _ => ?_
    · exact (h item (hothers item hitem)).bind fun _ => .refl _
    · exact (h last hlast).bind fun _ => .refl _

end Link

/-! ## Conditions -/

/-- The setting with trivial comparisons allowed or not. -/
def Setting.allowing (s : Setting) (allowTrivial : Bool) : Setting :=
  { s with options := { s.options with allowTrivial } }

/-- The one place where the option is looked at. -/
theorem Comparison.foretells_toRows (options : CompileOptions) (comparison : Comparison) :
    Foretells (comparison.toRows { options with allowTrivial := false })
      (comparison.toRows { options with allowTrivial := true }) := by
  cases comparison with
  | rows rs => exact .refl _
  | constant truth =>
    refine .inr ⟨_, rfl, ?_⟩
    cases truth with
    | true => exact rfl
    | false => exact rfl

namespace Condition
variable (s : Setting)

theorem foretells_countedRows {parts : List Condition}
    (h : ∀ part ∈ parts, ∀ c : Condition, sizeOf c ≤ sizeOf part →
      Foretells (c.chainRows (s.allowing false)) (c.chainRows (s.allowing true))) :
    Foretells (countedRows (s.allowing false) parts) (countedRows (s.allowing true) parts) := by
  match parts with
  | [] => exact .refl _
  | [part] =>
    have hpart := h part List.mem_cons_self
    rw [countedRows, countedRows]
    split
    · exact Link.foretells_summed fun c hc => hpart c (sizeOf_le_of_mem_operands hc)
    · exact hpart part (Nat.le_refl _)
  | first :: second :: rest =>
    rw [countedRows, countedRows]
    · exact Link.foretells_joined .and fun c hc => h c hc c (Nat.le_refl _)
    all_goals simp

theorem foretells_chainRows (c : Condition) :
    Foretells (c.chainRows (s.allowing false)) (c.chainRows (s.allowing true)) := by
  -- on size, since operands of a run and items of a tally lie deeper than one constructor
  induction hn : sizeOf c using Nat.strongRecOn generalizing c with
  | ind n ih =>
    subst hn
    cases c with
    | located l c =>
      rw [chainRows.eq_1, chainRows.eq_1]
      exact (ih (sizeOf c) (by simp only [located.sizeOf_spec]; omega) c rfl).located l
    | compare left relation right =>
      rw [chainRows, chainRows]
      exact (Foretells.refl _).bind fun comparison => comparison.foretells_toRows s.options
    | literal truth =>
      rw [chainRows, chainRows]
      exact .refl _
    | and a b =>
      rw [chainRows, chainRows, attach_map_links, attach_map_links]
      exact Link.foretells_joined .and fun d hd => ih (sizeOf d) (sizeOf_lt_of_mem_append hd) d rfl
    | or a b =>
      rw [chainRows, chainRows, attach_map_links, attach_map_links]
      exact Link.foretells_joined .or fun d hd => ih (sizeOf d) (sizeOf_lt_of_mem_append hd) d rfl
    | repeated count body =>
      have hbody (d : Condition) (hle : sizeOf d ≤ sizeOf body) :=
        ih (sizeOf d) (sizeOf_lt_repeated hle) d rfl
      rw [chainRows_repeated, chainRows_repeated]
      split
      · exact .refl _
      · refine Foretells.bind (.mapM fun d hd => ?_) fun resets => ?_
        · exact hbody d (Nat.le_of_lt (sizeOf_lt_of_mem_countedResets hd))
        · refine Foretells.bind (foretells_countedRows s fun part hpart d hle => ?_) fun _ => .refl _
          exact hbody d (Nat.le_trans hle (sizeOf_le_of_mem_countedParts hpart))
    | tally count items =>
      rw [chainRows, chainRows, attach_map_items, attach_map_items]
      exact Link.foretells_tallied count fun item hitem =>
        ih _ (sizeOf_lt_tally hitem) item.condition rfl
    | resetIf body | pauseIf body | measured body when? format | triggerWhen body =>
      rw [chainRows, chainRows]
      exact .refl _

theorem foretells_chain (role : Role) (c : Condition) :
    Foretells (c.chain (s.allowing false) role) (c.chain (s.allowing true) role) :=
  (foretells_chainRows s c).bind fun _ => .refl _

theorem foretells_chains (role : Role) (cs : List Condition) :
    Foretells (chains (s.allowing false) role cs) (chains (s.allowing true) role cs) :=
  (Foretells.mapM fun c _ => foretells_chain s role c).bind fun _ => .refl _

theorem foretells_measuredRows (first : FirstTarget) (body : Condition) (when? : Option Condition)
    (format : Option MeasuredFormat) :
    Foretells (measuredRows (s.allowing false) first body when? format)
      (measuredRows (s.allowing true) first body when? format) := by
  refine (foretells_chain s _ body).bind fun rows => (Foretells.refl _).bind fun first => ?_
  cases when? with
  | none => exact .refl _
  | some guard => exact (foretells_chains s _ _).bind fun _ => .refl _

/-- The target measured so far is part of the result, so that it is the same in both runs wherever
the next measurement is compared with it. -/
theorem foretells_lower (c : Condition) (first : FirstTarget) :
    Foretells (c.lower (s.allowing false) first) (c.lower (s.allowing true) first) := by
  fun_induction lower (s.allowing false) c first with
  | case1 l c first ih => exact ih.located l
  | case2 a b first iha ihb => exact iha.bind fun x => (ihb x.2).bind fun _ => .refl _
  | case3 a b first iha ihb => exact iha.bind fun x => (ihb x.2).bind fun _ => .refl _
  | case4 c first ih => exact ih.bind fun _ => .refl _
  | case5 c first => exact (foretells_chains s _ _).bind fun _ => .refl _
  | case6 c first => exact (foretells_chains s _ _).bind fun _ => .refl _
  | case7 body when? format first =>
    exact (foretells_measuredRows s first body when? format).bind fun _ => .refl _
  | case8 c first hlocated hand hor htrigger hreset hpause hmeasured =>
    rw [lower.eq_8 _ _ _ hlocated hand hor htrigger hreset hpause hmeasured]
    exact (foretells_chainRows s c).bind fun _ => .refl _

end Condition

namespace Trigger

theorem foretells_compile (s : Setting) (c : Condition) :
    Foretells (compile (s.allowing false) c) (compile (s.allowing true) c) :=
  (c.foretells_lower s none).bind fun _ => .refl _

/-- **Allowing trivial comparisons only ever helps**: what compiles without the option compiles to the
same trigger with it, and every refusal that is not about a comparison of constant truth stays, at its
location.  So does an overflow. -/
theorem compile_allowing (s : Setting) (c : Condition) :
    (∀ t, compile (s.allowing false) c = .ok t → compile (s.allowing true) c = .ok t) ∧
      (∀ e, compile (s.allowing false) c = .error (.rejected e) → e.cause.kind ≠ .impossible →
        compile (s.allowing true) c = .error (.rejected e)) ∧
      (compile (s.allowing false) c = .error .overflow →
        compile (s.allowing true) c = .error .overflow) := by
  have h := foretells_compile s c
  refine ⟨fun t ht => ?_, fun e he hkind => ?_, fun hoverflow => ?_⟩
  · rcases h with h | ⟨f, hf, -⟩
    · rw [← h, ht]
    · rw [ht] at hf
      cases hf
  · rcases h with h | ⟨f, hf, himpossible⟩
    · rw [← h, he]
    · rw [he] at hf
      cases hf
      exact absurd himpossible hkind
  · rcases h with h | ⟨f, hf, himpossible⟩
    · rw [← h, hoverflow]
    · rw [hoverflow] at hf
      cases hf
      exact himpossible.elim

end Trigger

/-- A number of frames counted at a location. -/
def Condition.countedLives (count : UInt32) : Condition :=
  .located ⟨3, 9⟩ (.repeated count (.compare (.read "byte" (.constant 0x10)) .eq (.constant 1)))

/-- A measurement of a comparison that always holds. -/
def Condition.measuredSum : Condition :=
  .measured (.compare (.add (.read "byte" (.constant 0x11)) (.constant 1)) .gt (.constant 0)) none
    none

/-- A count of zero in front of a trivial comparison is refused with the option and without.  Behind
one, it is what is refused once the option is set. -/
theorem Trigger.compile_allowing_countedLives :
    (∃ t, compile (({} : Setting).allowing false) (.countedLives 10) = .ok t ∧
      compile (({} : Setting).allowing true) (.countedLives 10) = .ok t) ∧
    (∃ e, compile (({} : Setting).allowing false) (.and (.countedLives 0) .measuredSum) =
        .error (.rejected e) ∧
      e = ⟨.zeroRepeatCount, some ⟨3, 9⟩⟩ ∧
      compile (({} : Setting).allowing true) (.and (.countedLives 0) .measuredSum) =
        .error (.rejected e)) ∧
    compile (({} : Setting).allowing false) (.and .measuredSum (.countedLives 0)) =
      .error (.rejected ⟨.alwaysTrue, none⟩) ∧
    compile (({} : Setting).allowing true) (.and .measuredSum (.countedLives 0)) =
      .error (.rejected ⟨.zeroRepeatCount, some ⟨3, 9⟩⟩) := by
  obtain ⟨t, ht⟩ : ∃ t, compile (({} : Setting).allowing false) (.countedLives 10) = .ok t :=
    ⟨⟨[{ Row.comparing (.memory .byte 0x10) .eq (.literal 1) with hits := 10 }], []⟩,
      by decide +kernel⟩
  have he : compile (({} : Setting).allowing false) (.and (.countedLives 0) .measuredSum) =
      .error (.rejected ⟨.zeroRepeatCount, some ⟨3, 9⟩⟩) := by decide +kernel
  refine ⟨⟨t, ht, (compile_allowing {} _).1 t ht⟩,
    ⟨_, he, rfl, (compile_allowing {} _).2.1 _ he (by decide)⟩, ?_, ?_⟩
  · decide +kernel
  · decide +kernel

end MemoryTrigger

import MemoryTrigger.Proofs.ClauseMeaning
import MemoryTrigger.Proofs.Simplify.Provenance
import MemoryTrigger.Simplify.Sharing

/-! # Shared and repeated clauses

A filter that all alternates share may as well stand in the core, since the trigger needs the core
and one of the alternates.  A reset that they share may do so where nothing pauses, for then it is
never ignored.  A filter of the core need not be repeated in an alternate. -/
namespace MemoryTrigger

namespace Clause
variable (m : Memory)

/-- A clause of a group may be taken out and put in front. -/
theorem agreeIn_cons_erase {a : List Clause} {c : Clause} (h : c ∈ a) :
    AgreeIn m a (c :: a.erase c) := by
  refine .of_mem_iff fun d => ?_
  rw [List.mem_cons]
  by_cases hd : d = c
  · simp [hd, h]
  · simp [hd, List.mem_erase_of_ne hd]

theorem isPausedIn_cons {c : Clause} (h : c.role ≠ .pauseIf) (rest : List Clause) :
    isPausedIn m (c :: rest) = isPausedIn m rest := by
  simp [isPausedIn, someHolds, h]

theorem allHoldIn_cons_plain {c : Clause} (h : c.role = .plain) (rest : List Clause) :
    allHoldIn m (c :: rest) = (c.holdsIn m && allHoldIn m rest) := by
  rw [Bool.eq_iff_iff, Bool.and_eq_true, allHoldIn_iff, allHoldIn_iff,
    isPausedIn_cons m (by simp [h]), List.forall_mem_cons]
  have htruthy : c.role.isTruthy = true := by
    rw [h]
    rfl
  simp only [htruthy, true_implies]
  exact and_left_comm

theorem resetsIn_cons_plain {c : Clause} (h : c.role = .plain) (rest : List Clause) :
    resetsIn m (c :: rest) = resetsIn m rest := by
  have hreset : (c.role == .resetIf) = false := by rw [h]; rfl
  rw [resetsIn, resetsIn, isPausedIn_cons m (by simp [h])]
  simp [someHolds, hreset]

theorem allHoldIn_cons_reset {c : Clause} (h : c.role = .resetIf) (rest : List Clause) :
    allHoldIn m (c :: rest) = allHoldIn m rest := by
  rw [allHoldIn, allHoldIn, isPausedIn_cons m (by simp [h]), List.all_cons, h]
  rfl

theorem resetsIn_cons_reset {c : Clause} (h : c.role = .resetIf) {rest : List Clause}
    (hpaused : isPausedIn m rest = false) :
    resetsIn m (c :: rest) = (c.holdsIn m || resetsIn m rest) := by
  rw [resetsIn, resetsIn, isPausedIn_cons m (by simp [h]), hpaused]
  simp [someHolds, h]

/-- A clause that a group may already hold is added to it. -/
theorem passesIn_addOnce (core : List Clause) (c : Clause) :
    passesIn m (if core.contains c then core else core ++ [c]) =
      (passesIn m core && passesIn m [c]) := by
  rw [← passesIn_append]
  refine (AgreeIn.of_mem_iff fun d => ?_).passes
  split
  · rename_i h
    have hmem : c ∈ core := by simpa using h
    simp only [List.mem_append, List.mem_singleton]
    exact ⟨.inl, fun hd => hd.elim id fun hd => hd ▸ hmem⟩
  · rfl

end Clause

namespace ClauseGroups
open Clause

/-- No group pauses when no row does. -/
theorem canPause_eq_false {g : ClauseGroups} :
    g.canPause = false ↔ g.All fun c => c.hasRole .pauseIf = false := by
  simp [canPause, All, anyRole]

section Promotion
variable {P : Clause → Prop}

theorem All.promote {pausing : Bool} {g : ClauseGroups} {c : Clause} (h : g.All P) (hc : P c) :
    (promote pausing g c).value.All P := by
  obtain ⟨hcore, halternates⟩ := all_iff.mp h
  unfold ClauseGroups.promote
  split
  · refine all_iff.mpr ⟨fun d hd => ?_, fun group hgroup => ?_⟩
    · simp only [Logged.value_bind, Logged.value_pure] at hd
      split at hd
      · exact hcore d hd
      · rcases List.mem_append.mp hd with hd | hd
        · exact hcore d hd
        · exact List.mem_singleton.mp hd ▸ hc
    · obtain ⟨a, ha, rfl⟩ := List.mem_map.mp hgroup
      exact fun d hd => halternates a ha d (List.mem_of_mem_erase hd)
  · exact h

theorem All.promoteAll {pausing : Bool} {cs : List Clause} {g : ClauseGroups} (h : g.All P)
    (hcs : ∀ c ∈ cs, P c) : (promoteAll pausing cs g).value.All P := by
  induction cs generalizing g with
  | nil => exact h
  | cons c rest ih =>
    exact ih (h.promote (hcs c List.mem_cons_self)) fun d hd => hcs d (List.mem_cons_of_mem _ hd)

theorem forall_mem_fillEmpty (hP : Closed P) {group : List Clause} (h : ∀ c ∈ group, P c) :
    ∀ c ∈ fillEmpty group, P c := by
  unfold fillEmpty
  split
  · exact forall_mem_alwaysTrueGroup hP
  · exact h

theorem All.promoteShared (hP : Closed P) {g : ClauseGroups} (h : g.All P) :
    g.promoteShared.value.All P := by
  unfold ClauseGroups.promoteShared
  split
  · rename_i first second rest halternates
    have hfirst : ∀ c ∈ first, P c := h first (by simp [groups, halternates])
    have hall : (ClauseGroups.promoteAll g.canPause first g).value.All P := h.promoteAll hfirst
    obtain ⟨hcore, hothers⟩ := all_iff.mp hall
    refine all_iff.mpr ⟨hcore, fun group hgroup => ?_⟩
    obtain ⟨a, ha, rfl⟩ := List.mem_map.mp hgroup
    exact forall_mem_fillEmpty hP (hothers a ha)
  · exact h

theorem All.dropTrueCore {g : ClauseGroups} (h : g.All P) : g.dropTrueCore.All P := by
  unfold ClauseGroups.dropTrueCore
  split
  · exact all_iff.mpr ⟨by simp, (all_iff.mp h).2⟩
  · exact h

theorem All.dropRepeated (hP : Closed P) {g : ClauseGroups} (h : g.All P) :
    g.dropRepeated.All P := by
  obtain ⟨hcore, halternates⟩ := all_iff.mp h
  refine all_iff.mpr ⟨fun c hc => hcore c (List.mem_eraseDups.mp hc), fun group hgroup => ?_⟩
  obtain ⟨a, ha, rfl⟩ := List.mem_map.mp hgroup
  exact forall_mem_fillEmpty hP fun c hc =>
    halternates a ha c (List.mem_eraseDups.mp (List.mem_filter.mp hc).1)

end Promotion

variable (m : Memory)

/-- **Moving a shared clause to the core** keeps the firing of the trigger. -/
theorem firesIn_promote {pausing : Bool} {g : ClauseGroups} (c : Clause)
    (hne : g.alternates ≠ []) (hpausing : pausing = false → g.canPause = false) :
    (promote pausing g c).value.firesIn m = g.firesIn m := by
  unfold promote
  split
  · rename_i h
    obtain ⟨hprom, hshared⟩ := Bool.and_eq_true_iff.mp h
    have hmem : ∀ a ∈ g.alternates, c ∈ a := by simpa using hshared
    have hempty : g.alternates.isEmpty = false := by simpa using hne
    simp only [Logged.value_bind, Logged.value_pure, firesIn, passesIn_addOnce, List.isEmpty_map,
      List.any_map, Function.comp_def, hempty, Bool.false_or]
    -- the clause leaves the facts of each alternate that depend on its role
    cases hrole : c.role with
    | plain =>
      have hresets : g.alternates.any (Clause.resetsIn m) =
          g.alternates.any fun a => Clause.resetsIn m (a.erase c) :=
        any_congr_of_mem fun a ha => by
          rw [(agreeIn_cons_erase m (hmem a ha)).resets, resetsIn_cons_plain m hrole]
      have hholds : g.alternates.any (allHoldIn m) =
          (c.holdsIn m && g.alternates.any fun a => allHoldIn m (a.erase c)) := by
        rw [List.and_any_distrib_left]
        exact any_congr_of_mem fun a ha => by
          rw [(agreeIn_cons_erase m (hmem a ha)).holds, allHoldIn_cons_plain m hrole]
      rw [hresets, hholds, passesIn_plain m hrole]
      cases c.holdsIn m <;> simp
    | resetIf =>
      have hquiet : g.canPause = false := hpausing (by simpa [isPromotable, hrole] using hprom)
      have hpaused : ∀ a ∈ g.alternates, isPausedIn m (a.erase c) = false := by
        intro a ha
        refine isPausedIn_of_anyRole_eq_false m (List.any_eq_false.mpr fun d hd => ?_)
        simp [(all_iff.mp (canPause_eq_false.mp hquiet)).2 a ha d (List.mem_of_mem_erase hd)]
      have hholds : g.alternates.any (allHoldIn m) =
          g.alternates.any fun a => allHoldIn m (a.erase c) :=
        any_congr_of_mem fun a ha => by
          rw [(agreeIn_cons_erase m (hmem a ha)).holds, allHoldIn_cons_reset m hrole]
      have hresets : ∀ a ∈ g.alternates, Clause.resetsIn m a =
          (c.holdsIn m || Clause.resetsIn m (a.erase c)) := fun a ha => by
        rw [(agreeIn_cons_erase m (hmem a ha)).resets, resetsIn_cons_reset m hrole (hpaused a ha)]
      rw [any_congr_of_mem hresets, hholds, passesIn_guard m (by rw [hrole]; rfl)]
      cases c.holdsIn m with
      | false => simp
      | true =>
        obtain ⟨a, ha⟩ := List.exists_mem_of_ne_nil _ hne
        have hsome : g.alternates.any (fun a => true || Clause.resetsIn m (a.erase c)) = true :=
          List.any_eq_true.mpr ⟨a, ha, rfl⟩
        rw [hsome]
        simp
    | _ => simp [isPromotable, hrole] at hprom
  · rfl

theorem promote_alternates_ne_nil {pausing : Bool} {g : ClauseGroups} (c : Clause)
    (hne : g.alternates ≠ []) : (promote pausing g c).value.alternates ≠ [] := by
  unfold promote
  split
  · simpa using hne
  · exact hne

theorem agreeIn_fillEmpty (group : List Clause) : AgreeIn m (fillEmpty group) group := by
  unfold fillEmpty
  split
  · rename_i h
    rw [List.isEmpty_iff.mp h]
    exact agreeIn_alwaysTrueGroup m
  · exact .refl _

/-- Where the core passes, a filter that it has may be dropped from an alternate. -/
theorem agreeIn_dropFilters {core a : List Clause} (hcore : passesIn m core = true) :
    AgreeIn m (a.eraseDups.filter fun c => !(c.isPlain && core.contains c)) a := by
  have hmem (c : Clause) : c ∈ (a.eraseDups.filter fun c => !(c.isPlain && core.contains c)) ↔
      c ∈ a ∧ ¬ (c.isPlain = true ∧ c ∈ core) := by
    simp [List.mem_filter, List.mem_eraseDups, Decidable.imp_iff_not_or]
  refine .of_subset (fun c hc => ((hmem c).mp hc).1) fun c hc hdropped => ?_
  have hshared : c.isPlain = true ∧ c ∈ core :=
    Decidable.not_not.mp fun hnot => hdropped ((hmem c).mpr ⟨hc, hnot⟩)
  rw [passesIn_iff, List.forall_mem_singleton]
  exact (passesIn_iff m).mp hcore c hshared.2

/-- **Clauses need not be said twice.** -/
theorem firesIn_dropRepeated (g : ClauseGroups) : g.dropRepeated.firesIn m = g.firesIn m := by
  have hcore : passesIn m g.dropRepeated.core = passesIn m g.core :=
    (AgreeIn.of_mem_iff fun c => List.mem_eraseDups).passes
  cases hpass : passesIn m g.core with
  | false => simp [firesIn, hcore, hpass]
  | true =>
    exact firesIn_of_standsFor hcore fun a _ =>
      .of_agreeIn ((agreeIn_fillEmpty m _).trans (agreeIn_dropFilters m (hcore.trans hpass)))

theorem trigger_promoteCommonClauses (t : Trigger) :
    (promoteCommonClauses.run t).trigger =
      (ofTrigger t).promoteShared.value.dropTrueCore.toTrigger := rfl

theorem trigger_removeDuplicates (t : Trigger) :
    (removeDuplicates.run t).trigger = (ofTrigger t).dropRepeated.toTrigger := rfl

end ClauseGroups
end MemoryTrigger

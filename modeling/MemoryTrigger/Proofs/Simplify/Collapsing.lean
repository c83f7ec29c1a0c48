import MemoryTrigger.Proofs.Simplify.Descent

/-! # Collapsing alternates lowers the trigger

The passes on alternates leave fewer of them, or the trigger as it was, or bring an impossible
alternate behind a possible one.  The last happens where the impossible one was dropped and the
other cannot join the core, so that the dropped one comes back, at the end.  `Alternates.Traces`
says what is known of the alternates and of the last dropped one on the way. -/
namespace MemoryTrigger

namespace Alternates
open Clause

/-- A group that neither pauses nor holds anything that a pause would suspend. -/
def IsInert (group : List Clause) : Prop :=
  anyRole group .pauseIf = false ∧ isPauseSensitive group = false

theorem IsInert.pausesClash {group : List Clause} (h : IsInert group) (core : List Clause) :
    pausesClash group core = false := by
  simp [Alternates.pausesClash, h.1, h.2]

theorem isInert_alwaysTrueGroup : IsInert alwaysTrueGroup := by
  constructor <;> decide

/-- Filters without hit targets are inert, as long as their leads only combine. -/
theorem isInert_of_isPlain {group : List Clause} (hplain : ∀ c ∈ group, c.isPlain = true)
    (hlead : ∀ c ∈ group, ∀ r ∈ c.lead, r.role.isCombining = true) : IsInert group := by
  have hrole (role : Role) (hne : role ≠ .plain) (hrole : role.isCombining = false) :
      anyRole group role = false := by
    refine List.any_eq_false.mpr fun c hc => ?_
    simp only [hasRole, rows, List.any_append, List.any_cons, List.any_nil, Bool.or_false,
      Bool.or_eq_true, List.any_eq_true, beq_iff_eq, not_or, not_exists, not_and]
    refine ⟨fun r hr heq => ?_, fun heq => hne ?_⟩
    · have hcombining := hlead c hc r hr
      rw [heq, hrole] at hcombining
      cases hcombining
    · exact heq.symm.trans (role_of_isPlain (hplain c hc))
  have hhits : anyHits group = false := List.any_eq_false.mpr fun c hc => by
    have hc : c.hasHits = false := by simpa using (Bool.and_eq_true_iff.mp (hplain c hc)).2
    simp [hc]
  have hmeasured : anyMeasured group = false := by
    refine List.any_eq_false.mpr fun c hc => ?_
    have hone := List.any_eq_false.mp (hrole .measured (by decide) rfl) c hc
    have hother := List.any_eq_false.mp (hrole .measuredPercent (by decide) rfl) c hc
    simp [Bool.not_eq_true _ ▸ hone, Bool.not_eq_true _ ▸ hother]
  refine ⟨hrole .pauseIf (by decide) rfl, ?_⟩
  simp [isPauseSensitive, hhits, hmeasured, hrole .resetIf (by decide) rfl]

/-- The union of two alternates is inert. -/
theorem isInert_union? {a b merged : List Clause} (h : union? a b = some merged)
    (hlead : ∀ c ∈ a, ∀ r ∈ c.lead, r.role.isCombining = true) : IsInert merged := by
  obtain ⟨hplain, ca, cb, position, s, t, hget, -, -, -, -, -, hmerged⟩ := union?_cases h
  have ha : ∀ c ∈ a, c.isPlain = true := fun c hc => hplain c (List.mem_append_left _ hc)
  rcases hmerged with ⟨-, rfl⟩ | ⟨d, hd, rfl⟩
  · unfold ClauseGroups.fillEmpty
    split
    · exact isInert_alwaysTrueGroup
    · exact isInert_of_isPlain (fun c hc => ha c (List.mem_of_mem_eraseIdx hc))
        fun c hc => hlead c (List.mem_of_mem_eraseIdx hc)
  · have hca := List.mem_of_getElem? hget
    obtain ⟨relation, value, -, rfl⟩ := withSet?_eq_some.mp hd
    refine isInert_of_isPlain (fun c hc => ?_) fun c hc => ?_
    · rcases List.mem_or_eq_of_mem_set hc with hc | rfl
      · exact ha c hc
      · -- the comparison changed, not the role nor the hit targets
        have hplain := ha ca hca
        simpa only [isPlain, role, hasHits, rows, comparingTo, List.any_append, List.any_cons]
          using hplain
    · rcases List.mem_or_eq_of_mem_set hc with hc | rfl
      · exact hlead c hc
      · exact hlead ca hca

/-! ## What is left of the alternates -/

/-- What is known of the last alternate `lone` and of the last dropped one, where there were two. -/
def Pairs (groups : List (List Clause)) (lone dropped : List Clause) : Prop :=
  IsInert lone ∨ groups = [lone, dropped] ∨
    (groups = [dropped, lone] ∧ isImpossible dropped = true ∧ isImpossible lone = false)

/-- What is known of alternates that were collapsed from `groups`. -/
structure Traces (groups : List (List Clause)) (a : Alternates) : Prop where
  length_le : a.kept.length ≤ groups.length
  same : a.kept.length = groups.length → a.kept = groups
  dropped : ∀ d, a.dropped = some d → a.kept.length < groups.length
  lone : ∀ lone d, a.kept = [lone] → a.dropped = some d → groups.length = 2 → Pairs groups lone d

variable {groups : List (List Clause)} {a : Alternates}

theorem Traces.self (groups : List (List Clause)) : Traces groups ⟨groups, none⟩ :=
  ⟨Nat.le_refl _, fun _ => rfl, by simp, by simp⟩

theorem Traces.drop (h : a.Traces groups) {kept gone : List (List Clause)}
    (hlength : kept.length < a.kept.length)
    (hlone : ∀ lone d, kept = [lone] → gone.getLast?.or a.dropped = some d →
      groups.length = 2 → Pairs groups lone d) : (a.drop kept gone).Traces groups := by
  have hlt : kept.length < groups.length := Nat.lt_of_lt_of_le hlength h.length_le
  exact ⟨Nat.le_of_lt hlt, fun heq => absurd heq (Nat.ne_of_lt hlt), fun _ _ => hlt, hlone⟩

/-! ### Distinct alternates -/

theorem length_splitRepeated (kept rest : List (List Clause)) :
    (splitRepeated kept rest).1.length + (splitRepeated kept rest).2.length =
      kept.length + rest.length := by
  fun_induction splitRepeated kept rest with
  | case1 kept => rfl
  | case2 kept group rest h kept' dropped hsplit ih =>
    simp only [hsplit] at ih
    simp only [List.length_cons]
    omega
  | case3 kept group rest h ih =>
    simp only [List.length_append, List.length_cons, List.length_nil] at ih ⊢
    omega

theorem sublist_splitRepeated (kept rest : List (List Clause)) :
    (splitRepeated kept rest).1.Sublist (kept ++ rest) := by
  fun_induction splitRepeated kept rest with
  | case1 kept => simp
  | case2 kept group rest h kept' dropped hsplit ih =>
    rw [hsplit] at ih
    exact ih.trans ((List.sublist_cons_self group rest).append_left kept)
  | case3 kept group rest h ih => simpa using ih

theorem Traces.ofDistinct (groups : List (List Clause)) :
    (ofDistinct groups).Traces groups := by
  have hlength := length_splitRepeated [] groups
  have hofDistinct : Alternates.ofDistinct groups =
      Alternates.drop ⟨groups, none⟩ (splitRepeated [] groups).1 (splitRepeated [] groups).2 := rfl
  rw [hofDistinct]
  by_cases hnone : (splitRepeated [] groups).2 = []
  · rw [hnone] at hlength
    have hsame : (splitRepeated [] groups).1 = groups :=
      (sublist_splitRepeated [] groups).eq_of_length (by simpa using hlength)
    rw [hnone, hsame]
    exact .self groups
  · have hpos := List.length_pos_iff.mpr hnone
    refine (Traces.self groups).drop (by simp at hlength ⊢; omega) fun lone d hkept hd htwo => ?_
    obtain ⟨x, y, rfl⟩ := List.length_eq_two.mp htwo
    have hsplit : splitRepeated [] [x, y] = if sameClauses x y then ([x], [y]) else ([x, y], []) := by
      simp [splitRepeated]
    rw [hsplit] at hkept hd
    split at hkept
    · rename_i hsame
      rw [if_pos hsame] at hd
      obtain rfl : x = lone := by simpa using hkept
      obtain rfl : y = d := by simpa using hd
      exact .inr (.inl rfl)
    · simp at hkept

/-! ### United alternates -/

/-- No lead holds anything but combining rows. -/
def CombiningLeads (group : List Clause) : Prop := ∀ c ∈ group, ∀ r ∈ c.lead, r.role.isCombining = true

theorem CombiningLeads.union? {x y merged : List Clause} (h : union? x y = some merged)
    (hx : CombiningLeads x) : CombiningLeads merged := by
  obtain ⟨-, ca, cb, position, s, t, hget, -, -, -, -, -, hmerged⟩ := union?_cases h
  rcases hmerged with ⟨-, rfl⟩ | ⟨d, hd, rfl⟩
  · intro c hc
    unfold ClauseGroups.fillEmpty at hc
    split at hc
    · rw [List.mem_singleton.mp hc]
      exact List.forall_mem_nil _
    · exact hx c (List.mem_of_mem_eraseIdx hc)
  · obtain ⟨relation, value, -, rfl⟩ := withSet?_eq_some.mp hd
    intro c hc
    rcases List.mem_or_eq_of_mem_set hc with hc | rfl
    · exact hx c hc
    · exact hx ca (List.mem_of_getElem? hget)

theorem Traces.uniteStep {b : Alternates} {event : Event} (hstep : a.uniteStep = some (b, event))
    (hlead : ∀ group ∈ a.kept, CombiningLeads group) (h : a.Traces groups) : b.Traces groups := by
  obtain ⟨x, y, merged, rest, hunion, hperm, hperm', hb⟩ := uniteStep_eq_some hstep
  rw [hb]
  refine h.drop ?_ fun lone d hkept _ _ => .inl ?_
  · rw [hperm.length_eq, hperm'.length_eq]
    simp
  · rw [hkept] at hperm'
    obtain rfl : merged = lone := by simpa using hperm'.mem_iff.mpr List.mem_cons_self
    exact isInert_union? hunion (hlead x (hperm.mem_iff.mpr List.mem_cons_self))

theorem Traces.unite (hlead : a.Each CombiningLeads) (h : a.Traces groups) :
    a.unite.value.Traces groups := by
  refine (Logged.exhaust_keeps (P := fun b => b.Each CombiningLeads ∧ b.Traces groups)
    ?_ _ a ⟨hlead, h⟩).2
  rintro b c event hstep ⟨hb, htraces⟩
  exact ⟨hb.uniteStep (fun hunion => .union? hunion) hstep, htraces.uniteStep hstep hb.kept⟩

/-! ### Impossible and useless alternates -/

theorem Traces.dropImpossible (h : a.Traces groups) : a.dropImpossible.Traces groups := by
  have hsum := List.length_eq_length_filter_add (l := a.kept) isImpossible
  unfold Alternates.dropImpossible
  simp only
  split
  · rename_i hpossible
    have hpossible := List.isEmpty_iff.mp hpossible
    rw [hpossible] at hsum
    have himpossible : a.kept.filter isImpossible = a.kept :=
      List.filter_sublist.eq_of_length hsum.symm
    rw [himpossible]
    rcases Nat.lt_or_ge 1 a.kept.length with hlt | hle
    · -- all but one of several alternates go without being remembered
      have hlength : (a.kept.take 1).length = 1 := by simp; omega
      have hle := h.length_le
      have hfewer : (a.kept.take 1).length < groups.length := by omega
      refine ⟨Nat.le_of_lt hfewer, fun heq => absurd heq (Nat.ne_of_lt hfewer), fun _ _ => hfewer,
        fun lone d _ hd htwo => ?_⟩
      have := h.dropped d hd
      omega
    · rw [List.take_of_length_le hle]
      exact h
  · by_cases hnone : a.kept.filter isImpossible = []
    · have hsame : (a.kept.filter fun group => !isImpossible group) = a.kept :=
        List.filter_sublist.eq_of_length (by rw [hnone] at hsum; simpa using hsum.symm)
      rw [hnone, hsame]
      exact h
    · have hpos := List.length_pos_iff.mpr hnone
      refine h.drop (by omega) fun lone d hkept hd htwo => ?_
      -- one alternate is possible, so that the other is the one that was dropped
      have hle := h.length_le
      have hlone : (a.kept.filter fun group => !isImpossible group).length = 1 := by rw [hkept]; rfl
      obtain hsame := h.same (by omega)
      obtain ⟨x, y, rfl⟩ := List.length_eq_two.mp htwo
      rw [hsame] at hkept hd
      cases hx : isImpossible x <;> cases hy : isImpossible y <;>
        simp [hx, hy] at hkept hd
      · subst hkept hd
        exact .inr (.inl rfl)
      · subst hkept hd
        exact .inr (.inr ⟨rfl, hx, hy⟩)

theorem sublist_splitBesideTrue (found : Bool) (kept : List (List Clause)) :
    (splitBesideTrue found kept).1.Sublist kept := by
  induction kept generalizing found with
  | nil => exact .slnil
  | cons group rest ih =>
    obtain ⟨found', -, heq | ⟨heq, -⟩⟩ := splitBesideTrue_cons_cases found group rest
    · rw [heq]
      exact (ih found').cons_cons group
    · rw [heq]
      exact (ih found').cons group

theorem length_splitBesideTrue (found : Bool) (kept : List (List Clause)) :
    (splitBesideTrue found kept).1.length + (splitBesideTrue found kept).2.length =
      kept.length := by
  induction kept generalizing found with
  | nil => rfl
  | cons group rest ih =>
    obtain ⟨found', -, heq | ⟨heq, -⟩⟩ := splitBesideTrue_cons_cases found group rest <;>
    · have hlength := ih found'
      rw [heq]
      simp only [List.length_cons]
      omega

theorem Traces.keepBesideTrue (h : a.Traces groups) : a.keepBesideTrue.Traces groups := by
  unfold Alternates.keepBesideTrue
  split
  · rename_i htrue
    have htrue : alwaysTrueGroup ∈ a.kept := by simpa using htrue
    have hlength := length_splitBesideTrue false a.kept
    by_cases hnone : (splitBesideTrue false a.kept).2 = []
    · rw [hnone] at hlength
      have hsame := (sublist_splitBesideTrue false a.kept).eq_of_length hlength
      change (a.drop (splitBesideTrue false a.kept).1 (splitBesideTrue false a.kept).2).Traces groups
      rw [hnone, hsame]
      exact h
    · have hpos := List.length_pos_iff.mpr hnone
      refine h.drop (by omega) fun lone d hkept _ _ => .inl ?_
      have hmem := alwaysTrueGroup_mem_splitBesideTrue htrue
      rw [hkept] at hmem
      rw [← List.mem_singleton.mp hmem]
      exact isInert_alwaysTrueGroup
  · exact h

/-! ### Settling -/

/-- **What settling leaves**: fewer alternates, the same ones, or two in another order. -/
theorem Traces.settle (h : a.Traces groups) (hne : groups ≠ []) (core : List Clause) :
    (a.settle core).alternates.length < groups.length ∨ a.settle core = ⟨core, groups⟩ ∨
      ∃ x y, groups = [x, y] ∧ isImpossible x = true ∧ isImpossible y = false ∧
        a.settle core = ⟨core, [y, x]⟩ := by
  have hpos := List.length_pos_iff.mpr hne
  have hle := h.length_le
  unfold Alternates.settle
  split
  · rename_i lone hkept
    split
    · rename_i hclash
      have hclash' : ¬ IsInert lone := fun hinert => by simp [hinert.pausesClash core] at hclash
      cases hdropped : a.dropped with
      | none =>
        rcases Nat.lt_or_ge 1 groups.length with hlt | hge
        · exact .inl hlt
        · have hsame := h.same (by rw [hkept] at hle ⊢; exact Nat.le_antisymm hle hge)
          rw [← hsame, hkept]
          exact .inr (.inl rfl)
      | some d =>
        have hlt := h.dropped d hdropped
        rw [hkept] at hlt
        rcases Nat.lt_or_ge 2 groups.length with htwo | htwo
        · exact .inl htwo
        · rcases h.lone lone d hkept hdropped (Nat.le_antisymm htwo hlt) with
            hinert | rfl | ⟨rfl, hd, hlone⟩
          · exact absurd hinert hclash'
          · exact .inr (.inl rfl)
          · exact .inr (.inr ⟨d, lone, rfl, hd, hlone, rfl⟩)
    · exact .inl hpos
  · rcases Nat.lt_or_ge a.kept.length groups.length with hlt | hge
    · exact .inl hlt
    · rw [h.same (Nat.le_antisymm hle hge)]
      exact .inr (.inl rfl)

/-! ### Alternates that are all `1=1` -/

theorem splitRepeated_of_forall_eq {group : List Clause} {groups : List (List Clause)}
    (h : ∀ a ∈ groups, a = group) (hsame : sameClauses group group = true) :
    (splitRepeated [group] groups).1 = [group] := by
  induction groups with
  | nil => rfl
  | cons a rest ih =>
    obtain ⟨rfl, hrest⟩ := List.forall_mem_cons.mp h
    simpa [splitRepeated, hsame] using ih hrest

theorem unite_of_length_le_one (h : a.kept.length ≤ 1) : a.unite.value = a := by
  refine Logged.exhaust_keeps (P := (· = a)) ?_ _ a rfl
  rintro b c event hstep rfl
  obtain ⟨x, y, merged, rest, -, hperm, -, -⟩ := uniteStep_eq_some hstep
  rw [hperm.length_eq] at h
  simp at h

end Alternates

/-! ## The passes -/

namespace ClauseGroups
open Clause Alternates Row Trigger

theorem traces_of_combiningLeads {alternates : List (List Clause)}
    (h : ∀ a ∈ alternates, CombiningLeads a) :
    ((ofDistinct alternates).unite.value.dropImpossible.keepBesideTrue).Traces alternates :=
  ((Traces.ofDistinct alternates).unite (Each.ofDistinct h)).dropImpossible.keepBesideTrue

theorem collapseAlternates_of_ne_nil {g : ClauseGroups} (h : g.alternates ≠ []) :
    g.collapseAlternates.value =
      (ofDistinct g.alternates).unite.value.dropImpossible.keepBesideTrue.settle g.core := by
  have hempty : g.alternates.isEmpty = false := by simpa using h
  simp [collapseAlternates, hempty]

/-- Alternates that are all `1=1` go. -/
theorem alternates_collapseAlternates_of_allTrue {g : ClauseGroups} (hne : g.alternates ≠ [])
    (h : ∀ a ∈ g.alternates, a = alwaysTrueGroup) :
    g.collapseAlternates.value.alternates = [] := by
  rw [collapseAlternates_of_ne_nil hne]
  have hkept : (ofDistinct g.alternates).kept = [alwaysTrueGroup] := by
    obtain ⟨a, rest, hcons⟩ := List.exists_cons_of_ne_nil hne
    rw [hcons] at h ⊢
    obtain ⟨rfl, hrest⟩ := List.forall_mem_cons.mp h
    exact splitRepeated_of_forall_eq hrest (by decide)
  rw [unite_of_length_le_one (by rw [hkept]; exact Nat.le_refl 1)]
  have hpossible : (ofDistinct g.alternates).dropImpossible.kept = [alwaysTrueGroup] := by
    rw [dropImpossible, hkept]
    rfl
  have hbeside : (ofDistinct g.alternates).dropImpossible.keepBesideTrue.kept =
      [alwaysTrueGroup] := by
    rw [keepBesideTrue, hpossible]
    rfl
  rw [settle, hbeside]
  simp [isInert_alwaysTrueGroup.pausesClash]

/-- An impossible alternate ranks lower behind a possible one. -/
theorem below_swap {core x y : List Row} (hx : isImpossible (split x) = true)
    (hy : isImpossible (split y) = false) : Below ⟨core, [y, x]⟩ ⟨core, [x, y]⟩ := by
  have hbefore : startsImpossible ⟨core, [x, y]⟩ = true := by simp [startsImpossible, hx, hy]
  have hafter : startsImpossible ⟨core, [y, x]⟩ = false := by simp [startsImpossible, hy]
  refine .inr ⟨rfl, .inr ⟨?_, .inr ⟨?_, ?_⟩⟩⟩
  · simp only [weight, total]
    omega
  · simp only [guards, total]
    omega
  · simp only [disorder, hbefore, hafter, total]
    simp
    omega

/-- **Collapsing alternates lowers a trigger that it changes.** -/
theorem atMost_collapseAlternates (t : Trigger) :
    AtMost (ofTrigger t).collapseAlternates.value.toTrigger t := by
  by_cases hne : (ofTrigger t).alternates = []
  · refine .inl ?_
    rw [collapseAlternates, hne]
    exact toTrigger_ofTrigger t
  · rw [collapseAlternates_of_ne_nil hne]
    have hleads : ∀ a ∈ (ofTrigger t).alternates, CombiningLeads a :=
      List.forall_mem_map.mpr fun rows _ c hc => combining_of_mem_split hc
    have htraces := traces_of_combiningLeads hleads
    rcases htraces.settle hne (ofTrigger t).core with hlt | hsame | ⟨x, y, hgroups, hx, hy, hswap⟩
    · refine .inr (.inl ?_)
      simpa [toTrigger, ofTrigger] using hlt
    · refine .inl ?_
      rw [hsame]
      exact toTrigger_ofTrigger t
    · -- an impossible alternate goes behind a possible one
      obtain ⟨core, alternates⟩ := t
      simp only [ofTrigger, List.map_eq_cons_iff, List.map_eq_nil_iff] at hgroups
      obtain ⟨first, _, rfl, rfl, second, _, rfl, rfl, rfl⟩ := hgroups
      rw [hswap]
      simp only [toTrigger, ofTrigger, List.map_cons, List.map_nil, join_split]
      exact .inr (below_swap hx hy)

/-- **Where all alternates are `1=1`, collapsing them leaves fewer.** -/
theorem length_collapseAlternates_of_allTrue {t : Trigger} (h : t.AllTrue) :
    (ofTrigger t).collapseAlternates.value.toTrigger.alternates.length < t.alternates.length := by
  have hpos : 0 < t.alternates.length := Nat.lt_of_lt_of_le Nat.two_pos h.two_le
  have hnone : (ofTrigger t).collapseAlternates.value.alternates = [] := by
    refine alternates_collapseAlternates_of_allTrue ?_ ?_
    · simpa [ofTrigger] using List.length_pos_iff.mp hpos
    · intro a ha
      obtain ⟨rows, hrows, rfl⟩ := List.mem_map.mp ha
      rw [h.eq rows hrows]
      rfl
  rw [toTrigger, hnone]
  exact hpos

/-- **Dropping implied alternates lowers a trigger that it changes.** -/
theorem atMost_withoutImplied (g : ClauseGroups) :
    AtMost g.withoutImplied.toTrigger g.toTrigger := by
  have hstep (before after : List (List Clause)) (event : Event)
      (h : dropImplied before = some (after, event)) : after.length < before.length := by
    obtain ⟨_, _, hperm, -⟩ := dropImplied_eq_some h
    rw [hperm.length_eq]
    exact Nat.lt_succ_self _
  rcases Logged.exhaust_eq_or_lt List.length hstep g.alternates.length g.alternates with
    heq | hlt
  · refine .inl ?_
    rw [withoutImplied, heq]
  · refine .inr (.inl ?_)
    simpa [toTrigger, withoutImplied] using hlt

end ClauseGroups
end MemoryTrigger

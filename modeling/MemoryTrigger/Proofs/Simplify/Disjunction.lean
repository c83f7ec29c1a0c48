import MemoryTrigger.Proofs.Simplify.Sharing
import MemoryTrigger.Proofs.Steps
import MemoryTrigger.Simplify.Disjunction
import Mathlib.Data.List.Nodup
import Mathlib.Tactic.Tauto

/-! # Collapsing alternates keeps the meaning of a trigger

Two facts about alternates enter the firing of a trigger: whether one of them holds, and whether one
of them resets.  Every step that collapses alternates keeps both (`Alternates.SumsUp`), and a dropped
alternate never says more than those that stay, so that it may come back.  Groups are compared by
length and members, which is right as long as no group holds a clause twice. -/
namespace MemoryTrigger

namespace Clause
variable (m : Memory)

/-! ## Groups of filters -/

theorem allHoldIn_of_plain {group : List Clause} (h : ∀ c ∈ group, c.role = .plain) :
    allHoldIn m group = true ↔ ∀ c ∈ group, c.holdsIn m = true := by
  rw [allHoldIn_eq_passesIn m fun c hc hreset => by simp [h c hc] at hreset,
    passesIn_of_plain m h, List.all_eq_true]

theorem resetsIn_of_plain {group : List Clause} (h : ∀ c ∈ group, c.role = .plain) :
    resetsIn m group = false := by
  rw [← Bool.not_eq_true, resetsIn_iff]
  rintro ⟨-, c, hc, hreset, -⟩
  simp [h c hc] at hreset

/-! ## Equal groups -/

/-- A group without repetitions agrees with every group of its length that has its clauses. -/
theorem agreeIn_of_sameClauses {a b : List Clause} (ha : a.Nodup) (h : sameClauses a b = true) :
    AgreeIn m a b := by
  obtain ⟨hlength, hmem⟩ : a.length = b.length ∧ ∀ c ∈ a, c ∈ b := by simpa [sameClauses] using h
  exact .of_perm ((List.subperm_of_subset ha hmem).perm_of_length_le (Nat.le_of_eq hlength.symm))

/-! ## Unions -/

theorem only?_eq_some {α : Type} {xs : List α} {x : α} : only? xs = some x ↔ xs = [x] := by
  unfold only?
  split <;> simp_all

theorem of_guard_eq_some {p : Prop} [Decidable p] {u : Unit}
    (h : (guard p : Option Unit) = some u) : p := by
  by_contra hp
  simp [guard, hp] at h

/-- What two alternates with a union have in common, and what sets them apart. -/
theorem union?_cases {a b merged : List Clause} (h : union? a b = some merged) :
    (∀ c ∈ a ++ b, c.isPlain = true) ∧ ∃ ca cb position s t,
      a[position]? = some ca ∧ (∀ c, c ∈ a.eraseIdx position ↔ c ∈ a ∧ c ∈ b) ∧
      (∀ c, c ∈ b ↔ c = cb ∨ (c ∈ a ∧ c ∈ b)) ∧ ca.sameQuantity cb = true ∧
      ca.valueSet? = some s ∧ cb.valueSet? = some t ∧
      (((s.union t).bound? = some .full ∧
          merged = ClauseGroups.fillEmpty (a.eraseIdx position)) ∨
        ∃ c, ca.withSet? (s.union t) = some c ∧ merged = a.set position c) := by
  unfold union? at h
  obtain ⟨_, hplain, h⟩ := Option.bind_eq_some_iff.mp h
  obtain ⟨⟨ca, position⟩, hca, h⟩ := Option.bind_eq_some_iff.mp h
  obtain ⟨cb, hcb, h⟩ := Option.bind_eq_some_iff.mp h
  obtain ⟨_, hq, h⟩ := Option.bind_eq_some_iff.mp h
  obtain ⟨s, hs, h⟩ := Option.bind_eq_some_iff.mp h
  obtain ⟨t, ht, h⟩ := Option.bind_eq_some_iff.mp h
  have hplain := List.all_eq_true.mp (Bool.and_eq_true_iff.mp (of_guard_eq_some hplain)).2
  have hca := only?_eq_some.mp hca
  have hcb := only?_eq_some.mp hcb
  have hfirst : (ca, position) ∈ a.zipIdx.filter fun entry => !b.contains entry.1 := by
    rw [hca]
    exact List.mem_singleton_self _
  obtain ⟨hmem, hlacks⟩ := List.mem_filter.mp hfirst
  have hget := List.mk_mem_zipIdx_iff_getElem?.mp hmem
  have hlacks : ca ∉ b := by simpa using hlacks
  refine ⟨hplain, ca, cb, position, s, t, hget, fun c => ?_, fun c => ?_, of_guard_eq_some hq, hs,
    ht, ?_⟩
  · rw [List.mem_eraseIdx_iff_getElem?]
    constructor
    · rintro ⟨i, hi, hc⟩
      refine ⟨List.mem_of_getElem? hc, ?_⟩
      -- a clause of `a` that `b` lacks stands in the one place that was found
      by_contra hnot
      have hentry : (c, i) ∈ a.zipIdx.filter fun entry => !b.contains entry.1 :=
        List.mem_filter.mpr ⟨List.mk_mem_zipIdx_iff_getElem?.mpr hc, by simpa using hnot⟩
      rw [hca, List.mem_singleton] at hentry
      exact hi (congrArg Prod.snd hentry)
    · rintro ⟨hc, hcb⟩
      obtain ⟨i, hi⟩ := List.mem_iff_getElem?.mp hc
      refine ⟨i, fun heq => ?_, hi⟩
      rw [heq, hget] at hi
      exact hlacks (Option.some.inj hi ▸ hcb)
  · have hfilter : c ∈ (b.filter fun c => !a.contains c) ↔ c = cb := by rw [hcb, List.mem_singleton]
    rw [List.mem_filter] at hfilter
    by_cases hc : c ∈ a
    · have hcb' : c ≠ cb := fun heq => by simpa [hc] using hfilter.mpr heq
      simp [hc, hcb']
    · rw [← hfilter]
      simp [hc]
  · simp only at h
    split at h
    · rename_i hfull
      exact .inl ⟨hfull, (Option.some.inj h).symm⟩
    · obtain ⟨c, hc, h⟩ := Option.bind_eq_some_iff.mp h
      exact .inr ⟨c, hc, (Option.some.inj h).symm⟩

section Union
variable {m} {a b merged : List Clause}

/-- A union consists of filters. -/
theorem role_of_mem_union? (h : union? a b = some merged) : ∀ c ∈ merged, c.role = .plain := by
  obtain ⟨hplain, ca, cb, position, s, t, hget, -, -, -, -, -, hmerged⟩ := union?_cases h
  have ha : ∀ c ∈ a, c.role = .plain := fun c hc =>
    role_of_isPlain (hplain c (List.mem_append_left _ hc))
  intro c hc
  rcases hmerged with ⟨-, rfl⟩ | ⟨d, hd, rfl⟩
  · unfold ClauseGroups.fillEmpty at hc
    split at hc
    · rw [List.mem_singleton.mp hc]
      rfl
    · exact ha c (List.mem_of_mem_eraseIdx hc)
  · rcases List.mem_or_eq_of_mem_set hc with hc | rfl
    · exact ha c hc
    · obtain ⟨_, _, -, rfl⟩ := withSet?_eq_some.mp hd
      exact ha ca (List.mem_of_getElem? hget)

theorem Closed.union? {P : Clause → Prop} (hP : Closed P) (ha : ∀ c ∈ a, P c)
    (h : union? a b = some merged) : ∀ c ∈ merged, P c := by
  obtain ⟨hplain, ca, cb, position, s, t, hget, -, -, -, hs, -, hmerged⟩ := union?_cases h
  rcases hmerged with ⟨-, rfl⟩ | ⟨d, hd, rfl⟩
  · exact ClauseGroups.forall_mem_fillEmpty hP fun c hc => ha c (List.mem_of_mem_eraseIdx hc)
  · intro c hc
    rcases List.mem_or_eq_of_mem_set hc with hc | rfl
    · exact ha c hc
    · have hca : ca ∈ a := List.mem_of_getElem? hget
      have hrole := role_of_isPlain (hplain ca (List.mem_append_left _ hca))
      exact hP.withSet (ha ca hca) (by rw [hrole]; rfl) hs hd

/-- **A union holds when one of its alternates does**: they agree in all but one comparison, and
those two compare the same quantity. -/
theorem allHoldIn_union? (h : union? a b = some merged) :
    allHoldIn m merged = (allHoldIn m a || allHoldIn m b) := by
  have hroles := role_of_mem_union? h
  obtain ⟨hplain, ca, cb, position, s, t, hget, hcommon, hb, hq, hs, ht, hmerged⟩ :=
    union?_cases h
  have haplain : ∀ c ∈ a, c.isPlain = true := fun c hc => hplain c (List.mem_append_left _ hc)
  have hbplain : ∀ c ∈ b, c.isPlain = true := fun c hc => hplain c (List.mem_append_right _ hc)
  have hca := hits_terminal_of_isPlain (haplain ca (List.mem_of_getElem? hget))
  have hcb := hits_terminal_of_isPlain (hbplain cb ((hb cb).mpr (.inl rfl)))
  have hle := quantityIn_le_limit m hs
  have heither := mem_union_iff_holdsIn m hq hs ht hca hcb
  have hholdsa : allHoldIn m a = true ↔
      ca.holdsIn m = true ∧ ∀ c, c ∈ a ∧ c ∈ b → c.holdsIn m = true := by
    rw [allHoldIn_of_plain m fun c hc => role_of_isPlain (haplain c hc)]
    simp only [(Places.perm_cons_eraseIdx hget).mem_iff, List.forall_mem_cons, hcommon]
  have hholdsb : allHoldIn m b = true ↔
      cb.holdsIn m = true ∧ ∀ c, c ∈ a ∧ c ∈ b → c.holdsIn m = true := by
    rw [allHoldIn_of_plain m fun c hc => role_of_isPlain (hbplain c hc)]
    constructor
    · exact fun hall => ⟨hall cb ((hb cb).mpr (.inl rfl)), fun c hc => hall c hc.2⟩
    · rintro ⟨hcb, hrest⟩ c hc
      rcases (hb c).mp hc with rfl | hc
      · exact hcb
      · exact hrest c hc
  have hholds : allHoldIn m merged = true ↔ (ca.holdsIn m = true ∨ cb.holdsIn m = true) ∧
      ∀ c, c ∈ a ∧ c ∈ b → c.holdsIn m = true := by
    rcases hmerged with ⟨hfull, rfl⟩ | ⟨d, hd, rfl⟩
    · have hmem : (ca.quantityIn m).toNat ∈ s.union t :=
        (ValueSet.mem_iff_of_bound? hfull (by change _ ≤ max _ _; omega)).mpr trivial
      rw [(ClauseGroups.agreeIn_fillEmpty m _).holds, allHoldIn_of_plain m fun c hc =>
        role_of_isPlain (haplain c ((hcommon c).mp hc).1)]
      simp only [hcommon, heither.mp hmem, true_and]
    · have hlt := (List.getElem?_eq_some_iff.mp hget).1
      rw [allHoldIn_of_plain m hroles, ← heither,
        ← holdsIn_withSet? m hs hd hca (by change _ ≤ max _ _; omega)]
      simp only [(List.set_perm_cons_eraseIdx hlt d).mem_iff, List.forall_mem_cons, hcommon]
  rw [Bool.eq_iff_iff, Bool.or_eq_true, hholds, hholdsa, hholdsb]
  exact or_and_right

end Union

/-! ## Groups that never hold -/

theorem allHoldIn_of_groupNeverHolds {group : List Clause} (h : groupNeverHolds group = true) :
    allHoldIn m group = false := by
  obtain ⟨c, hc, hnever⟩ := List.any_eq_true.mp h
  obtain ⟨hrole, hconstant⟩ : c.role = .plain ∧ c.constant? = some false := by
    simpa [neverHolds] using hnever
  rw [← Bool.not_eq_true, allHoldIn_iff]
  rintro ⟨-, hall⟩
  have hholds := hall c hc (by rw [hrole]; rfl)
  simp [holdsIn_of_constant?_false m hconstant] at hholds

theorem isImpossible_iff {group : List Clause} : isImpossible group = true ↔
    groupNeverHolds group = true ∧ anyRole group .resetIf = false := by
  simp [isImpossible]

theorem resetsIn_of_not_hasEffect {group : List Clause} (h : hasEffect group = false) :
    resetsIn m group = false :=
  resetsIn_of_anyRole_eq_false m (by simp_all [hasEffect])

end Clause

namespace Alternates
open Clause

/-! ## One of the alternates holds, one of them resets -/

/-- The kept alternates hold and reset as some groups do together, and the dropped one does not say
more. -/
structure SumsUp (m : Memory) (groups : List (List Clause)) (a : Alternates) : Prop where
  ne_nil : a.kept ≠ []
  holds : a.kept.any (allHoldIn m) = groups.any (allHoldIn m)
  resets : a.kept.any (resetsIn m) = groups.any (resetsIn m)
  dropped : ∀ d ∈ a.dropped, (allHoldIn m d = true → groups.any (allHoldIn m) = true) ∧
    (resetsIn m d = true → groups.any (resetsIn m) = true)

/-- Every group in sight has a property. -/
structure Each (Q : List Clause → Prop) (a : Alternates) : Prop where
  kept : ∀ group ∈ a.kept, Q group
  dropped : ∀ group ∈ a.dropped, Q group

theorem mem_dropped_drop {a : Alternates} {kept groups : List (List Clause)} {d : List Clause}
    (h : d ∈ (a.drop kept groups).dropped) : d ∈ groups ∨ d ∈ a.dropped := by
  change groups.getLast?.or a.dropped = some d at h
  rcases Option.or_eq_some_iff.mp h with h | ⟨-, h⟩
  · exact .inl (List.mem_of_getLast? h)
  · exact .inr h

theorem Each.drop {Q : List Clause → Prop} {a : Alternates} {kept groups : List (List Clause)}
    (h : a.Each Q) (hkept : ∀ group ∈ kept, Q group) (hgroups : ∀ group ∈ groups, Q group) :
    (a.drop kept groups).Each Q := by
  refine ⟨hkept, fun d hd => ?_⟩
  rcases mem_dropped_drop hd with hd | hd
  · exact hgroups d hd
  · exact h.dropped d hd

variable {m : Memory} {groups : List (List Clause)}

/-- Alternates may be dropped that do not matter beside those that stay. -/
theorem SumsUp.drop {a : Alternates} (h : a.SumsUp m groups) {kept gone : List (List Clause)}
    (hne : kept ≠ []) (hholds : kept.any (allHoldIn m) = a.kept.any (allHoldIn m))
    (hresets : kept.any (resetsIn m) = a.kept.any (resetsIn m)) (hgone : ∀ d ∈ gone, d ∈ a.kept) :
    (a.drop kept gone).SumsUp m groups := by
  refine ⟨hne, hholds.trans h.holds, hresets.trans h.resets, fun d hd => ?_⟩
  rcases mem_dropped_drop hd with hd | hd
  · rw [← h.holds, ← h.resets]
    exact ⟨fun hd' => List.any_eq_true.mpr ⟨d, hgone d hd, hd'⟩,
      fun hd' => List.any_eq_true.mpr ⟨d, hgone d hd, hd'⟩⟩
  · exact h.dropped d hd

/-! ### Equal alternates -/

/-- Telling repeated alternates apart loses none of them. -/
theorem mem_splitRepeated {kept rest : List (List Clause)} {group : List Clause} :
    group ∈ (splitRepeated kept rest).1 ∨ group ∈ (splitRepeated kept rest).2 ↔
      group ∈ kept ∨ group ∈ rest := by
  fun_induction splitRepeated kept rest with
  | case1 kept => simp
  | case2 kept a rest h kept' dropped hsplit ih =>
    rw [hsplit] at ih
    simp only [List.mem_cons]
    tauto
  | case3 kept a rest h ih =>
    rw [ih]
    simp only [List.mem_append, List.mem_cons, List.not_mem_nil, or_false]
    tauto

theorem splitRepeated_ne_nil {kept rest : List (List Clause)} (h : kept ≠ [] ∨ rest ≠ []) :
    (splitRepeated kept rest).1 ≠ [] := by
  fun_induction splitRepeated kept rest with
  | case1 kept => simpa using h
  | case2 kept a rest hany kept' dropped hsplit ih =>
    rw [hsplit] at ih
    refine ih (.inl ?_)
    rintro rfl
    simp at hany
  | case3 kept a rest hany ih => exact ih (.inl (by simp))

/-- A fact about groups is found among the alternates when it is found among those that do not
repeat an earlier one. -/
theorem any_splitRepeated {f : List Clause → Bool}
    (hf : ∀ a b, a.Nodup → sameClauses a b = true → f a = f b) {kept rest : List (List Clause)}
    (hkept : ∀ a ∈ kept, a.Nodup) (hrest : ∀ a ∈ rest, a.Nodup) :
    (splitRepeated kept rest).1.any f = (kept.any f || rest.any f) := by
  fun_induction splitRepeated kept rest with
  | case1 kept => simp
  | case2 kept a rest hany kept' dropped hsplit ih =>
    rw [hsplit] at ih
    obtain ⟨k, hk, hsame⟩ := List.any_eq_true.mp hany
    have hfirst : f a = true → kept.any f = true := fun ha =>
      List.any_eq_true.mpr ⟨k, hk, (hf k a (hkept k hk) hsame).trans ha⟩
    rw [ih hkept fun b hb => hrest b (List.mem_cons_of_mem _ hb), List.any_cons]
    revert hfirst
    cases f a <;> cases kept.any f <;> simp
  | case3 kept a rest hany ih =>
    rw [ih ?_ fun b hb => hrest b (List.mem_cons_of_mem _ hb), List.any_append, List.any_cons]
    · simp [Bool.or_assoc]
    · intro b hb
      rcases List.mem_append.mp hb with hb | hb
      · exact hkept b hb
      · rw [List.mem_singleton.mp hb]
        exact hrest a List.mem_cons_self

theorem SumsUp.ofDistinct (hne : groups ≠ []) (h : ∀ a ∈ groups, a.Nodup) :
    (ofDistinct groups).SumsUp m groups := by
  have hall : SumsUp m groups ⟨groups, none⟩ := ⟨hne, rfl, rfl, by simp⟩
  have hany {f : List Clause → Bool}
      (hf : ∀ a b, a.Nodup → sameClauses a b = true → f a = f b) :
      (splitRepeated [] groups).1.any f = groups.any f := by
    simpa using any_splitRepeated hf (List.forall_mem_nil _) h
  refine hall.drop (splitRepeated_ne_nil (.inr hne))
    (hany fun a b ha hsame => (agreeIn_of_sameClauses m ha hsame).holds)
    (hany fun a b ha hsame => (agreeIn_of_sameClauses m ha hsame).resets) fun d hd => ?_
  simpa using mem_splitRepeated.mp (.inr hd)

theorem Each.ofDistinct {Q : List Clause → Prop} (h : ∀ a ∈ groups, Q a) :
    (ofDistinct groups).Each Q := by
  have hempty : Each Q ⟨[], none⟩ := ⟨by simp, by simp⟩
  refine hempty.drop (fun a ha => h a ?_) fun a ha => h a ?_
  · simpa using mem_splitRepeated.mp (.inl ha)
  · simpa using mem_splitRepeated.mp (.inr ha)

/-! ### United alternates -/

/-- A step exchanges two alternates for their union and remembers the second. -/
theorem uniteStep_eq_some {a b : Alternates} {event : Event} (h : a.uniteStep = some (b, event)) :
    ∃ x y merged rest, union? x y = some merged ∧ a.kept.Perm (x :: y :: rest) ∧
      b.kept.Perm (merged :: rest) ∧ b = a.drop b.kept [y] := by
  obtain ⟨⟨i, j, merged⟩, hfind, heq⟩ := Option.map_eq_some_iff.mp h
  cases heq
  obtain ⟨⟨x, i⟩, hx, hfind⟩ := List.exists_of_findSome?_eq_some hfind
  obtain ⟨⟨y, j⟩, hy, hfind⟩ := List.exists_of_findSome?_eq_some hfind
  simp only at hfind
  split at hfind
  · rename_i hij
    obtain ⟨merged, hmerged, heq⟩ := Option.map_eq_some_iff.mp hfind
    cases heq
    have hi := List.mk_mem_zipIdx_iff_getElem?.mp hx
    have hj := List.mk_mem_zipIdx_iff_getElem?.mp hy
    obtain ⟨rest, hperm, hperm'⟩ := Places.perm_set_eraseIdx hi hj (Nat.ne_of_lt hij) merged
    refine ⟨x, y, merged, rest, hmerged, hperm, hperm', ?_⟩
    rw [List.getElem?_set_ne (Nat.ne_of_lt hij), hj]
    rfl
  · cases hfind

theorem SumsUp.uniteStep {a b : Alternates} {event : Event} (h : a.uniteStep = some (b, event))
    (ha : a.SumsUp m groups) : b.SumsUp m groups := by
  obtain ⟨x, y, merged, rest, hunion, hperm, hperm', hb⟩ := uniteStep_eq_some h
  obtain ⟨hplain, -⟩ := union?_cases hunion
  have hroles : ∀ c ∈ x ++ y, c.role = .plain := fun c hc => role_of_isPlain (hplain c hc)
  have hx := resetsIn_of_plain m fun c hc => hroles c (List.mem_append_left _ hc)
  have hy := resetsIn_of_plain m fun c hc => hroles c (List.mem_append_right _ hc)
  have hmerged := resetsIn_of_plain m (role_of_mem_union? hunion)
  rw [hb]
  refine ha.drop ?_ ?_ ?_ ?_
  · rintro hnil
    simp [hnil] at hperm'
  · rw [hperm.any_eq, hperm'.any_eq]
    simp [allHoldIn_union? hunion, Bool.or_assoc]
  · rw [hperm.any_eq, hperm'.any_eq]
    simp [hx, hy, hmerged]
  · intro d hd
    rw [List.mem_singleton.mp hd]
    exact hperm.mem_iff.mpr (by simp)

theorem Each.uniteStep {Q : List Clause → Prop}
    (hQ : ∀ {x y merged : List Clause}, union? x y = some merged → Q x → Q merged)
    {a b : Alternates} {event : Event} (h : a.uniteStep = some (b, event)) (ha : a.Each Q) :
    b.Each Q := by
  obtain ⟨x, y, merged, rest, hunion, hperm, hperm', hb⟩ := uniteStep_eq_some h
  have hall : ∀ group ∈ x :: y :: rest, Q group := fun group hgroup =>
    ha.kept group (hperm.mem_iff.mpr hgroup)
  rw [hb]
  refine ha.drop (fun group hgroup => ?_) fun group hgroup => ?_
  · rcases List.mem_cons.mp (hperm'.mem_iff.mp hgroup) with rfl | hgroup
    · exact hQ hunion (hall x (by simp))
    · exact hall group (by simp [hgroup])
  · rw [List.mem_singleton.mp hgroup]
    exact hall y (by simp)

/-! ### Impossible alternates -/

theorem SumsUp.dropImpossible {a : Alternates} (h : a.SumsUp m groups) :
    a.dropImpossible.SumsUp m groups := by
  have hnone : ∀ group ∈ a.kept, isImpossible group = true →
      allHoldIn m group = false ∧ resetsIn m group = false := fun group _ himpossible =>
    ⟨allHoldIn_of_groupNeverHolds m (isImpossible_iff.mp himpossible).1,
      resetsIn_of_anyRole_eq_false m (isImpossible_iff.mp himpossible).2⟩
  unfold Alternates.dropImpossible
  simp only
  split
  · rename_i hempty
    have hall : ∀ group ∈ a.kept, isImpossible group = true := by simpa using hempty
    have hholds : groups.any (allHoldIn m) = false := by
      rw [← h.holds]
      exact List.any_eq_false.mpr fun group hg => by simp [(hnone group hg (hall group hg)).1]
    have hresets : groups.any (resetsIn m) = false := by
      rw [← h.resets]
      exact List.any_eq_false.mpr fun group hg => by simp [(hnone group hg (hall group hg)).2]
    have hkept : ∀ group ∈ (a.kept.filter isImpossible).take 1, group ∈ a.kept :=
      fun group hg => (List.mem_filter.mp (List.mem_of_mem_take hg)).1
    refine ⟨?_, ?_, ?_, h.dropped⟩
    · rw [List.filter_eq_self.mpr hall]
      simpa using h.ne_nil
    · rw [hholds]
      refine List.any_eq_false.mpr fun group hg => ?_
      simp [(hnone group (hkept group hg) (hall group (hkept group hg))).1]
    · rw [hresets]
      refine List.any_eq_false.mpr fun group hg => ?_
      simp [(hnone group (hkept group hg) (hall group (hkept group hg))).2]
  · rename_i hpossible
    have hany {f : List Clause → Bool}
        (hf : ∀ group ∈ a.kept, isImpossible group = true → f group = false) :
        (a.kept.filter fun group => !isImpossible group).any f = a.kept.any f := by
      rw [List.any_filter]
      refine ClauseGroups.any_congr_of_mem fun group hg => ?_
      cases himpossible : isImpossible group with
      | true => simp [hf group hg himpossible]
      | false => simp
    exact h.drop (by simpa using hpossible) (hany fun group hg hi => (hnone group hg hi).1)
      (hany fun group hg hi => (hnone group hg hi).2) fun d hd => (List.mem_filter.mp hd).1

theorem Each.dropImpossible {Q : List Clause → Prop} {a : Alternates} (h : a.Each Q) :
    a.dropImpossible.Each Q := by
  unfold Alternates.dropImpossible
  simp only
  split
  · exact ⟨fun group hg => h.kept group (List.mem_filter.mp (List.mem_of_mem_take hg)).1, h.dropped⟩
  · exact h.drop (fun group hg => h.kept group (List.mem_filter.mp hg).1)
      fun group hg => h.kept group (List.mem_filter.mp hg).1

/-! ### An alternate that always holds -/

/-- An alternate stays beside one that always holds, or it is dropped for lack of an effect. -/
theorem splitBesideTrue_cons_cases (found : Bool) (a : List Clause) (rest : List (List Clause)) :
    ∃ found', (a ≠ alwaysTrueGroup → found' = found) ∧
      ((splitBesideTrue found (a :: rest) =
          (a :: (splitBesideTrue found' rest).1, (splitBesideTrue found' rest).2)) ∨
        (splitBesideTrue found (a :: rest) =
            ((splitBesideTrue found' rest).1, a :: (splitBesideTrue found' rest).2) ∧
          hasEffect a = false ∧ (a = alwaysTrueGroup → found = true))) := by
  refine ⟨found || a == alwaysTrueGroup, fun hne => by simp [hne], ?_⟩
  rw [splitBesideTrue]
  simp only
  by_cases htrue : a = alwaysTrueGroup
  · have heffect : hasEffect alwaysTrueGroup = false := by decide
    subst htrue
    cases found with
    | false => exact .inl (by simp)
    | true => exact .inr ⟨by simp, heffect, fun _ => rfl⟩
  · cases heffect : hasEffect a with
    | true => exact .inl (by simp [htrue])
    | false => exact .inr ⟨by simp [htrue], rfl, fun heq => absurd heq htrue⟩

theorem mem_splitBesideTrue {found : Bool} {kept : List (List Clause)} {group : List Clause} :
    group ∈ (splitBesideTrue found kept).1 ∨ group ∈ (splitBesideTrue found kept).2 ↔
      group ∈ kept := by
  induction kept generalizing found with
  | nil => exact or_self_iff
  | cons a rest ih =>
    obtain ⟨found', -, heq | ⟨heq, -⟩⟩ := splitBesideTrue_cons_cases found a rest
    · rw [heq, List.mem_cons, List.mem_cons, or_assoc, ih]
    · rw [heq, List.mem_cons, List.mem_cons, or_left_comm, ih]

/-- Only alternates without effect are dropped beside one that always holds. -/
theorem hasEffect_of_mem_splitBesideTrue {found : Bool} {kept : List (List Clause)}
    {group : List Clause} (h : group ∈ (splitBesideTrue found kept).2) :
    hasEffect group = false := by
  induction kept generalizing found with
  | nil => exact absurd h List.not_mem_nil
  | cons a rest ih =>
    obtain ⟨found', -, heq | ⟨heq, heffect, -⟩⟩ := splitBesideTrue_cons_cases found a rest
    · rw [heq] at h
      exact ih h
    · rw [heq] at h
      rcases List.mem_cons.mp h with rfl | h
      · exact heffect
      · exact ih h

theorem alwaysTrueGroup_mem_splitBesideTrue {kept : List (List Clause)}
    (h : alwaysTrueGroup ∈ kept) : alwaysTrueGroup ∈ (splitBesideTrue false kept).1 := by
  induction kept with
  | nil => cases h
  | cons a rest ih =>
    obtain ⟨found', hfound, hcases⟩ := splitBesideTrue_cons_cases false a rest
    by_cases htrue : a = alwaysTrueGroup
    · rcases hcases with heq | ⟨-, -, hfalse⟩
      · rw [heq, htrue]
        exact List.mem_cons_self
      · exact absurd (hfalse htrue) (by simp)
    · rw [hfound htrue] at hcases
      have hrest := ih ((List.mem_cons.mp h).resolve_left (Ne.symm htrue))
      rcases hcases with heq | ⟨heq, -⟩
      · rw [heq]
        exact List.mem_cons_of_mem _ hrest
      · rw [heq]
        exact hrest

theorem SumsUp.keepBesideTrue {a : Alternates} (h : a.SumsUp m groups) :
    a.keepBesideTrue.SumsUp m groups := by
  unfold Alternates.keepBesideTrue
  split
  · rename_i htrue
    have htrue : alwaysTrueGroup ∈ a.kept := by simpa using htrue
    have hkept := alwaysTrueGroup_mem_splitBesideTrue htrue
    have hholds : allHoldIn m alwaysTrueGroup = true := by
      rw [(agreeIn_alwaysTrueGroup m).holds]
      rfl
    refine h.drop (List.ne_nil_of_mem hkept) ?_ ?_ fun d hd => mem_splitBesideTrue.mp (.inr hd)
    · rw [List.any_eq_true.mpr ⟨_, hkept, hholds⟩, List.any_eq_true.mpr ⟨_, htrue, hholds⟩]
    · rw [Bool.eq_iff_iff, List.any_eq_true, List.any_eq_true]
      constructor
      · rintro ⟨group, hgroup, hresets⟩
        exact ⟨group, mem_splitBesideTrue.mp (.inl hgroup), hresets⟩
      · rintro ⟨group, hgroup, hresets⟩
        rcases mem_splitBesideTrue.mpr hgroup with hgroup | hgroup
        · exact ⟨group, hgroup, hresets⟩
        · have heffect := hasEffect_of_mem_splitBesideTrue hgroup
          simp [resetsIn_of_not_hasEffect m heffect] at hresets
  · exact h

theorem Each.keepBesideTrue {Q : List Clause → Prop} {a : Alternates} (h : a.Each Q) :
    a.keepBesideTrue.Each Q := by
  unfold Alternates.keepBesideTrue
  split
  · exact h.drop (fun group hg => h.kept group (mem_splitBesideTrue.mp (.inl hg)))
      fun group hg => h.kept group (mem_splitBesideTrue.mp (.inr hg))
  · exact h

/-! ### Settling -/

/-- **A lone alternate may join the core**, and a dropped one may come back. -/
theorem SumsUp.firesIn_settle {a : Alternates} {core : List Clause} (h : a.SumsUp m groups)
    (hne : groups ≠ []) :
    (a.settle core).firesIn m = (ClauseGroups.mk core groups).firesIn m := by
  have hempty : groups.isEmpty = false := by simpa using hne
  have hholds := h.holds
  have hresets := h.resets
  unfold settle
  split
  · rename_i lone hkept
    rw [hkept] at hholds hresets
    simp only [List.any_cons, List.any_nil, Bool.or_false] at hholds hresets
    split
    · have hdropped := h.dropped
      cases hd : a.dropped with
      | none =>
        simp only [ClauseGroups.firesIn, hempty, ← hholds, ← hresets, Option.toList_none,
          List.any_cons, List.any_nil, Bool.or_false, List.isEmpty_cons]
      | some d =>
        obtain ⟨hdholds, hdresets⟩ := hdropped d hd
        rw [← hholds] at hdholds
        rw [← hresets] at hdresets
        have hor : ∀ {x y : Bool}, (y = true → x = true) → (x || y) = x := by decide
        simp only [ClauseGroups.firesIn, hempty, ← hholds, ← hresets, Option.toList_some,
          List.any_cons, List.any_nil, Bool.or_false, List.isEmpty_cons, hor hdholds, hor hdresets]
    · simp only [ClauseGroups.firesIn, hempty, ← hholds, ← hresets, List.any_nil, Bool.not_false,
        Bool.and_true, List.isEmpty_nil, Bool.true_or, passesIn_append, Bool.false_or]
      rw [passesIn.eq_1 m lone, Bool.and_assoc]
  · have hkept : a.kept.isEmpty = false := by simpa using h.ne_nil
    simp only [ClauseGroups.firesIn, hempty, hkept, hholds, hresets]

/-- What is true of every group stays true of every alternate, and of a lone one that joins the
core. -/
theorem Each.settle {Q : List Clause → Prop} {a : Alternates} (core : List Clause) (h : a.Each Q) :
    (∀ group ∈ (a.settle core).alternates, Q group) ∧ ((a.settle core).core = core ∨
      ∃ lone, Q lone ∧ a.settle core = ⟨core ++ lone, []⟩) := by
  unfold Alternates.settle
  split
  · rename_i lone hkept
    have hlone : Q lone := h.kept lone (by simp [hkept])
    split
    · refine ⟨fun group hgroup => ?_, .inl rfl⟩
      rcases List.mem_cons.mp hgroup with rfl | hgroup
      · exact hlone
      · exact h.dropped group (by simpa using hgroup)
    · exact ⟨by simp, .inr ⟨lone, hlone, rfl⟩⟩
  · exact ⟨h.kept, .inl rfl⟩

end Alternates

namespace ClauseGroups
open Clause

/-- What unions keep of a group, collapsing alternates keeps of each. -/
theorem forall_collapseAlternates {Q : List Clause → Prop} {g : ClauseGroups}
    (hQ : ∀ {x y merged : List Clause}, union? x y = some merged → Q x → Q merged)
    (h : ∀ a ∈ g.alternates, Q a) :
    (∀ a ∈ g.collapseAlternates.value.alternates, Q a) ∧
      (g.collapseAlternates.value.core = g.core ∨
        ∃ lone, Q lone ∧ g.collapseAlternates.value = ⟨g.core ++ lone, []⟩) := by
  unfold collapseAlternates
  split
  · exact ⟨h, .inl rfl⟩
  · have hdistinct : (Alternates.ofDistinct g.alternates).Each Q := .ofDistinct h
    have hunited : (Alternates.ofDistinct g.alternates).unite.value.Each Q :=
      Logged.exhaust_keeps (fun _ _ _ hstep => Alternates.Each.uniteStep hQ hstep) _ _ hdistinct
    exact hunited.dropImpossible.keepBesideTrue.settle g.core

theorem All.collapseAlternates {P : Clause → Prop} (hP : Closed P) {g : ClauseGroups}
    (h : g.All P) : g.collapseAlternates.value.All P := by
  obtain ⟨hcore, halternates⟩ := all_iff.mp h
  obtain ⟨halternates', hcore'⟩ := forall_collapseAlternates (Q := fun a => ∀ c ∈ a, P c)
    (fun hunion ha => hP.union? ha hunion) halternates
  refine all_iff.mpr ⟨?_, halternates'⟩
  rcases hcore' with heq | ⟨lone, hlone, heq⟩
  · rw [heq]
    exact hcore
  · rw [heq]
    exact List.forall_mem_append.mpr ⟨hcore, hlone⟩

theorem trigger_mergeDuplicateAlternates (t : Trigger) :
    (mergeDuplicateAlternates.run t).trigger =
      (ofTrigger t).collapseAlternates.value.toTrigger := rfl

end ClauseGroups

end MemoryTrigger

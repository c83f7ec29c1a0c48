import MemoryTrigger.Proofs.Simplify.Rank
import MemoryTrigger.Proofs.Simplify.TrueCore
import Mathlib.Data.List.Flatten

/-! # Settling a group once is enough

The first pass writes every row in its plainest form, which is final (`Row.normalize_normalize`), and
leaves links and clauses out, which makes the group lighter.  Only one thing that it does keeps the
weight: a filter that never holds becomes `0=1` and moves behind the guards.  So a group that was
settled without getting lighter has nothing left to settle (`Row.settledRows_settledRows`), and a
group that comes out as it went in was not touched by any step (`Row.normalizeGroup_changed`). -/
namespace MemoryTrigger

/-! ## Plainest forms -/

theorem RangeTest.ofBit_ofRange_of_eq {max value value' : UInt32} {relation relation' : Relation}
    (h : ofBit max (ofRange max relation value) = compare relation' value') :
    ofBit max (ofRange max relation' value') = compare relation' value' := by
  cases relation <;> simp only [ofRange] at h <;> (repeat' split at h) <;>
    simp only [ofBit, reduceCtorEq] at h
  all_goals (try split at h)
  all_goals
    cases h
    simp only [ofRange, ofBit]
    grind [ofBit]

namespace Row

theorem literalRight_literalRight (r : Row) : r.literalRight.literalRight = r.literalRight := by
  by_cases h : (r.left.isLiteral && !r.right.isLiteral) = true
  · obtain ⟨hleft, hright⟩ : r.left.isLiteral = true ∧ r.right.isLiteral = false := by
      simpa using h
    simp [literalRight, hleft, hright]
  · have hsame : r.literalRight = r := if_neg h
    rw [hsame, hsame]

theorem normalize_withTruth (r : Row) (truth : Bool) :
    (r.withTruth truth).normalize = r.withTruth truth := by
  cases truth <;> rfl

/-- What the plainest form of a row can be: the row itself where it does not compare, a settled row,
an open comparison with its literal on the right, or a comparison that fits the range of its read. -/
theorem normalize_induction {P : Row → Prop} (r : Row) (hother : r.isComparison = false → P r)
    (htruth : ∀ truth, P (r.literalRight.withTruth truth))
    (hopen : r.isComparison = true → r.literalRight.evaluate? = none →
      (r.literalRight.left.isMemory && r.literalRight.right.isLiteral) = false →
        P r.literalRight)
    (hrange : ∀ relation relation' value, r.literalRight.left.isMemory = true →
      r.literalRight.right.isLiteral = true →
      RangeTest.ofBit r.literalRight.left.maxValue
        (.ofRange r.literalRight.left.maxValue relation r.literalRight.right.value) =
          .compare relation' value →
      P { r.literalRight with
        operator := .compare relation', right := { r.literalRight.right with value } }) :
    P r.normalize := by
  unfold normalize
  split
  · rename_i h
    exact hother (by simpa using h)
  rename_i h
  have hcompares : r.isComparison = true := by simpa using h
  simp only
  split
  · exact htruth _
  rename_i hevaluate
  split
  · split
    · rename_i hsides
      obtain ⟨hleft, hright⟩ := Bool.and_eq_true_iff.mp hsides
      split
      · exact htruth _
      · rename_i heq
        exact hrange _ _ _ hleft hright heq
    · rename_i hsides
      exact hopen hcompares hevaluate (by simpa using hsides)
  · rename_i hoperator
    rw [← isComparison_literalRight] at hcompares
    cases hop : r.literalRight.operator with
    | compare relation => exact absurd hop (hoperator relation)
    | absent => simp [isComparison, hop, Operator.isComparison] at hcompares
    | arith => simp [isComparison, hop, Operator.isComparison] at hcompares

/-- A comparison that is open and fits its range is in its plainest form. -/
theorem normalize_eq_self {r : Row} (hright : r.literalRight = r) (hevaluate : r.evaluate? = none)
    (hrange : ∀ relation, r.operator = .compare relation →
      (r.left.isMemory && r.right.isLiteral) = true →
        RangeTest.ofBit r.left.maxValue (.ofRange r.left.maxValue relation r.right.value) =
          .compare relation r.right.value) : r.normalize = r := by
  unfold normalize
  split
  · rfl
  simp only [hright, hevaluate]
  split
  · rename_i relation hoperator
    split
    · rename_i hsides
      simp only [hrange relation hoperator hsides, ← hoperator]
    · rfl
  · rfl

/-- **The plainest form of a row is final.** -/
theorem normalize_normalize (r : Row) : r.normalize.normalize = r.normalize := by
  refine normalize_induction (P := fun s => s.normalize = s) r ?_ ?_ ?_ ?_
  · intro hother
    rw [normalize, if_pos (by simp [hother])]
  · exact normalize_withTruth r.literalRight
  · intro _ hevaluate hsides
    refine normalize_eq_self r.literalRight_literalRight hevaluate fun _ _ hboth => ?_
    rw [hsides] at hboth
    cases hboth
  · intro relation relation' value hleft hright heq
    have hmemory : r.literalRight.left.isLiteral = false := by
      revert hleft
      cases hkind : r.literalRight.left.kind <;>
        simp [Operand.isMemory, Operand.isLiteral, hkind]
    have hliteral : ({ r.literalRight.right with value } : Operand).isLiteral = true := hright
    refine normalize_eq_self ?_ ?_ ?_
    · simp [literalRight.eq_1 { r.literalRight with operator := _, right := _ }, hmemory]
    · have hne : r.literalRight.left ≠ { r.literalRight.right with value } := by
        intro hsame
        rw [hsame, hliteral] at hmemory
        cases hmemory
      simp [evaluate?, hmemory, hne]
    · rintro relation'' hoperator -
      cases hoperator
      exact RangeTest.ofBit_ofRange_of_eq heq

/-! ## Rows of a group -/

theorem normalizeRows_of_forallFree {afterModifier : Bool} {rows : List Row}
    (h : ForallFree (fun r => r.normalize = r) afterModifier rows) :
    (normalizeRows afterModifier rows).value = rows := by
  induction rows generalizing afterModifier with
  | nil => rfl
  | cons r rest ih =>
    have hr : r.settled afterModifier = r := by
      unfold settled
      split
      · rename_i hfree
        exact h.1 hfree
      · rfl
    rw [value_normalizeRows_cons, hr, ih h.2]

/-- A row in its plainest form weighs no more than before, because `1=1` stays. -/
theorem weigh_settled_le (afterModifier : Bool) (r : Row) :
    weigh [r.settled afterModifier] ≤ weigh [r] := by
  by_cases h : r = alwaysTrue
  · have hsame : alwaysTrue.settled afterModifier = alwaysTrue := by cases afterModifier <;> rfl
    rw [h, hsame]
  · rw [weigh_singleton_of_ne h]
    exact weigh_le _

theorem weigh_normalizeRows_le (afterModifier : Bool) (rows : List Row) :
    weigh (normalizeRows afterModifier rows).value ≤ weigh rows := by
  induction rows generalizing afterModifier with
  | nil => exact Nat.le_refl _
  | cons r rest ih =>
    rw [value_normalizeRows_cons, weigh_cons, weigh_cons r]
    exact Nat.add_le_add (weigh_settled_le afterModifier r) (ih _)

theorem countGuards_normalizeRows (afterModifier : Bool) (rows : List Row) :
    countGuards (normalizeRows afterModifier rows).value = countGuards rows := by
  induction rows generalizing afterModifier with
  | nil => rfl
  | cons r rest ih =>
    have hrest := ih r.role.isModifier
    simp only [countGuards] at hrest ⊢
    rw [value_normalizeRows_cons, List.countP_cons, List.countP_cons, hrest, role_settled]

theorem sublist_removeIdentityLinks (previous : Option Row) (rows : List Row) :
    (removeIdentityLinks previous rows).value.Sublist rows := by
  induction rows generalizing previous with
  | nil => exact .slnil
  | cons r rest ih =>
    rw [removeIdentityLinks]
    split
    · exact (ih previous).cons r
    · exact (ih (some r)).cons_cons r

/-- Behind a terminal row a chain starts as at the front of the group. -/
theorem removeIdentityLinks_of_terminal {p : Row} (h : p.role.isCombining = false)
    (rows : List Row) : removeIdentityLinks (some p) rows = removeIdentityLinks none rows := by
  have hdroppable (r : Row) : linkIsDroppable (some p) r = linkIsDroppable none r := by
    revert h
    cases hrole : p.role <;> simp [linkIsDroppable, Role.isCombining, hrole]
  induction rows with
  | nil => rfl
  | cons r rest ih =>
    rw [removeIdentityLinks, removeIdentityLinks, hdroppable, ih]

theorem isIdentityLink_of_not_combining {r : Row} (h : r.role.isCombining = false) :
    r.isIdentityLink = false := by
  revert h
  cases hrole : r.role <;> simp [isIdentityLink, Role.isCombining, hrole]

theorem value_removeIdentityLinks_append {terminal : Row} (h : terminal.role.isCombining = false)
    (lead rest : List Row) (previous : Option Row) :
    (removeIdentityLinks previous (lead ++ terminal :: rest)).value =
      (removeIdentityLinks previous (lead ++ [terminal])).value ++
        (removeIdentityLinks none rest).value := by
  induction lead generalizing previous with
  | nil =>
    have hlink := isIdentityLink_of_not_combining h
    simp [removeIdentityLinks, hlink, removeIdentityLinks_of_terminal h]
  | cons r lead ih =>
    rw [List.cons_append, List.cons_append, removeIdentityLinks, removeIdentityLinks]
    split
    · exact ih previous
    · simp only [Logged.value_bind, Logged.value_pure, List.cons_append, ih (some r)]

/-- Where parts are left out of lists and none is missed in the end, none was left out. -/
theorem eq_of_flatMap_eq {f g : Clause → List Row} (hsub : ∀ c, (f c).Sublist (g c))
    {cs : List Clause} (h : cs.flatMap f = cs.flatMap g) : ∀ c ∈ cs, f c = g c := by
  induction cs with
  | nil => exact List.forall_mem_nil _
  | cons c cs ih =>
    rw [List.flatMap_cons, List.flatMap_cons] at h
    have hfirst := (hsub c).length_le
    have hrest := (List.Sublist.flatMap_right cs fun d _ => hsub d).length_le
    have htotal := congrArg List.length h
    rw [List.length_append, List.length_append] at htotal
    obtain ⟨hc, hcs⟩ := List.append_inj h (by omega)
    exact List.forall_mem_cons.mpr ⟨hc, ih hcs⟩

/-- **Links are left out clause by clause** where all clauses end in terminal rows. -/
theorem value_removeIdentityLinks_join {cs : List Clause} (h : ∀ c ∈ cs, c.IsTerminated) :
    (removeIdentityLinks none (Clause.join cs)).value =
      cs.flatMap fun c => (removeIdentityLinks none c.rows).value := by
  induction cs with
  | nil => rfl
  | cons c cs ih =>
    obtain ⟨hc, hcs⟩ := List.forall_mem_cons.mp h
    rw [List.flatMap_cons, ← ih hcs, Clause.join_cons, Clause.rows, List.append_assoc,
      List.singleton_append, value_removeIdentityLinks_append hc.terminal]

end Row

/-! ## Clauses of a group -/

namespace Clause
open Row

theorem join_append (xs ys : List Clause) : join (xs ++ ys) = join xs ++ join ys :=
  List.flatMap_append

theorem perm_join {xs ys : List Clause} (h : xs.Perm ys) : (join xs).Perm (join ys) :=
  h.flatMap_right rows

theorem weigh_rows_pos (c : Clause) : 0 < weigh c.rows := by
  refine Nat.lt_of_lt_of_le ?_ (length_le_weigh c.rows)
  simp [rows]

/-- Leaving clauses out makes a group lighter. -/
theorem eq_or_weigh_join_lt_of_sublist {xs ys : List Clause} (h : xs.Sublist ys) :
    xs = ys ∨ weigh (join xs) < weigh (join ys) := by
  induction h with
  | slnil => exact .inl rfl
  | @cons xs ys c h ih =>
    have hpos := c.weigh_rows_pos
    have hle : weigh (join xs) ≤ weigh (join ys) := by
      rcases ih with rfl | hlt
      · exact Nat.le_refl _
      · exact Nat.le_of_lt hlt
    rw [join_cons, weigh_append]
    omega
  | @cons_cons xs ys c h ih =>
    rw [join_cons, join_cons, weigh_append, weigh_append]
    rcases ih with rfl | hlt
    · exact .inl rfl
    · exact .inr (Nat.add_lt_add_left hlt _)

theorem weigh_join_le_of_sublist {xs ys : List Clause} (h : xs.Sublist ys) :
    weigh (join xs) ≤ weigh (join ys) := by
  rcases eq_or_weigh_join_lt_of_sublist h with rfl | hlt
  · exact Nat.le_refl _
  · exact Nat.le_of_lt hlt

/-- The clauses with a property and those without it weigh together what the group does. -/
theorem weigh_join_filter (p : Clause → Bool) (group : List Clause) :
    weigh (join (group.filter p)) + weigh (join (group.filter fun c => !p c)) =
      weigh (join group) := by
  rw [← weigh_append, ← join_append]
  exact weigh_perm (perm_join (List.filter_append_perm p group))

theorem weigh_of_neverHolds {c : Clause} (h : c.neverHolds = true) :
    c.role = .plain ∧ weigh c.rows = 3 := by
  obtain ⟨hrole, hconstant⟩ : c.role = .plain ∧ c.constant? = some false := by
    simpa [neverHolds] using h
  obtain ⟨hlead, hevaluate⟩ := constant?_eq_some.mp hconstant
  refine ⟨hrole, ?_⟩
  rw [rows, hlead, List.nil_append]
  refine weigh_singleton_of_ne fun htrue => ?_
  rw [htrue] at hevaluate
  cases hevaluate

theorem sublist_dropFillers (settled : Bool) (group : List Clause) :
    (dropFillers settled group).Sublist group := by
  induction group generalizing settled with
  | nil => exact .slnil
  | cons c rest ih =>
    rw [dropFillers]
    split
    · split
      · exact (ih settled).cons c
      · exact (ih true).cons_cons c
    · exact (ih settled).cons_cons c

/-- Removing what is settled leaves clauses out, or it leaves of a group that never holds the guards
and puts `0=1` behind them. -/
theorem foldConstants_cases (group : List Clause) :
    (foldConstants group).Sublist group ∨
      ∃ c ∈ group, c.neverHolds = true ∧ foldConstants group =
        (group.filter fun c => !c.neverFires).filter isGuard ++ [single .alwaysFalse] := by
  unfold foldConstants
  simp only
  split
  · rename_i hany
    obtain ⟨c, hc, hnever⟩ := List.any_eq_true.mp hany
    exact .inr ⟨c, (List.mem_filter.mp hc).1, hnever, rfl⟩
  · exact .inl ((sublist_dropFillers _ _).trans List.filter_sublist)

theorem weigh_alwaysFalse : weigh (join [single .alwaysFalse]) = 3 := rfl

/-- What does not hold in a group goes, and so does all else that is no guard. -/
theorem weigh_guards_add_le {group : List Clause} {c : Clause} (hc : c ∈ group)
    (h : c.neverHolds = true) :
    weigh (join ((group.filter fun c => !c.neverFires).filter isGuard)) + 3 +
      weigh (join ((group.filter fun c => !c.isGuard).erase c)) ≤ weigh (join group) := by
  obtain ⟨hrole, hweight⟩ := weigh_of_neverHolds h
  have hmem : c ∈ group.filter fun c => !c.isGuard :=
    List.mem_filter.mpr ⟨hc, by simp [isGuard, hrole, Role.isGuard]⟩
  have hothers := weigh_perm (perm_join (List.perm_cons_erase hmem))
  have hguards : weigh (join ((group.filter fun c => !c.neverFires).filter isGuard)) ≤
      weigh (join (group.filter isGuard)) :=
    weigh_join_le_of_sublist (List.filter_sublist.filter isGuard)
  have hsum := weigh_join_filter isGuard group
  rw [join_cons, weigh_append, hweight] at hothers
  omega

theorem weigh_foldConstants_le (group : List Clause) :
    weigh (join (foldConstants group)) ≤ weigh (join group) := by
  rcases foldConstants_cases group with hsub | ⟨c, hc, hnever, heq⟩
  · exact weigh_join_le_of_sublist hsub
  · have hle := weigh_guards_add_le hc hnever
    rw [heq, join_append, weigh_append]
    rw [weigh_alwaysFalse]
    omega

theorem countGuards_foldConstants_le (group : List Clause) :
    countGuards (join (foldConstants group)) ≤ countGuards (join group) := by
  rcases foldConstants_cases group with hsub | ⟨c, -, -, heq⟩
  · exact countGuards_le_of_sublist (hsub.flatMap rows)
  · rw [heq, join_append, countGuards_append]
    exact countGuards_le_of_sublist
      ((List.filter_sublist.trans List.filter_sublist).flatMap rows)

/-- In a group that never holds and got no lighter, all clauses but one are guards. -/
theorem isTerminated_of_weigh_eq {group : List Clause} {c : Clause}
    (hlead : ∀ d ∈ group, ∀ r ∈ d.lead, r.role.isCombining = true) (hc : c ∈ group)
    (h : c.neverHolds = true)
    (hweight : weigh (join ((group.filter fun c => !c.neverFires).filter isGuard)) + 3 =
      weigh (join group)) : ∀ d ∈ group, d.IsTerminated := by
  have hle := weigh_guards_add_le hc h
  have hnone : (group.filter fun c => !c.isGuard).erase c = [] := by
    refine join_eq_nil.mp (List.length_eq_zero_iff.mp ?_)
    have := length_le_weigh (join ((group.filter fun c => !c.isGuard).erase c))
    omega
  intro d hd
  refine ⟨hlead d hd, ?_⟩
  change d.role.isCombining = false
  cases hguard : d.isGuard with
  | true =>
    revert hguard
    rw [isGuard]
    cases d.role <;> simp [Role.isGuard, Role.isCombining]
  | false =>
    -- a clause beside the one that does not hold would be left in the list that is empty
    have hmem : d ∈ group.filter fun c => !c.isGuard :=
      List.mem_filter.mpr ⟨hd, by simp [hguard]⟩
    obtain rfl : d = c := by
      by_contra hne
      have hother := (List.mem_erase_of_ne hne).mpr hmem
      rw [hnone] at hother
      cases hother
    rw [(weigh_of_neverHolds h).1]
    rfl

/-- Guards in front of `0=1` are settled. -/
theorem foldConstants_guards (group : List Clause) :
    let guards := (group.filter fun c => !c.neverFires).filter isGuard
    foldConstants (guards ++ [single .alwaysFalse]) = guards ++ [single .alwaysFalse] := by
  intro guards
  have hguards : ∀ d ∈ guards, d.neverFires = false ∧ d.isGuard = true := by
    intro d hd
    obtain ⟨hd, hguard⟩ := List.mem_filter.mp hd
    exact ⟨by simpa using (List.mem_filter.mp hd).2, hguard⟩
  have hfires : (guards ++ [single .alwaysFalse]).filter (fun c => !c.neverFires) =
      guards ++ [single .alwaysFalse] := by
    refine List.filter_eq_self.mpr (List.forall_mem_append.mpr ⟨fun d hd => ?_, ?_⟩)
    · simp [(hguards d hd).1]
    · exact List.forall_mem_singleton.mpr rfl
  have hfilter : (guards ++ [single .alwaysFalse]).filter isGuard = guards := by
    have hself : guards.filter isGuard = guards :=
      List.filter_eq_self.mpr fun d hd => (hguards d hd).2
    rw [List.filter_append, hself]
    exact List.append_nil _
  have hany : (guards ++ [single .alwaysFalse]).any neverHolds = true := by
    rw [List.any_append]
    exact Bool.or_true _
  unfold foldConstants
  simp only
  rw [hfires, if_pos hany, hfilter]

end Clause

namespace Row
open Clause

/-! ## Settled groups -/

theorem forallFree_settledRows (rows : List Row) :
    ForallFree (fun r => r.normalize = r) false (settledRows rows) := by
  have hlinked := ForallFree.removeIdentityLinks none
    (ForallFree.normalizeRows (P := fun r => r.normalize = r) normalize_normalize false rows)
  refine ForallFree.join fun c hc => ?_
  rcases mem_foldConstants hc with rfl | ⟨hc, -⟩
  · exact ⟨fun _ => rfl, trivial⟩
  · exact hlinked.of_mem_split hc

theorem normalizeRows_settledRows (rows : List Row) :
    (normalizeRows false (settledRows rows)).value = settledRows rows :=
  normalizeRows_of_forallFree (forallFree_settledRows rows)

theorem weigh_settledRows_le (rows : List Row) :
    weigh (settledRows rows) ≤
      weigh (removeIdentityLinks none (normalizeRows false rows).value).value := by
  refine Nat.le_trans (weigh_foldConstants_le _) ?_
  rw [join_split]

theorem countGuards_settledRows_le (rows : List Row) :
    countGuards (settledRows rows) ≤ countGuards rows := by
  have hfold := countGuards_foldConstants_le
    (split (removeIdentityLinks none (normalizeRows false rows).value).value)
  rw [join_split] at hfold
  exact Nat.le_trans hfold (Nat.le_trans
    (countGuards_le_of_sublist (sublist_removeIdentityLinks none _))
    (Nat.le_of_eq (countGuards_normalizeRows false rows)))

/-- A group that did not get lighter lost no link. -/
theorem removeIdentityLinks_of_weigh_eq {rows : List Row}
    (h : weigh (settledRows rows) = weigh rows) :
    (removeIdentityLinks none (normalizeRows false rows).value).value =
      (normalizeRows false rows).value := by
  have hfold := weigh_settledRows_le rows
  have hrows := weigh_normalizeRows_le false rows
  rcases eq_or_weigh_lt_of_sublist (sublist_removeIdentityLinks none
    (normalizeRows false rows).value) with heq | hlt
  · exact heq
  · omega

/-- **A group that was settled without getting lighter has nothing left to settle.** -/
theorem settledRows_settledRows {rows : List Row} (h : weigh (settledRows rows) = weigh rows) :
    settledRows (settledRows rows) = settledRows rows := by
  have hlinked := removeIdentityLinks_of_weigh_eq h
  have hweight := weigh_normalizeRows_le false rows
  have hle := weigh_settledRows_le rows
  have hrows : settledRows rows =
      join (foldConstants (split (normalizeRows false rows).value)) := by
    rw [settledRows, ClauseGroups.settledClauses, hlinked]
  rw [hlinked] at hle
  generalize (normalizeRows false rows).value = normalized at hlinked hweight hle hrows
  have hgoal (hlinks : (removeIdentityLinks none (settledRows rows)).value = settledRows rows)
      (hfold : join (foldConstants (split (settledRows rows))) = settledRows rows) :
      settledRows (settledRows rows) = settledRows rows := by
    rw [settledRows, ClauseGroups.settledClauses, normalizeRows_settledRows, hlinks, hfold]
  rcases foldConstants_cases (split normalized) with hsub | ⟨c, hc, hnever, heq⟩
  · -- nothing was left out, so that the group only has its rows in plainest form
    have hsame : settledRows rows = normalized := by
      rcases eq_or_weigh_join_lt_of_sublist hsub with heq | hlt
      · rw [hrows, heq, join_split]
      · rw [← hrows, join_split] at hlt
        omega
    refine hgoal (by rw [hsame, hlinked]) ?_
    rw [hsame, ← hrows, hsame]
  · -- the group never holds: its guards are left, in front of `0=1`
    rw [heq] at hrows
    have hterminated := isTerminated_of_weigh_eq
      (fun d hd => combining_of_mem_split hd) hc hnever (by
        rw [hrows, join_append, weigh_append, weigh_alwaysFalse] at hle h
        rw [join_split]
        omega)
    have hguards : ∀ d ∈ ((split normalized).filter fun c => !c.neverFires).filter isGuard ++
        [single .alwaysFalse], d.IsTerminated ∧
          (removeIdentityLinks none d.rows).value = d.rows := by
      have hlinks : (split normalized).flatMap
          (fun d => (removeIdentityLinks none d.rows).value) = join (split normalized) := by
        rw [← value_removeIdentityLinks_join hterminated, join_split, hlinked]
      refine List.forall_mem_append.mpr ⟨fun d hd => ?_, List.forall_mem_singleton.mpr ?_⟩
      · have hd := (List.mem_filter.mp (List.mem_filter.mp hd).1).1
        exact ⟨hterminated d hd, eq_of_flatMap_eq
          (fun d => sublist_removeIdentityLinks none d.rows) hlinks d hd⟩
      · exact ⟨⟨fun _ hr => absurd hr List.not_mem_nil, rfl⟩, rfl⟩
    have hall := fun d hd => (hguards d hd).1
    refine hgoal ?_ ?_
    · rw [hrows, value_removeIdentityLinks_join hall]
      exact List.flatMap_congr fun d hd => (hguards d hd).2
    · rw [hrows, split_join hall, foldConstants_guards]

/-- Settling lowers a group that it changes, by whatever weight it does not raise. -/
theorem settledRows_eq_or_lower {weight : List Row → Nat} {rows : List Row}
    (hle : weight (settledRows rows) ≤ weight rows)
    (hsettled : weight (settledRows rows) = weight rows →
      settledRows (settledRows rows) = settledRows rows) :
    settledRows rows = rows ∨ Lower weight (settledRows rows) rows := by
  by_cases hsame : settledRows rows = rows
  · exact .inl hsame
  refine .inr ?_
  have hguards := countGuards_settledRows_le rows
  have hone : unsettled rows = 1 := if_neg hsame
  rcases Nat.lt_or_eq_of_le hle with hlt | heq
  · exact .inl hlt
  · have hzero : unsettled (settledRows rows) = 0 := if_pos (hsettled heq)
    simp only [Lower]
    omega

theorem settledRows_eq_or_lower_core (rows : List Row) :
    settledRows rows = rows ∨ Lower weigh (settledRows rows) rows := by
  refine settledRows_eq_or_lower ?_ settledRows_settledRows
  exact Nat.le_trans (weigh_settledRows_le rows) (Nat.le_trans
    (weigh_le_of_sublist (sublist_removeIdentityLinks none _)) (weigh_normalizeRows_le false rows))

theorem settledRows_eq_or_lower_alternate (rows : List Row) :
    settledRows rows = rows ∨ Lower weighAlternate (settledRows rows) rows := by
  by_cases hempty : settledRows rows = []
  · by_cases hrows : rows = []
    · exact .inl (hempty.trans hrows.symm)
    · refine settledRows_eq_or_lower ?_ fun _ => by rw [hempty]; rfl
      -- a group that is settled to nothing is more than `1=1`
      have hheavy : ¬ weigh rows ≤ 1 := by
        intro hle
        rw [eq_of_weigh_le_one hrows hle] at hempty
        cases hempty
      rw [weighAlternate_of_ne_nil hrows, hempty]
      change 2 ≤ weigh rows
      omega
  · have hrows : rows ≠ [] := by
      rintro rfl
      exact hempty rfl
    have hcore := settledRows_eq_or_lower_core rows
    simpa only [Lower, weighAlternate_of_ne_nil hempty, weighAlternate_of_ne_nil hrows] using hcore

/-- **A group that comes out as it went in was not touched by any step.** -/
theorem normalizeGroup_changed (rows : List Row) :
    (normalizeGroup rows).value.2 = true ↔ settledRows rows ≠ rows := by
  have hchanged : (normalizeGroup rows).value.2 =
      ((normalizeRows false rows).value != rows ||
        (removeIdentityLinks none (normalizeRows false rows).value).value !=
          (normalizeRows false rows).value ||
        settledRows rows != (removeIdentityLinks none (normalizeRows false rows).value).value) :=
    rfl
  rw [hchanged, Bool.or_eq_true, Bool.or_eq_true, bne_iff_ne, bne_iff_ne, bne_iff_ne]
  constructor
  · intro hsome hsame
    have hnormalized : (normalizeRows false rows).value = rows := by
      conv_lhs => rw [← hsame]
      rw [normalizeRows_settledRows, hsame]
    have hlinked := removeIdentityLinks_of_weigh_eq (congrArg weigh hsame)
    simp [hnormalized, hnormalized ▸ hlinked, hsame] at hsome
  · intro hne
    by_contra hnone
    simp only [ne_eq, not_or, Decidable.not_not] at hnone
    obtain ⟨⟨hnormalized, hlinked⟩, hfolded⟩ := hnone
    exact hne (hfolded.trans (hlinked.trans hnormalized))

end Row

/-! ## The first pass -/

namespace Trigger
open Row

theorem trigger_normalizeComparisons_rows (t : Trigger) :
    (normalizeComparisons.run t).trigger =
      ⟨settledRows t.core, t.alternates.map settledRows⟩ := by
  rw [ClauseGroups.trigger_normalizeComparisons, ClauseGroups.toTrigger, List.map_map]
  rfl

/-- **Settling comparisons lowers a trigger that it changes.** -/
theorem atMost_normalizeComparisons (t : Trigger) :
    AtMost (normalizeComparisons.run t).trigger t := by
  rw [trigger_normalizeComparisons_rows]
  have hgroups := atMost_of_groups (g := id) (settledRows_eq_or_lower_core t.core)
    fun a (_ : a ∈ t.alternates) => settledRows_eq_or_lower_alternate a
  rwa [List.map_id] at hgroups

theorem changed_normalizeComparisons (t : Trigger) :
    (normalizeComparisons.run t).changed = true ↔ (normalizeComparisons.run t).trigger ≠ t := by
  have hchanged : (normalizeComparisons.run t).changed =
      ((normalizeGroup t.core).value.2 ||
        t.alternates.any fun rows => (normalizeGroup rows).value.2) := by
    simp only [normalizeComparisons, Logged.value_each, List.any_map]
    rfl
  have hmap : t.alternates.map settledRows = t.alternates ↔
      ∀ rows ∈ t.alternates, settledRows rows = rows := by
    conv_lhs => rhs; rw [← List.map_id t.alternates]
    exact List.map_inj_left
  rw [hchanged, trigger_normalizeComparisons_rows, Bool.or_eq_true, List.any_eq_true]
  simp only [normalizeGroup_changed]
  constructor
  · rintro hsome heq
    obtain ⟨hcore, halternates⟩ := Trigger.mk.inj heq
    rcases hsome with hne | ⟨rows, hrows, hne⟩
    · exact hne hcore
    · exact hne (hmap.mp halternates rows hrows)
  · intro hne
    by_contra hnone
    simp only [ne_eq, not_or, not_exists, not_and, Decidable.not_not] at hnone
    obtain ⟨hcore, halternates⟩ := hnone
    exact hne (by rw [hcore, hmap.mpr halternates])

end Trigger
end MemoryTrigger

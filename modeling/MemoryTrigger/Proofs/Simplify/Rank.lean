import MemoryTrigger.Proofs.Simplify.Constants
import MemoryTrigger.Simplify.Disjunction
import Mathlib.Order.WellFounded

/-! # The rank of a trigger

The passes pull in different directions: one moves clauses from the alternates to the core, one fills
an alternate that has become empty, one turns guards into filters, one brings a dropped alternate
back.  What all of them lower is the rank of the trigger, whose places count in this order:

* the number of alternates;
* the weight of the rows, where `1=1` weighs less than any other row, and a row of an alternate
  weighs as much as two of the core, so that it gets lighter when it moves there;
* the number of rows that reset or pause;
* the number of groups that are not settled, and whether a group that never holds stands first.

`Trigger.Below` compares ranks.  A pass that rewrites a trigger group by group need only be studied
on one group (`Trigger.atMost_of_groups`). -/
namespace MemoryTrigger

/-! ## Sums over groups -/

/-- The sum of a measure over the elements of a list. -/
def total {α : Type} (measure : α → Nat) : List α → Nat
  | [] => 0
  | a :: rest => measure a + total measure rest

theorem total_map {α β : Type} (measure : β → Nat) (f : α → β) (xs : List α) :
    total measure (xs.map f) = total (fun a => measure (f a)) xs := by
  induction xs with
  | nil => rfl
  | cons a rest ih => rw [List.map_cons, total, total, ih]

/-- Where every element gains, the sum gains as often. -/
theorem total_add_le {α : Type} {measure measure' : α → Nat} {k : Nat} {xs : List α}
    (h : ∀ a ∈ xs, measure a + k ≤ measure' a) :
    total measure xs + xs.length * k ≤ total measure' xs := by
  induction xs with
  | nil => simp [total]
  | cons a rest ih =>
    obtain ⟨ha, hrest⟩ := List.forall_mem_cons.mp h
    have hsum := ih hrest
    rw [total, total, List.length_cons, Nat.add_mul]
    omega

/-- Where no element loses and one gains, the sum gains. -/
theorem total_lt {α : Type} {measure measure' : α → Nat} {xs : List α}
    (h : ∀ a ∈ xs, measure a ≤ measure' a) {a : α} (ha : a ∈ xs) (hlt : measure a < measure' a) :
    total measure xs < total measure' xs := by
  induction xs with
  | nil => cases ha
  | cons b rest ih =>
    obtain ⟨hb, hrest⟩ := List.forall_mem_cons.mp h
    have hsum := total_add_le (k := 0) (by simpa using hrest)
    rw [total, total]
    rcases List.mem_cons.mp ha with rfl | ha
    · omega
    · have := ih hrest ha
      omega

namespace Row

/-! ## The weight of a group -/

/-- The weight of rows: one for `1=1`, three for any other. -/
def weigh (rows : List Row) : Nat := rows.length + 2 * rows.countP (· != alwaysTrue)

theorem weigh_append (xs ys : List Row) : weigh (xs ++ ys) = weigh xs + weigh ys := by
  simp only [weigh, List.length_append, List.countP_append]
  omega

theorem weigh_cons (r : Row) (rest : List Row) : weigh (r :: rest) = weigh [r] + weigh rest :=
  weigh_append [r] rest

theorem length_le_weigh (rows : List Row) : rows.length ≤ weigh rows := Nat.le_add_right _ _

theorem weigh_le (rows : List Row) : weigh rows ≤ 3 * rows.length := by
  have hcount := rows.countP_le_length (p := (· != alwaysTrue))
  rw [weigh]
  omega

/-- Rows none of which is `1=1` have their full weight. -/
theorem weigh_of_forall_ne {rows : List Row} (h : ∀ r ∈ rows, r ≠ alwaysTrue) :
    weigh rows = 3 * rows.length := by
  have hcount : rows.countP (· != alwaysTrue) = rows.length :=
    List.countP_eq_length.mpr fun r hr => bne_iff_ne.mpr (h r hr)
  rw [weigh, hcount]
  omega

theorem weigh_singleton_of_ne {r : Row} (h : r ≠ alwaysTrue) : weigh [r] = 3 :=
  weigh_of_forall_ne (by simpa using h)

theorem weigh_perm {xs ys : List Row} (h : xs.Perm ys) : weigh xs = weigh ys := by
  rw [weigh, weigh, h.length_eq, h.countP_eq]

theorem weigh_le_of_sublist {xs ys : List Row} (h : xs.Sublist ys) : weigh xs ≤ weigh ys := by
  have hlength := h.length_le
  have hcount := h.countP_le (p := (· != alwaysTrue))
  simp only [weigh]
  omega

/-- Leaving rows out makes a group lighter. -/
theorem eq_or_weigh_lt_of_sublist {xs ys : List Row} (h : xs.Sublist ys) :
    xs = ys ∨ weigh xs < weigh ys := by
  rcases Nat.lt_or_ge xs.length ys.length with hlt | hge
  · have hcount := h.countP_le (p := (· != alwaysTrue))
    refine .inr ?_
    simp only [weigh]
    omega
  · exact .inl (h.eq_of_length_le hge)

/-- The only group of weight one is `1=1`. -/
theorem eq_of_weigh_le_one {rows : List Row} (hne : rows ≠ []) (h : weigh rows ≤ 1) :
    rows = [alwaysTrue] := by
  have hpos := List.length_pos_iff.mpr hne
  rw [weigh] at h
  obtain ⟨r, rfl⟩ := List.length_eq_one_iff.mp (show rows.length = 1 by omega)
  have hnone : [r].countP (· != alwaysTrue) = 0 := by omega
  have hr := List.countP_eq_zero.mp hnone r (List.mem_singleton_self r)
  simpa using hr

/-- The weight of an alternate.  One without rows is to be filled with `1=1`. -/
def weighAlternate (rows : List Row) : Nat := if rows = [] then 2 else weigh rows

theorem weighAlternate_of_ne_nil {rows : List Row} (h : rows ≠ []) :
    weighAlternate rows = weigh rows := if_neg h

/-- The number of rows that reset or pause. -/
def countGuards (rows : List Row) : Nat := rows.countP (·.role.isGuard)

theorem countGuards_append (xs ys : List Row) :
    countGuards (xs ++ ys) = countGuards xs + countGuards ys :=
  List.countP_append

theorem countGuards_le_of_sublist {xs ys : List Row} (h : xs.Sublist ys) :
    countGuards xs ≤ countGuards ys := h.countP_le

/-! ## Settled groups -/

/-- What the first pass makes of a group. -/
def settledRows (rows : List Row) : List Row := Clause.join (ClauseGroups.settledClauses rows)

/-- Whether the first pass still has something to do for a group. -/
def unsettled (rows : List Row) : Nat := if settledRows rows = rows then 0 else 1

/-! ## Comparing groups -/

/-- One group is lower than another by its weight, else by its guards, else because it is settled
and the other is not. -/
def Lower (weight : List Row → Nat) (a b : List Row) : Prop :=
  weight a < weight b ∨ weight a = weight b ∧
    (countGuards a < countGuards b ∨ countGuards a = countGuards b ∧ unsettled a < unsettled b)

/-- A group that is no heavier and has fewer guards is lower. -/
theorem Lower.of_countGuards {weight : List Row → Nat} {a b : List Row} (hle : weight a ≤ weight b)
    (h : countGuards a < countGuards b) : Lower weight a b := by
  simp only [Lower]
  omega

/-- A group that is lower as a core is lower as an alternate, as long as it has rows. -/
theorem eq_or_lower_alternate {a b : List Row} (hne : a = [] → b = [])
    (h : a = b ∨ Lower weigh a b) : a = b ∨ Lower weighAlternate a b := by
  by_cases ha : a = []
  · exact .inl (ha.trans (hne ha).symm)
  · rcases h with h | h
    · exact .inl h
    · have hb : b ≠ [] := by
        rintro rfl
        have hzero : unsettled [] = 0 := rfl
        simp [Lower, weigh, countGuards, hzero] at h
      simpa only [Lower, weighAlternate_of_ne_nil ha, weighAlternate_of_ne_nil hb] using .inr h

/-- Groups that are rewritten one by one stay as they are or are lower in sum. -/
theorem map_eq_or_total_lower {α : Type} {f g : α → List Row} {weight : List Row → Nat}
    {xs : List α} (h : ∀ x ∈ xs, f x = g x ∨ Lower weight (f x) (g x)) :
    xs.map f = xs.map g ∨
      total weight (xs.map f) < total weight (xs.map g) ∨
      total weight (xs.map f) = total weight (xs.map g) ∧
        (total countGuards (xs.map f) < total countGuards (xs.map g) ∨
          total countGuards (xs.map f) = total countGuards (xs.map g) ∧
            total unsettled (xs.map f) < total unsettled (xs.map g)) := by
  induction xs with
  | nil => exact .inl rfl
  | cons x rest ih =>
    obtain ⟨hx, hrest⟩ := List.forall_mem_cons.mp h
    simp only [List.map_cons, total]
    rcases ih hrest with heq | hlower
    · rcases hx with hx | hx
      · exact .inl (by rw [hx, heq])
      · rw [heq]
        simp only [Lower] at hx
        omega
    · rcases hx with hx | hx
      · rw [hx]
        omega
      · simp only [Lower] at hx
        omega

end Row

/-! ## Comparing triggers -/

namespace Trigger
open Row

def weight (t : Trigger) : Nat := weigh t.core + 2 * total weighAlternate t.alternates

def guards (t : Trigger) : Nat := countGuards t.core + total countGuards t.alternates

/-- Whether the first alternate is impossible and another one is not. -/
def startsImpossible (t : Trigger) : Bool :=
  match t.alternates with
  | [] => false
  | first :: rest =>
      Clause.isImpossible (Clause.split first) &&
        rest.any fun rows => !Clause.isImpossible (Clause.split rows)

/-- How much is left to settle and to put in order.  Settling a group may bring an impossible
alternate to the front, so that it counts twice. -/
def disorder (t : Trigger) : Nat :=
  2 * (unsettled t.core + total unsettled t.alternates) + if t.startsImpossible then 1 else 0

/-- **One trigger ranks below another.** -/
def Below (t' t : Trigger) : Prop :=
  t'.alternates.length < t.alternates.length ∨ t'.alternates.length = t.alternates.length ∧
    (t'.weight < t.weight ∨ t'.weight = t.weight ∧
      (t'.guards < t.guards ∨ t'.guards = t.guards ∧ t'.disorder < t.disorder))

theorem Below.trans {t t' t'' : Trigger} (h : Below t'' t') (h' : Below t' t) : Below t'' t := by
  simp only [Below] at h h' ⊢
  omega

theorem Below.length_le {t t' : Trigger} (h : Below t' t) :
    t'.alternates.length ≤ t.alternates.length := by
  simp only [Below] at h
  omega

theorem not_below_self (t : Trigger) : ¬ Below t t := by
  simp only [Below]
  omega

/-- **Nothing goes down for ever.** -/
theorem wellFounded_below : WellFounded Below := by
  let rank (t : Trigger) : Nat × Nat × Nat × Nat :=
    (t.alternates.length, t.weight, t.guards, t.disorder)
  have hlex : WellFounded (Prod.Lex (· < ·) (Prod.Lex (· < ·) (Prod.Lex (· < ·) (· < ·))) :
      Nat × Nat × Nat × Nat → Nat × Nat × Nat × Nat → Prop) :=
    WellFounded.prod_lex Nat.lt_wfRel.wf
      (WellFounded.prod_lex Nat.lt_wfRel.wf (WellFounded.prod_lex Nat.lt_wfRel.wf Nat.lt_wfRel.wf))
  refine Subrelation.wf ?_ (InvImage.wf rank hlex)
  intro t' t h
  simp only [InvImage, rank, Prod.lex_def]
  exact h

/-- One trigger is another or ranks below it. -/
def AtMost (t' t : Trigger) : Prop := t' = t ∨ Below t' t

theorem AtMost.refl (t : Trigger) : AtMost t t := .inl rfl

theorem AtMost.trans {t t' t'' : Trigger} (h : AtMost t'' t') (h' : AtMost t' t) :
    AtMost t'' t := by
  rcases h with rfl | h
  · exact h'
  · rcases h' with rfl | h'
    · exact .inr h
    · exact .inr (h.trans h')

theorem AtMost.length_le {t t' : Trigger} (h : AtMost t' t) :
    t'.alternates.length ≤ t.alternates.length := by
  rcases h with rfl | h
  · exact Nat.le_refl _
  · exact h.length_le

/-- **Rewriting groups one by one** leaves the trigger as it was or lowers it. -/
theorem atMost_of_groups {α : Type} {core core' : List Row} {f g : α → List Row} {xs : List α}
    (hcore : core' = core ∨ Lower weigh core' core)
    (halternates : ∀ x ∈ xs, f x = g x ∨ Lower weighAlternate (f x) (g x)) :
    AtMost ⟨core', xs.map f⟩ ⟨core, xs.map g⟩ := by
  have hlength : (xs.map f).length = (xs.map g).length := by simp
  have hflag (t : Trigger) : (if t.startsImpossible then 1 else 0) ≤ 1 := by split <;> simp
  have hflag' := hflag ⟨core', xs.map f⟩
  have hsum := map_eq_or_total_lower halternates
  rcases hcore with rfl | hcore
  · rcases hsum with hsum | hsum
    · exact .inl (by rw [hsum])
    · refine .inr (.inr ⟨hlength, ?_⟩)
      simp only [weight, guards, disorder]
      omega
  · refine .inr (.inr ⟨hlength, ?_⟩)
    simp only [Lower] at hcore
    simp only [weight, guards, disorder]
    rcases hsum with hsum | hsum
    · rw [hsum] at hflag' ⊢
      omega
    · omega

/-- Fewer rows in sum, counting those of the alternates twice, make a trigger rank below. -/
theorem below_of_weight {t' t : Trigger} (hlength : t'.alternates.length = t.alternates.length)
    (h : t'.weight < t.weight) : Below t' t := .inr ⟨hlength, .inl h⟩

end Trigger
end MemoryTrigger

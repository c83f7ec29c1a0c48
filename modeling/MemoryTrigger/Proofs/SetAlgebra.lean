import MemoryTrigger.Proofs.ValueSets

/-! # The algebra of value sets

The sets that the simplifier compares are made of the sets of comparisons up to one limit, which are
intersected and united in any order (`ValueSet.IsBuilt`).  Such a set keeps its ranges in normal
form up to that limit (`ValueSet.IsCanonical`).  So the operations do on the lists of ranges what
their names say of the members, equality of lists is equality of members, and reading off a
comparison fails only where there is none (`ValueSet.isExact_of_isBuilt`). -/
namespace MemoryTrigger

/-- Whether a bound says which values a set holds, among those up to its limit. -/
def Bound.Describes (b : Bound) (s : ValueSet) : Prop := ∀ x, x ∈ s ↔ x ≤ s.limit ∧ b.Allows x

/-- What a bound allows, one comparison allows. -/
theorem Bound.exists_comparison (b : Bound) :
    ∃ (relation : Relation) (value : UInt32), ∀ x,
      b.Allows x ↔ relation.holds x value.toNat = true := by
  cases b with
  | empty => exact ⟨.lt, 0, fun x => by simp [Allows, Relation.holds]⟩
  | full => exact ⟨.ge, 0, fun x => by simp [Allows, Relation.holds]⟩
  | compare relation value => exact ⟨relation, value, fun x => Iff.rfl⟩

namespace ValueSet

/-- The ranges of a set in normal form: within the limit, none of them empty, in rising order with a
gap between neighbours. -/
structure IsCanonical (limit : Nat) (s : ValueSet) : Prop where
  limit_eq : s.limit = limit
  separate : AreSeparate s.ranges
  high_le : ∀ r ∈ s.ranges, r.2 ≤ limit

theorem isCanonical_ofRanges (ranges : List (Nat × Nat)) (limit : Nat) :
    IsCanonical limit (ofRanges ranges limit) := by
  have hseparate := areSeparate_ofRanges ranges limit
  refine ⟨rfl, hseparate, fun r hr => ?_⟩
  have hmem : r.2 ∈ ofRanges ranges limit := ⟨r, hr, hseparate.1 r hr, Nat.le_refl _⟩
  exact ((mem_ofRanges ranges limit r.2).mp hmem).2

namespace IsCanonical
variable {limit : Nat} {s t : ValueSet}

theorem le_of_mem (hs : IsCanonical limit s) {x : Nat} (hx : x ∈ s) : x ≤ limit := by
  obtain ⟨r, hr, -, hhigh⟩ := hx
  exact Nat.le_trans hhigh (hs.high_le r hr)

theorem mem_intersect_iff (hs : IsCanonical limit s) (ht : IsCanonical limit t) (x : Nat) :
    x ∈ s.intersect t ↔ x ∈ s ∧ x ∈ t := by
  rw [mem_intersect, hs.limit_eq, ht.limit_eq, Nat.min_self]
  exact and_iff_left_of_imp fun h => hs.le_of_mem h.1

theorem mem_union_iff (hs : IsCanonical limit s) (ht : IsCanonical limit t) (x : Nat) :
    x ∈ s.union t ↔ x ∈ s ∨ x ∈ t := by
  rw [mem_union, hs.limit_eq, ht.limit_eq, Nat.max_self]
  exact and_iff_left_of_imp fun h => h.elim hs.le_of_mem ht.le_of_mem

/-- **Two sets in normal form are the same lists exactly where they have the same members.** -/
theorem eq_iff (hs : IsCanonical limit s) (ht : IsCanonical limit t) :
    s = t ↔ ∀ x, x ∈ s ↔ x ∈ t := by
  constructor
  · rintro rfl x
    exact Iff.rfl
  · exact eq_of_mem_iff hs.separate ht.separate (hs.limit_eq.trans ht.limit_eq.symm)

theorem isSubset_iff_forall_mem (hs : IsCanonical limit s) (ht : IsCanonical limit t) :
    s.isSubset t = true ↔ ∀ x ∈ s, x ∈ t :=
  isSubset_iff hs.separate (hs.limit_eq.trans ht.limit_eq.symm) fun _ hx =>
    hs.limit_eq ▸ hs.le_of_mem hx

theorem describes_of_bound? (hs : IsCanonical limit s) {b : Bound} (h : s.bound? = some b) :
    b.Describes s := by
  intro x
  constructor
  · intro hx
    have hle : x ≤ s.limit := hs.limit_eq ▸ hs.le_of_mem hx
    exact ⟨hle, (mem_iff_of_bound? h hle).mp hx⟩
  · rintro ⟨hle, hallows⟩
    exact (mem_iff_of_bound? h hle).mpr hallows

/-- **A bound can be read off a set in normal form exactly where one describes it.**  A set that a
bound describes is the set of a comparison, range by range. -/
theorem bound?_eq_none_iff (hs : IsCanonical limit s) (hlimit : limit < UInt32.size) :
    s.bound? = none ↔ ∀ b : Bound, ¬ b.Describes s := by
  constructor
  · intro hnone b hdescribes
    obtain ⟨relation, value, hallows⟩ := b.exists_comparison
    have hsame : s = ofComparison relation value limit := by
      refine (hs.eq_iff (isCanonical_ofRanges _ limit)).mpr fun x => ?_
      rw [hdescribes x, hs.limit_eq, hallows x]
      exact (mem_ofComparison relation value limit x).symm
    obtain ⟨found, hfound⟩ := exists_bound?_ofComparison relation value hlimit
    rw [← hsame, hnone] at hfound
    cases hfound
  · intro hall
    cases hbound : s.bound? with
    | none => rfl
    | some b => exact absurd (hs.describes_of_bound? hbound) (hall b)

end IsCanonical

/-- Sets made of comparisons up to one limit. -/
inductive IsBuilt (limit : Nat) : ValueSet → Prop
  | ofComparison (relation : Relation) (value : UInt32) :
      IsBuilt limit (.ofComparison relation value limit)
  | intersect {s t : ValueSet} (hs : IsBuilt limit s) (ht : IsBuilt limit t) :
      IsBuilt limit (s.intersect t)
  | union {s t : ValueSet} (hs : IsBuilt limit s) (ht : IsBuilt limit t) :
      IsBuilt limit (s.union t)

theorem IsBuilt.isCanonical {limit : Nat} {s : ValueSet} (h : IsBuilt limit s) :
    IsCanonical limit s := by
  induction h with
  | ofComparison relation value => exact isCanonical_ofRanges _ limit
  | @intersect s t _ _ hs ht =>
    have hlimit : min s.limit t.limit = limit := by rw [hs.limit_eq, ht.limit_eq, Nat.min_self]
    exact hlimit ▸ isCanonical_ofRanges _ (min s.limit t.limit)
  | @union s t _ _ hs ht =>
    have hlimit : max s.limit t.limit = limit := by rw [hs.limit_eq, ht.limit_eq, Nat.max_self]
    exact hlimit ▸ isCanonical_ofRanges _ (max s.limit t.limit)

/-- **The algebra of value sets is exact and canonical.**  For sets made of comparisons up to a
limit of 32 bits:

* a comparison holds the values up to the limit that pass it, and the operations intersect and unite
  the members;
* the ranges are in normal form, so that sets with the same members are the same lists, and subsets
  are found from the lists;
* a bound that is read off a set describes it, and none is read off only where none does. -/
theorem isExact_of_isBuilt {limit : Nat} (hlimit : limit < UInt32.size) {s t : ValueSet}
    (hs : IsBuilt limit s) (ht : IsBuilt limit t) :
    (∀ (relation : Relation) (value : UInt32) (x : Nat),
      x ∈ ofComparison relation value limit ↔ x ≤ limit ∧ relation.holds x value.toNat = true) ∧
    (∀ x, x ∈ s.intersect t ↔ x ∈ s ∧ x ∈ t) ∧
    (∀ x, x ∈ s.union t ↔ x ∈ s ∨ x ∈ t) ∧
    IsCanonical limit s ∧
    (s = t ↔ ∀ x, x ∈ s ↔ x ∈ t) ∧
    (s.isSubset t = true ↔ ∀ x ∈ s, x ∈ t) ∧
    (∀ b, s.bound? = some b → b.Describes s) ∧
    (s.bound? = none ↔ ∀ b : Bound, ¬ b.Describes s) := by
  have hs' := hs.isCanonical
  have ht' := ht.isCanonical
  refine ⟨fun relation value => mem_ofComparison relation value limit, hs'.mem_intersect_iff ht',
    hs'.mem_union_iff ht', hs', hs'.eq_iff ht', hs'.isSubset_iff_forall_mem ht', ?_, ?_⟩
  · exact fun b => hs'.describes_of_bound?
  · exact hs'.bound?_eq_none_iff hlimit

/-- The values of a byte on either side of a point are those that differ from it; two points have no
bound. -/
theorem isExact_of_isBuilt_byte :
    let around := (ofComparison .lt 2 255).union (ofComparison .gt 2 255)
    let points := (ofComparison .eq 2 255).union (ofComparison .eq 7 255)
    255 < UInt32.size ∧ IsBuilt 255 around ∧ IsBuilt 255 points ∧
      around.bound? = some (.compare .ne 2) ∧ (Bound.compare .ne 2).Describes around ∧
      points.bound? = none ∧ ∀ b : Bound, ¬ b.Describes points := by
  intro around points
  have haround : IsBuilt 255 around := .union (.ofComparison .lt 2) (.ofComparison .gt 2)
  have hpoints : IsBuilt 255 points := .union (.ofComparison .eq 2) (.ofComparison .eq 7)
  have hbound : around.bound? = some (.compare .ne 2) := by decide
  have hnone : points.bound? = none := by decide
  obtain ⟨-, -, -, -, -, -, hdescribes, -⟩ := isExact_of_isBuilt (by decide) haround hpoints
  obtain ⟨-, -, -, -, -, -, -, hnone_iff⟩ := isExact_of_isBuilt (by decide) hpoints haround
  exact ⟨by decide, haround, hpoints, hbound, hdescribes _ hbound, hnone, hnone_iff.mp hnone⟩

end ValueSet
end MemoryTrigger

import MemoryTrigger.ValueSet
import Mathlib.Data.List.Basic

/-! # What value sets contain

A value set is read through its members: `x ∈ s` when one of the ranges of `s` covers `x`.  The
members of a comparison's set are the values in `[0, limit]` that pass the comparison
(`ValueSet.mem_ofComparison`), intersecting and uniting sets intersects and unites their members
(`mem_intersect`, `mem_union`), and a bound that is read off a set describes its members
(`mem_iff_of_bound?`), which is possible for the set of every comparison
(`exists_bound?_ofComparison`).  Every step of the simplifier that replaces clauses by their value
sets rests on these facts and on nothing else about ranges.  Ranges are kept apart and in order, so
that a set is determined by its members (`eq_of_mem_iff`), and so that it does not matter whether
ranges are inserted one by one or sorted and merged in one pass (`mergeRanges_eq_ofRanges`). -/
namespace MemoryTrigger
namespace ValueSet

/-- Whether one of the ranges covers the value. -/
def Covers (ranges : List (Nat × Nat)) (x : Nat) : Prop := ∃ r ∈ ranges, r.1 ≤ x ∧ x ≤ r.2

instance : Membership Nat ValueSet := ⟨fun s x => Covers s.ranges x⟩

theorem mem_def {s : ValueSet} {x : Nat} : x ∈ s ↔ ∃ r ∈ s.ranges, r.1 ≤ x ∧ x ≤ r.2 := Iff.rfl

@[simp] theorem covers_nil (x : Nat) : ¬ Covers [] x := by simp [Covers]

@[simp] theorem covers_cons (r : Nat × Nat) (ranges : List (Nat × Nat)) (x : Nat) :
    Covers (r :: ranges) x ↔ (r.1 ≤ x ∧ x ≤ r.2) ∨ Covers ranges x := by
  simp [Covers]

@[simp] theorem covers_append (rs ts : List (Nat × Nat)) (x : Nat) :
    Covers (rs ++ ts) x ↔ Covers rs x ∨ Covers ts x := by
  simp [Covers, or_and_right, exists_or]

/-! ## Bringing ranges into normal form -/

/-- Inserting a range keeps every range non-empty. -/
theorem insertRange_nonempty (r : Nat × Nat) (ranges : List (Nat × Nat)) (hr : r.1 ≤ r.2)
    (h : ∀ s ∈ ranges, s.1 ≤ s.2) : ∀ s ∈ insertRange r ranges, s.1 ≤ s.2 := by
  fun_induction insertRange r ranges with
  | case1 r => simpa using hr
  | case2 low high a b rest _ => simpa using ⟨hr, by simpa using h⟩
  | case3 low high a b rest _ _ ih =>
    have hrest : ∀ s ∈ rest, s.1 ≤ s.2 := fun s hs => h s (List.mem_cons_of_mem _ hs)
    intro s hs
    rcases List.mem_cons.mp hs with rfl | hs
    · exact h _ List.mem_cons_self
    · exact ih hr hrest s hs
  | case4 low high a b rest _ _ ih =>
    have hab : a ≤ b := h (a, b) List.mem_cons_self
    have hlow : low ≤ high := hr
    exact ih (by simp only; omega) fun s hs => h s (List.mem_cons_of_mem _ hs)

/-- Inserting a range adds exactly its values: ranges that touch cover together what the range from
the lower end to the upper end covers. -/
theorem covers_insertRange (r : Nat × Nat) (ranges : List (Nat × Nat)) (hr : r.1 ≤ r.2)
    (h : ∀ s ∈ ranges, s.1 ≤ s.2) (x : Nat) :
    Covers (insertRange r ranges) x ↔ (r.1 ≤ x ∧ x ≤ r.2) ∨ Covers ranges x := by
  fun_induction insertRange r ranges with
  | case1 r => simp
  | case2 low high a b rest _ => simp
  | case3 low high a b rest _ _ ih =>
    have hrest : ∀ s ∈ rest, s.1 ≤ s.2 := fun s hs => h s (List.mem_cons_of_mem _ hs)
    rw [covers_cons, covers_cons, ih hr hrest]
    exact or_left_comm
  | case4 low high a b rest hleft hright ih =>
    have hrest : ∀ s ∈ rest, s.1 ≤ s.2 := fun s hs => h s (List.mem_cons_of_mem _ hs)
    have hab : a ≤ b := h (a, b) List.mem_cons_self
    have hlow : low ≤ high := hr
    have hjoin : (min low a ≤ x ∧ x ≤ max high b) ↔ (low ≤ x ∧ x ≤ high) ∨ (a ≤ x ∧ x ≤ b) := by
      omega
    rw [covers_cons, ih (by simp only; omega) hrest, hjoin, or_assoc]

/-- Normalizing separate ranges changes no value. -/
theorem covers_foldr_insertRange (ranges : List (Nat × Nat)) (h : ∀ s ∈ ranges, s.1 ≤ s.2)
    (x : Nat) : Covers (ranges.foldr insertRange []) x ↔ Covers ranges x := by
  suffices hboth : (∀ s ∈ ranges.foldr insertRange [], s.1 ≤ s.2) ∧
      (Covers (ranges.foldr insertRange []) x ↔ Covers ranges x) from hboth.2
  induction ranges with
  | nil => simp
  | cons r rest ih =>
    have hr : r.1 ≤ r.2 := h r List.mem_cons_self
    obtain ⟨hvalid, hcovers⟩ := ih fun s hs => h s (List.mem_cons_of_mem _ hs)
    rw [List.foldr_cons]
    exact ⟨insertRange_nonempty r _ hr hvalid, by
      rw [covers_insertRange r _ hr hvalid, hcovers, covers_cons]⟩

theorem clip_eq_some {limit : Nat} {r s : Nat × Nat} :
    clip limit r = some s ↔ (r.1 ≤ r.2 ∧ r.1 ≤ limit) ∧ s = (r.1, min r.2 limit) := by
  unfold clip
  split
  · rename_i h
    simp [h, eq_comm]
  · rename_i h
    simp [h]

theorem nonempty_of_mem_clipped {ranges : List (Nat × Nat)} {limit : Nat} {s : Nat × Nat}
    (h : s ∈ ranges.filterMap (clip limit)) : s.1 ≤ s.2 := by
  obtain ⟨r, _, hclip⟩ := List.mem_filterMap.mp h
  obtain ⟨_, rfl⟩ := clip_eq_some.mp hclip
  simp only
  omega

theorem covers_clipped (ranges : List (Nat × Nat)) (limit x : Nat) :
    Covers (ranges.filterMap (clip limit)) x ↔ Covers ranges x ∧ x ≤ limit := by
  constructor
  · rintro ⟨s, hs, hlow, hhigh⟩
    obtain ⟨r, hr, hclip⟩ := List.mem_filterMap.mp hs
    obtain ⟨_, rfl⟩ := clip_eq_some.mp hclip
    exact ⟨⟨r, hr, hlow, by omega⟩, by omega⟩
  · rintro ⟨⟨r, hr, hlow, hhigh⟩, hx⟩
    refine ⟨(r.1, min r.2 limit), List.mem_filterMap.mpr ⟨r, hr, ?_⟩, hlow, by omega⟩
    exact clip_eq_some.mpr ⟨⟨by omega, by omega⟩, rfl⟩

/-- **The set of some ranges** holds the values that they cover up to the limit. -/
theorem mem_ofRanges (ranges : List (Nat × Nat)) (limit x : Nat) :
    x ∈ ofRanges ranges limit ↔ Covers ranges x ∧ x ≤ limit := by
  change Covers ((ranges.filterMap (clip limit)).foldr insertRange []) x ↔ _
  rw [covers_foldr_insertRange _ fun _ => nonempty_of_mem_clipped, covers_clipped]

/-! ## Members of the operations -/

/-- **The set of a comparison** holds the values in range that pass it. -/
theorem mem_ofComparison (relation : Relation) (value : UInt32) (limit x : Nat) :
    x ∈ ofComparison relation value limit ↔
      x ≤ limit ∧ relation.holds x value.toNat = true := by
  rw [ofComparison, mem_ofRanges]
  cases relation <;> simp only [rangesOf, Relation.holds, decide_eq_true_eq]
  case eq => simp; omega
  case ne => split <;> simp <;> omega
  case lt => split <;> simp <;> omega
  case le => simp; omega
  case gt => simp; omega
  case ge => simp; omega

theorem meet_eq_some {r s t : Nat × Nat} :
    meet r s = some t ↔ max r.1 s.1 ≤ min r.2 s.2 ∧ t = (max r.1 s.1, min r.2 s.2) := by
  unfold meet
  split
  · rename_i h
    simp only [h, true_and, Option.some.injEq]
    exact eq_comm
  · rename_i h
    simp [h]

theorem covers_meets (rs ts : List (Nat × Nat)) (x : Nat) :
    Covers (rs.flatMap fun r => ts.filterMap (meet r)) x ↔ Covers rs x ∧ Covers ts x := by
  constructor
  · rintro ⟨u, hu, hlow, hhigh⟩
    obtain ⟨r, hr, hu⟩ := List.mem_flatMap.mp hu
    obtain ⟨t, ht, hmeet⟩ := List.mem_filterMap.mp hu
    obtain ⟨_, rfl⟩ := meet_eq_some.mp hmeet
    simp only at hlow hhigh
    exact ⟨⟨r, hr, by omega, by omega⟩, ⟨t, ht, by omega, by omega⟩⟩
  · rintro ⟨⟨r, hr, hrx⟩, ⟨t, ht, htx⟩⟩
    refine ⟨(max r.1 t.1, min r.2 t.2), List.mem_flatMap.mpr ⟨r, hr, ?_⟩, by
      simp only
      omega, by
      simp only
      omega⟩
    exact List.mem_filterMap.mpr ⟨t, ht, meet_eq_some.mpr ⟨by omega, rfl⟩⟩

theorem mem_intersect (s t : ValueSet) (x : Nat) :
    x ∈ s.intersect t ↔ (x ∈ s ∧ x ∈ t) ∧ x ≤ min s.limit t.limit := by
  rw [intersect, mem_ofRanges, covers_meets]
  exact Iff.rfl

theorem mem_union (s t : ValueSet) (x : Nat) :
    x ∈ s.union t ↔ (x ∈ s ∨ x ∈ t) ∧ x ≤ max s.limit t.limit := by
  rw [union, mem_ofRanges, covers_append]
  exact Iff.rfl

/-- A subset holds no value that the larger set does not hold. -/
theorem mem_of_isSubset {s t : ValueSet} {x : Nat} (h : s.isSubset t = true) (hx : x ∈ s) :
    x ∈ t := by
  have heq : s.intersect t = s := by simpa [isSubset] using h
  rw [← heq, mem_intersect] at hx
  exact hx.1.2

/-! ## Sets with the same members -/

/-- Ranges in rising order, none of them empty, with a gap between neighbours. -/
def AreSeparate (ranges : List (Nat × Nat)) : Prop :=
  (∀ r ∈ ranges, r.1 ≤ r.2) ∧ ranges.Pairwise fun r s => r.2 + 1 < s.1

theorem areSeparate_cons {r : Nat × Nat} {ranges : List (Nat × Nat)} :
    AreSeparate (r :: ranges) ↔
      r.1 ≤ r.2 ∧ (∀ s ∈ ranges, r.2 + 1 < s.1) ∧ AreSeparate ranges := by
  simp only [AreSeparate, List.forall_mem_cons, List.pairwise_cons]
  exact ⟨fun ⟨⟨hr, hvalid⟩, habove, hgaps⟩ => ⟨hr, habove, hvalid, hgaps⟩,
    fun ⟨hr, habove, hvalid, hgaps⟩ => ⟨⟨hr, hvalid⟩, habove, hgaps⟩⟩

/-- Inserting a range above a value leaves everything above it. -/
theorem lt_of_mem_insertRange {x : Nat} (r : Nat × Nat) (ranges : List (Nat × Nat)) (hr : x < r.1)
    (h : ∀ s ∈ ranges, x < s.1) : ∀ s ∈ insertRange r ranges, x < s.1 := by
  fun_induction insertRange r ranges with
  | case1 r => simpa using hr
  | case2 low high a b rest _ => exact List.forall_mem_cons.mpr ⟨hr, h⟩
  | case3 low high a b rest _ _ ih =>
    obtain ⟨hfirst, hrest⟩ := List.forall_mem_cons.mp h
    exact List.forall_mem_cons.mpr ⟨hfirst, ih hr hrest⟩
  | case4 low high a b rest _ _ ih =>
    obtain ⟨hfirst, hrest⟩ := List.forall_mem_cons.mp h
    exact ih (by simp only at hr hfirst ⊢; omega) hrest

theorem areSeparate_insertRange (r : Nat × Nat) (ranges : List (Nat × Nat)) (hr : r.1 ≤ r.2)
    (h : AreSeparate ranges) : AreSeparate (insertRange r ranges) := by
  fun_induction insertRange r ranges with
  | case1 r => exact areSeparate_cons.mpr ⟨hr, by simp, h⟩
  | case2 low high a b rest hgap =>
    obtain ⟨hab, habove, hrest⟩ := areSeparate_cons.mp h
    refine areSeparate_cons.mpr ⟨hr, List.forall_mem_cons.mpr ⟨hgap, fun s hs => ?_⟩, h⟩
    have := habove s hs
    simp only at hab this ⊢
    omega
  | case3 low high a b rest _ hgap ih =>
    obtain ⟨hab, habove, hrest⟩ := areSeparate_cons.mp h
    exact areSeparate_cons.mpr ⟨hab, lt_of_mem_insertRange _ _ hgap habove, ih hr hrest⟩
  | case4 low high a b rest _ _ ih =>
    obtain ⟨hab, habove, hrest⟩ := areSeparate_cons.mp h
    exact ih (by simp only at hr hab ⊢; omega) hrest

theorem areSeparate_ofRanges (ranges : List (Nat × Nat)) (limit : Nat) :
    AreSeparate (ofRanges ranges limit).ranges := by
  have hclip : ∀ s ∈ ranges.filterMap (clip limit), s.1 ≤ s.2 := fun _ => nonempty_of_mem_clipped
  change AreSeparate ((ranges.filterMap (clip limit)).foldr insertRange [])
  generalize ranges.filterMap (clip limit) = clipped at hclip ⊢
  induction clipped with
  | nil => exact ⟨by simp, .nil⟩
  | cons r rest ih =>
    obtain ⟨hr, hrest⟩ := List.forall_mem_cons.mp hclip
    exact areSeparate_insertRange r _ hr (ih hrest)

/-- The values that the ranges behind the first one cover. -/
theorem AreSeparate.covers_tail {r : Nat × Nat} {ranges : List (Nat × Nat)}
    (h : AreSeparate (r :: ranges)) (x : Nat) :
    Covers ranges x ↔ Covers (r :: ranges) x ∧ r.2 < x := by
  obtain ⟨-, habove, -⟩ := areSeparate_cons.mp h
  rw [covers_cons]
  constructor
  · rintro ⟨s, hs, hlow, hhigh⟩
    have := habove s hs
    exact ⟨.inr ⟨s, hs, hlow, hhigh⟩, by omega⟩
  · rintro ⟨hfirst | hrest, hx⟩
    · omega
    · exact hrest

theorem AreSeparate.first_low_le {r t : Nat × Nat} {rs ts : List (Nat × Nat)} (hr : r.1 ≤ r.2)
    (ht : AreSeparate (t :: ts)) (h : ∀ x, Covers (r :: rs) x → Covers (t :: ts) x) :
    t.1 ≤ r.1 := by
  obtain ⟨hvalid, habove, -⟩ := areSeparate_cons.mp ht
  have hcovers := h r.1 ((covers_cons r rs r.1).mpr (.inl ⟨Nat.le_refl _, hr⟩))
  rcases (covers_cons t ts r.1).mp hcovers with hfirst | ⟨s, hs, hlow, -⟩
  · exact hfirst.1
  · have := habove s hs
    omega

theorem AreSeparate.first_high_le {r t : Nat × Nat} {rs ts : List (Nat × Nat)}
    (ht : AreSeparate (t :: ts)) (h : ∀ x, Covers (r :: rs) x → Covers (t :: ts) x)
    (hlow : r.1 = t.1) : r.2 ≤ t.2 := by
  obtain ⟨hvalid, habove, -⟩ := areSeparate_cons.mp ht
  refine Nat.le_of_not_lt fun hlt => ?_
  -- the value right behind `t` lies in a gap
  have hcovers := h (t.2 + 1) ((covers_cons r rs _).mpr (.inl ⟨by omega, hlt⟩))
  rcases (covers_cons t ts _).mp hcovers with hfirst | ⟨s, hs, hlow, -⟩
  · omega
  · have := habove s hs
    omega

/-- **Separate ranges that cover the same values are the same ranges.** -/
theorem AreSeparate.eq_of_covers {rs ts : List (Nat × Nat)} (hrs : AreSeparate rs)
    (hts : AreSeparate ts) (h : ∀ x, Covers rs x ↔ Covers ts x) : rs = ts := by
  induction rs generalizing ts with
  | nil =>
    cases ts with
    | nil => rfl
    | cons t ts =>
      have hcovers : Covers (t :: ts) t.1 :=
        (covers_cons t ts _).mpr (.inl ⟨Nat.le_refl _, (areSeparate_cons.mp hts).1⟩)
      exact absurd ((h _).mpr hcovers) (covers_nil _)
  | cons r rs ih =>
    cases ts with
    | nil =>
      have hcovers : Covers (r :: rs) r.1 :=
        (covers_cons r rs _).mpr (.inl ⟨Nat.le_refl _, (areSeparate_cons.mp hrs).1⟩)
      exact absurd ((h _).mp hcovers) (covers_nil _)
    | cons t ts =>
      obtain ⟨hr, -, hrs'⟩ := areSeparate_cons.mp hrs
      obtain ⟨ht, -, hts'⟩ := areSeparate_cons.mp hts
      have hlow : r.1 = t.1 := Nat.le_antisymm
        (hrs.first_low_le ht fun x => (h x).mpr) (hts.first_low_le hr fun x => (h x).mp)
      have hhigh : r.2 = t.2 := Nat.le_antisymm
        (hts.first_high_le (fun x => (h x).mp) hlow)
        (hrs.first_high_le (fun x => (h x).mpr) hlow.symm)
      have hfirst : r = t := Prod.ext hlow hhigh
      have hrest : rs = ts := ih hrs' hts' fun x => by
        rw [hrs.covers_tail, hts.covers_tail, h x, hfirst]
      rw [hfirst, hrest]

/-- **A set is determined by its members**, and its limit. -/
theorem eq_of_mem_iff {s t : ValueSet} (hs : AreSeparate s.ranges) (ht : AreSeparate t.ranges)
    (hlimit : s.limit = t.limit) (h : ∀ x, x ∈ s ↔ x ∈ t) : s = t := by
  obtain ⟨ranges, limit⟩ := s
  obtain ⟨ranges', limit'⟩ := t
  obtain rfl : ranges = ranges' := hs.eq_of_covers ht h
  obtain rfl : limit = limit' := hlimit
  rfl

/-! ## The merge loop

Ranges can be normalized in one pass once they are sorted: a range that touches the last one widens
it, and any other is put behind.  The result is that of inserting the ranges one by one. -/

/-- Ranges by their lower ends, then by their upper ends. -/
def sortsBefore (r s : Nat × Nat) : Bool := r.1 < s.1 || (r.1 == s.1 && r.2 ≤ s.2)

/-- One step of the loop: widen the last range, or put the range behind it. -/
def mergeNext (merged : List (Nat × Nat)) (range : Nat × Nat) : List (Nat × Nat) :=
  merged.getLast?.elim (merged ++ [range]) fun last =>
    if range.1 ≤ last.2 + 1 then merged.dropLast ++ [(last.1, max last.2 range.2)]
    else merged ++ [range]

/-- The set of some ranges: what is left of them up to `limit`, sorted and merged. -/
def mergeRanges (ranges : List (Nat × Nat)) (limit : Nat) : ValueSet :=
  let clipped := (ranges.filter fun r => r.1 ≤ r.2 && r.1 ≤ limit).map fun r => (r.1, min r.2 limit)
  { ranges := (clipped.mergeSort sortsBefore).foldl mergeNext [], limit }

theorem mergeNext_concat (before : List (Nat × Nat)) (last range : Nat × Nat) :
    mergeNext (before ++ [last]) range =
      if range.1 ≤ last.2 + 1 then before ++ [(last.1, max last.2 range.2)]
      else before ++ [last] ++ [range] := by
  simp [mergeNext]

theorem areSeparate_concat {ranges : List (Nat × Nat)} {last : Nat × Nat} :
    AreSeparate (ranges ++ [last]) ↔
      AreSeparate ranges ∧ last.1 ≤ last.2 ∧ ∀ r ∈ ranges, r.2 + 1 < last.1 := by
  simp only [AreSeparate, List.forall_mem_append, List.forall_mem_singleton, List.pairwise_append,
    List.pairwise_singleton, true_and]
  exact ⟨fun ⟨⟨hvalid, hlast⟩, hgaps, hbelow⟩ => ⟨⟨hvalid, hgaps⟩, hlast, hbelow⟩,
    fun ⟨⟨hvalid, hgaps⟩, hlast, hbelow⟩ => ⟨⟨hvalid, hlast⟩, hgaps, hbelow⟩⟩

section Step
variable {merged : List (Nat × Nat)} {range : Nat × Nat}

/-- A step of the loop adds the values of the range, which starts no earlier than any before it. -/
theorem covers_mergeNext (hmerged : AreSeparate merged) (hstarts : ∀ r ∈ merged, r.1 ≤ range.1)
    (x : Nat) :
    Covers (mergeNext merged range) x ↔ Covers merged x ∨ (range.1 ≤ x ∧ x ≤ range.2) := by
  obtain rfl | ⟨before, last, rfl⟩ := merged.eq_nil_or_concat'
  · simp [mergeNext]
  · obtain ⟨-, hlast, -⟩ := areSeparate_concat.mp hmerged
    have hstart : last.1 ≤ range.1 := hstarts last (by simp)
    rw [mergeNext_concat]
    split
    · have hjoin : (last.1 ≤ x ∧ x ≤ max last.2 range.2) ↔
          (last.1 ≤ x ∧ x ≤ last.2) ∨ (range.1 ≤ x ∧ x ≤ range.2) := by omega
      simp only [covers_append, covers_cons, covers_nil, or_false, hjoin, or_assoc]
    · simp only [covers_append, covers_cons, covers_nil, or_false]

/-- A step of the loop leaves separate ranges, which start no later than the one it takes in. -/
theorem areSeparate_mergeNext (hmerged : AreSeparate merged) (hstarts : ∀ r ∈ merged, r.1 ≤ range.1)
    (hrange : range.1 ≤ range.2) :
    AreSeparate (mergeNext merged range) ∧ ∀ r ∈ mergeNext merged range, r.1 ≤ range.1 := by
  obtain rfl | ⟨before, last, rfl⟩ := merged.eq_nil_or_concat'
  · exact ⟨areSeparate_cons.mpr ⟨hrange, by simp, hmerged⟩, by simp [mergeNext]⟩
  · obtain ⟨hbefore, hlast, hgaps⟩ := areSeparate_concat.mp hmerged
    obtain ⟨hstarts', hstart⟩ := List.forall_mem_append.mp hstarts
    rw [mergeNext_concat]
    split
    · refine ⟨areSeparate_concat.mpr ⟨hbefore, by simp only; omega, hgaps⟩, ?_⟩
      exact List.forall_mem_append.mpr ⟨hstarts', by simpa using hstart⟩
    · rename_i hgap
      refine ⟨areSeparate_concat.mpr ⟨hmerged, hrange, ?_⟩,
        List.forall_mem_append.mpr ⟨hstarts, by simp⟩⟩
      refine List.forall_mem_append.mpr ⟨fun r hr => ?_, by simp; omega⟩
      have := hgaps r hr
      omega

end Step

/-- **The loop merges sorted ranges into separate ones that cover the same values.** -/
theorem foldl_mergeNext {ranges merged : List (Nat × Nat)}
    (hsorted : ranges.Pairwise fun r s => r.1 ≤ s.1) (hvalid : ∀ r ∈ ranges, r.1 ≤ r.2)
    (hmerged : AreSeparate merged) (hstarts : ∀ r ∈ merged, ∀ s ∈ ranges, r.1 ≤ s.1) :
    AreSeparate (ranges.foldl mergeNext merged) ∧
      ∀ x, Covers (ranges.foldl mergeNext merged) x ↔ Covers merged x ∨ Covers ranges x := by
  induction ranges generalizing merged with
  | nil => simpa using hmerged
  | cons range rest ih =>
    obtain ⟨hfirst, hrest⟩ := List.pairwise_cons.mp hsorted
    obtain ⟨hrange, hvalid⟩ := List.forall_mem_cons.mp hvalid
    have hstart : ∀ r ∈ merged, r.1 ≤ range.1 := fun r hr => hstarts r hr range List.mem_cons_self
    obtain ⟨hnext, hstarts'⟩ := areSeparate_mergeNext hmerged hstart hrange
    obtain ⟨hseparate, hcovers⟩ := ih hrest hvalid hnext fun r hr s hs =>
      Nat.le_trans (hstarts' r hr) (hfirst s hs)
    refine ⟨hseparate, fun x => (hcovers x).trans ?_⟩
    rw [covers_mergeNext hmerged hstart, covers_cons, or_assoc]

theorem pairwise_mergeSort_sortsBefore (ranges : List (Nat × Nat)) :
    (ranges.mergeSort sortsBefore).Pairwise fun r s => r.1 ≤ s.1 := by
  have hsorted : (ranges.mergeSort sortsBefore).Pairwise fun r s => sortsBefore r s = true := by
    refine List.pairwise_mergeSort (fun r s t => ?_) (fun r s => ?_) ranges
    · simp only [sortsBefore, Bool.or_eq_true, Bool.and_eq_true, decide_eq_true_eq, beq_iff_eq]
      omega
    · simp only [sortsBefore, Bool.or_eq_true, Bool.and_eq_true, decide_eq_true_eq, beq_iff_eq]
      omega
  refine hsorted.imp fun {r s} h => ?_
  simp only [sortsBefore, Bool.or_eq_true, Bool.and_eq_true, decide_eq_true_eq, beq_iff_eq] at h
  omega

theorem ranges_mergeRanges (ranges : List (Nat × Nat)) (limit : Nat) :
    (mergeRanges ranges limit).ranges =
      ((ranges.filterMap (clip limit)).mergeSort sortsBefore).foldl mergeNext [] := by
  have hclip : ((ranges.filter fun r => r.1 ≤ r.2 && r.1 ≤ limit).map fun r =>
      (r.1, min r.2 limit)) = ranges.filterMap (clip limit) := by
    rw [← List.filterMap_eq_map, List.filterMap_filter]
    exact congrArg (List.filterMap · ranges) (funext fun r => by simp [clip])
  rw [mergeRanges, hclip]

/-- **Sorting and merging ranges comes to the same as inserting them one by one.** -/
theorem mergeRanges_eq_ofRanges (ranges : List (Nat × Nat)) (limit : Nat) :
    mergeRanges ranges limit = ofRanges ranges limit := by
  obtain ⟨hseparate, hcovers⟩ := foldl_mergeNext
    (pairwise_mergeSort_sortsBefore (ranges.filterMap (clip limit)))
    (fun _ hr => nonempty_of_mem_clipped (List.mem_mergeSort.mp hr))
    ⟨List.forall_mem_nil _, .nil⟩ (List.forall_mem_nil _)
  rw [← ranges_mergeRanges] at hseparate hcovers
  refine eq_of_mem_iff hseparate (areSeparate_ofRanges ranges limit) rfl fun x => ?_
  have hsorted : Covers ((ranges.filterMap (clip limit)).mergeSort sortsBefore) x ↔
      Covers (ranges.filterMap (clip limit)) x := by
    simp only [Covers, List.mem_mergeSort]
  rw [mem_ofRanges, ← covers_clipped, ← hsorted]
  exact (hcovers x).trans (by simp)

/-- **A set is found to be a subset exactly where its members are members of the other one**, up to
the same limit. -/
theorem isSubset_iff {s t : ValueSet} (hs : AreSeparate s.ranges) (hlimit : s.limit = t.limit)
    (hle : ∀ x ∈ s, x ≤ s.limit) : s.isSubset t = true ↔ ∀ x ∈ s, x ∈ t := by
  refine ⟨fun h x hx => mem_of_isSubset h hx, fun h => ?_⟩
  have hmin : min s.limit t.limit = s.limit := by rw [← hlimit, Nat.min_self]
  have hmem (x : Nat) : x ∈ s.intersect t ↔ x ∈ s := by
    rw [mem_intersect, hmin]
    exact ⟨fun hx => hx.1.1, fun hx => ⟨⟨hx, h x hx⟩, hle x hx⟩⟩
  rw [isSubset, beq_iff_eq]
  exact eq_of_mem_iff (areSeparate_ofRanges _ _) hs hmin hmem

/-- **Comparisons up to one limit are subsets as their members are.** -/
theorem isSubset_ofComparison_iff {relation relation' : Relation} {value value' : UInt32}
    {limit : Nat} :
    (ofComparison relation value limit).isSubset (ofComparison relation' value' limit) = true ↔
      ∀ x ∈ ofComparison relation value limit, x ∈ ofComparison relation' value' limit :=
  isSubset_iff (areSeparate_ofRanges _ _) rfl fun _ hx => ((mem_ofComparison _ _ _ _).mp hx).1

/-- Two comparisons that together say what a third one says have its values in common. -/
theorem intersect_ofComparison {r s relation : Relation} {x y value : UInt32} {limit : Nat}
    (h : ∀ n : Nat, (r.holds n x.toNat = true ∧ s.holds n y.toNat = true) ↔
      relation.holds n value.toNat = true) :
    (ofComparison r x limit).intersect (ofComparison s y limit) =
      ofComparison relation value limit := by
  have hlimit : min (ofComparison r x limit).limit (ofComparison s y limit).limit = limit :=
    Nat.min_self limit
  refine eq_of_mem_iff (areSeparate_ofRanges _ _) (areSeparate_ofRanges _ _) hlimit fun n => ?_
  rw [mem_intersect, mem_ofComparison, mem_ofComparison, mem_ofComparison, hlimit, ← h n]
  constructor
  · rintro ⟨⟨⟨hle, hr⟩, -, hs⟩, -⟩
    exact ⟨hle, hr, hs⟩
  · rintro ⟨hle, hr, hs⟩
    exact ⟨⟨⟨hle, hr⟩, hle, hs⟩, hle⟩

end ValueSet

/-! ## Bounds -/

/-- Whether a bound allows a value. -/
def Bound.Allows : Bound → Nat → Prop
  | .empty, _ => False
  | .full, _ => True
  | .compare relation value, x => relation.holds x value.toNat = true

namespace ValueSet

theorem allows_of_boundAt? {relation : Relation} {value : Nat} {b : Bound}
    (h : boundAt? relation value = some b) (x : Nat) :
    b.Allows x ↔ relation.holds x value = true := by
  unfold boundAt? at h
  split at h
  · rename_i hvalue
    cases h
    have hword : value.toUInt32.toNat = value := by
      simp only [Nat.toUInt32_eq, UInt32.toNat_ofNat']
      exact Nat.mod_eq_of_lt hvalue
    rw [Bound.Allows, hword]
  · cases h

/-- **A bound says what its set holds**, for the values up to the limit. -/
theorem mem_iff_of_bound? {s : ValueSet} {b : Bound} (h : s.bound? = some b) {x : Nat}
    (hx : x ≤ s.limit) : x ∈ s ↔ b.Allows x := by
  rw [mem_def]
  unfold bound? at h
  split at h
  · rename_i hranges
    cases h
    simp [hranges, Bound.Allows]
  · rename_i low high hranges
    simp only [hranges, List.mem_singleton, exists_eq_left]
    split at h
    · cases h
      simp only [Bound.Allows, iff_true]
      omega
    · split at h
      · rw [allows_of_boundAt? h, Relation.holds, decide_eq_true_eq]
        omega
      · split at h
        · rw [allows_of_boundAt? h, Relation.holds, decide_eq_true_eq]
          omega
        · split at h
          · rw [allows_of_boundAt? h, Relation.holds, decide_eq_true_eq]
            omega
          · cases h
  · rename_i low below above high hranges
    simp only [hranges, List.mem_cons, List.not_mem_nil, or_false, exists_eq_or_imp,
      exists_eq_left]
    split at h
    · rw [allows_of_boundAt? h, Relation.holds, decide_eq_true_eq]
      omega
    · cases h
  · cases h

theorem exists_boundAt? (relation : Relation) {value : Nat} (h : value < UInt32.size) :
    ∃ b, boundAt? relation value = some b := by
  rw [boundAt?, if_pos h]
  exact ⟨_, rfl⟩

theorem ranges_ofRanges_singleton (low high limit : Nat) :
    (ofRanges [(low, high)] limit).ranges =
      if low ≤ high ∧ low ≤ limit then [(low, min high limit)] else [] := by
  by_cases h : low ≤ high ∧ low ≤ limit
  · rw [if_pos h]
    simp [ofRanges, clip, h, insertRange]
  · rw [if_neg h]
    simp [ofRanges, clip, h]

theorem ranges_ofRanges_gap {value limit : Nat} (hpos : 0 < value) (hlt : value < limit) :
    (ofRanges [(0, value - 1), (value + 1, limit)] limit).ranges =
      [(0, value - 1), (value + 1, limit)] := by
  have hbelow : min (value - 1) limit = value - 1 := by omega
  have hgap : value - 1 + 1 < value + 1 := by omega
  have habove : value + 1 ≤ limit := by omega
  simp [ofRanges, clip, insertRange, hbelow, hgap, habove]

/-- One range that starts at zero, ends at the limit or holds one value is a bound. -/
theorem exists_bound?_of_range {low high limit : Nat} (hlimit : limit < UInt32.size)
    (hends : low = high ∨ low = 0 ∨ limit ≤ high) :
    ∃ b, (ofRanges [(low, high)] limit).bound? = some b := by
  have hsame : (ofRanges [(low, high)] limit).limit = limit := rfl
  unfold bound?
  rw [ranges_ofRanges_singleton, hsame]
  by_cases hrange : low ≤ high ∧ low ≤ limit
  · rw [if_pos hrange]
    dsimp only
    split
    · exact ⟨_, rfl⟩
    split
    · exact exists_boundAt? _ (by omega)
    split
    · exact exists_boundAt? _ (by omega)
    split
    · exact exists_boundAt? _ (by omega)
    · omega
  · rw [if_neg hrange]
    exact ⟨_, rfl⟩

/-- **What one comparison says, a bound says.** -/
theorem exists_bound?_ofComparison (relation : Relation) (value : UInt32) {limit : Nat}
    (hlimit : limit < UInt32.size) : ∃ b, (ofComparison relation value limit).bound? = some b := by
  rw [ofComparison]
  cases relation with
  | eq => exact exists_bound?_of_range hlimit (.inl rfl)
  | le => exact exists_bound?_of_range hlimit (.inr (.inl rfl))
  | gt => exact exists_bound?_of_range hlimit (.inr (.inr (Nat.le_refl _)))
  | ge => exact exists_bound?_of_range hlimit (.inr (.inr (Nat.le_refl _)))
  | lt =>
    rw [rangesOf]
    split
    · exact ⟨_, rfl⟩
    · exact exists_bound?_of_range hlimit (.inr (.inl rfl))
  | ne =>
    rw [rangesOf]
    split
    · exact exists_bound?_of_range hlimit (.inr (.inr (Nat.le_refl _)))
    rename_i hne
    by_cases hlt : value.toNat < limit
    · unfold bound?
      rw [ranges_ofRanges_gap (Nat.pos_of_ne_zero hne) hlt]
      dsimp only
      rw [if_pos ⟨rfl, rfl, by omega⟩]
      exact exists_boundAt? _ (by omega)
    · -- nothing is left above the value
      have hbelow : ofRanges [(0, value.toNat - 1), (value.toNat + 1, limit)] limit =
          ofRanges [(0, value.toNat - 1)] limit := by
        simp [ofRanges, clip, Nat.not_le_of_lt (Nat.lt_succ_of_le (Nat.le_of_not_lt hlt))]
      rw [hbelow]
      exact exists_bound?_of_range hlimit (.inr (.inl rfl))

end ValueSet
end MemoryTrigger

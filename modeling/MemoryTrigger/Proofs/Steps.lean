import MemoryTrigger.Simplify.Log
import Mathlib.Data.List.Perm.Basic

/-! # Steps on lists

Most steps of the simplifier take elements out of a list by their places and put one in for them.
Up to order, such a step exchanges a few elements and leaves the rest (`Places.perm_set_eraseIdx`).
A step that makes something smaller is exhausted after as many repetitions as the thing is large
(`Logged.exhaust_eq_none`).  What steps cause and keep is there at the end where one of them was the
last to cause it (`holds_iff_exists_cause`). -/
namespace MemoryTrigger

/-! ## Places -/

namespace Places
variable {α : Type}

/-- An element may be taken out of its place and put in front. -/
theorem perm_cons_eraseIdx {xs : List α} {i : Nat} {a : α} (h : xs[i]? = some a) :
    xs.Perm (a :: xs.eraseIdx i) := by
  obtain ⟨hlt, hget⟩ := List.getElem?_eq_some_iff.mp h
  rw [← hget]
  exact (List.getElem_cons_eraseIdx_perm hlt).symm

/-- Putting an element in one place and removing another place exchanges two elements for one. -/
theorem perm_set_eraseIdx [DecidableEq α] {xs : List α} {i j : Nat} {a b : α}
    (hi : xs[i]? = some a) (hj : xs[j]? = some b) (hij : i ≠ j) (c : α) :
    ∃ rest, xs.Perm (a :: b :: rest) ∧ ((xs.set i c).eraseIdx j).Perm (c :: rest) := by
  obtain ⟨hlt, -⟩ := List.getElem?_eq_some_iff.mp hi
  have hset : (xs.set i c).Perm (c :: xs.eraseIdx i) := List.set_perm_cons_eraseIdx hlt c
  have hj' : (xs.set i c)[j]? = some b := by rw [List.getElem?_set_ne hij, hj]
  have hc : c ∈ (xs.set i c).eraseIdx j :=
    List.mem_eraseIdx_iff_getElem?.mpr ⟨i, hij, by simp [hlt]⟩
  have hkeep := List.perm_cons_erase hc
  -- both lists hold `c`, so that what is left of them without it agrees
  have hrest : (xs.eraseIdx i).Perm (b :: ((xs.set i c).eraseIdx j).erase c) := by
    have hout : (xs.set i c).Perm (b :: c :: ((xs.set i c).eraseIdx j).erase c) :=
      (perm_cons_eraseIdx hj').trans (hkeep.cons b)
    exact (hset.symm.trans (hout.trans (.swap _ _ _))).cons_inv
  exact ⟨_, (perm_cons_eraseIdx hi).trans (hrest.cons a), hkeep⟩

/-- Removing one of two places leaves the element of the other. -/
theorem perm_eraseIdx [DecidableEq α] {xs : List α} {i j : Nat} {a b : α} (hi : xs[i]? = some a)
    (hj : xs[j]? = some b) (hij : i ≠ j) :
    ∃ rest, xs.Perm (a :: b :: rest) ∧ (xs.eraseIdx j).Perm (a :: rest) := by
  have hset : xs.set i a = xs := by
    obtain ⟨hlt, rfl⟩ := List.getElem?_eq_some_iff.mp hi
    exact List.set_getElem_self hlt
  simpa [hset] using perm_set_eraseIdx hi hj hij a

/-- Removing later places leaves an earlier one as it is. -/
theorem getElem?_foldr_eraseIdx {places : List Nat} {i : Nat} (h : ∀ j ∈ places, i < j)
    (xs : List α) : (places.foldr (fun j ys => ys.eraseIdx j) xs)[i]? = xs[i]? := by
  induction places with
  | nil => rfl
  | cons j places ih =>
    rw [List.foldr_cons, List.getElem?_eraseIdx_of_lt (h j List.mem_cons_self),
      ih fun k hk => h k (List.mem_cons_of_mem _ hk)]

/-- Removing rising places, the last one first, takes out their elements. -/
theorem perm_foldr_eraseIdx {places : List Nat} (h : places.Pairwise (· < ·)) (xs : List α) :
    xs.Perm (places.filterMap (xs[·]?) ++ places.foldr (fun j ys => ys.eraseIdx j) xs) := by
  induction places with
  | nil => simp
  | cons i places ih =>
    obtain ⟨hfirst, hrest⟩ := List.pairwise_cons.mp h
    have hget := getElem?_foldr_eraseIdx hfirst xs
    refine (ih hrest).trans ?_
    rw [List.foldr_cons]
    cases hi : xs[i]? with
    | none =>
      rw [hi] at hget
      rw [List.filterMap_cons_none hi, List.eraseIdx_of_length_le (List.getElem?_eq_none_iff.mp hget)]
    | some a =>
      rw [hi] at hget
      rw [List.filterMap_cons_some hi, List.cons_append]
      exact ((perm_cons_eraseIdx hget).append_left _).trans List.perm_middle

/-- Putting an element in the first of some rising places and removing the others exchanges the
elements of all of them for it. -/
theorem perm_set_foldr_eraseIdx {first : Nat} {others : List Nat}
    (h : (first :: others).Pairwise (· < ·)) {xs : List α} {a : α} (hget : xs[first]? = some a)
    (c : α) :
    ∃ rest, xs.Perm ((first :: others).filterMap (xs[·]?) ++ rest) ∧
      (others.foldr (fun j ys => ys.eraseIdx j) (xs.set first c)).Perm (c :: rest) := by
  obtain ⟨hfirst, hothers⟩ := List.pairwise_cons.mp h
  have hlt := (List.getElem?_eq_some_iff.mp hget).1
  have hset : (xs.set first c).Perm (c :: xs.eraseIdx first) := List.set_perm_cons_eraseIdx hlt c
  have hout := perm_foldr_eraseIdx hothers (xs.set first c)
  have hsame : others.filterMap ((xs.set first c)[·]?) = others.filterMap (xs[·]?) :=
    List.filterMap_congr fun j hj => List.getElem?_set_ne (Nat.ne_of_lt (hfirst j hj))
  have hkept := perm_cons_eraseIdx
    ((getElem?_foldr_eraseIdx hfirst (xs.set first c)).trans (List.getElem?_set_self hlt))
  rw [hsame] at hout
  -- both sides hold `c`, so that what is left of them without it agrees
  have hrest := (hset.symm.trans
    (hout.trans ((hkept.append_left _).trans List.perm_middle))).cons_inv
  refine ⟨_, ?_, hkept⟩
  rw [List.filterMap_cons_some hget]
  exact (perm_cons_eraseIdx hget).trans (hrest.cons a)

end Places

/-! ## Exhausted steps -/

/-- A step that makes things smaller has nothing left to do when it was repeated often enough. -/
theorem Logged.exhaust_eq_none {α : Type} {step : α → Option (α × Event)}
    (size : α → Nat) (hstep : ∀ a b e, step a = some (b, e) → size b < size a) (limit : Nat) (a : α)
    (h : size a ≤ limit) : step (exhaust step limit a).value = none := by
  induction limit generalizing a with
  | zero =>
    rw [exhaust, value_pure]
    cases hs : step a with
    | none => rfl
    | some next =>
      have := hstep a next.1 next.2 hs
      omega
  | succ limit ih =>
    unfold exhaust
    split
    · rename_i hs
      exact hs
    · rename_i b e hs
      have := hstep a b e hs
      exact ih b (by omega)

/-- One repetition more is one step more, if there is one to make. -/
theorem Logged.value_exhaust_succ {α : Type} (step : α → Option (α × Event)) (n : Nat) (a : α) :
    (exhaust step (n + 1) a).value =
      ((step (exhaust step n a).value).map Prod.fst).getD (exhaust step n a).value := by
  induction n generalizing a with
  | zero =>
    unfold exhaust
    cases step a with
    | none => simp
    | some next => simp [exhaust]
  | succ n ih =>
    rw [exhaust]
    cases hstep : step a with
    | none => simp [exhaust, hstep]
    | some next =>
      have hfirst : (exhaust step (n + 1) a).value = (exhaust step n next.1).value := by
        simp [exhaust, hstep]
      rw [hfirst]
      simpa using ih next.1

/-- What a step can cause and otherwise only keep, holds after some steps where one of them was the
last to cause it. -/
theorem holds_iff_exists_cause {P cause keep : Nat → Prop} (hzero : ¬ P 0)
    (hstep : ∀ n, P (n + 1) ↔ cause n ∨ (P n ∧ keep n)) (m : Nat) :
    P m ↔ ∃ n < m, cause n ∧ ∀ k, n < k → k < m → keep k := by
  induction m with
  | zero => simpa using hzero
  | succ m ih =>
    rw [hstep]
    constructor
    · rintro (hcause | ⟨hbefore, hkeep⟩)
      · exact ⟨m, Nat.lt_succ_self m, hcause, fun k hlt hle => by omega⟩
      · obtain ⟨n, hn, hcause, hlater⟩ := ih.mp hbefore
        refine ⟨n, Nat.lt_succ_of_lt hn, hcause, fun k hlt hle => ?_⟩
        rcases Nat.lt_or_eq_of_le (Nat.le_of_lt_succ hle) with hk | rfl
        · exact hlater k hlt hk
        · exact hkeep
    · rintro ⟨n, hn, hcause, hlater⟩
      rcases Nat.lt_or_eq_of_le (Nat.le_of_lt_succ hn) with hlt | rfl
      · exact .inr ⟨ih.mpr ⟨n, hlt, hcause, fun k hk hkm => hlater k hk (Nat.lt_succ_of_lt hkm)⟩,
          hlater m hlt (Nat.lt_succ_self m)⟩
      · exact .inl hcause

end MemoryTrigger

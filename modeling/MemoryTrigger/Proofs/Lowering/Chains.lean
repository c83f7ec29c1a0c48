import MemoryTrigger.Chain
import MemoryTrigger.Meaning.ConditionTruth
import MemoryTrigger.Proofs.GroupMeaning
import MemoryTrigger.Proofs.Lowering.Comparisons

/-! # Chains mean what they join

A chain is one clause, and rows act in it strictly from the first to the last.  Its rows can stand
behind a link only if they do nothing with the pending truth but join their own to it.  The rows of a
comparison are like that; those of a junction are not, as their own links would take the pending
truth in, which is why they have to come first.  `Clause.Joins` says both, and from it follows that
the chain of a tree is true when the tree is (`Condition.joins_chainRows`), and that a chain of
counted parts has as many hits as parts that are true (`Condition.means_repeated`). -/
namespace MemoryTrigger

/-! ## The last row -/

section MapLast
variable {α : Type} (f : α → α)

theorem mapLast_concat (xs : List α) (x : α) : mapLast f (xs ++ [x]) = xs ++ [f x] := by
  induction xs with
  | nil => rfl
  | cons y rest ih =>
    cases rest with
    | nil => rfl
    | cons z rest => exact congrArg (y :: ·) ih

theorem mapLast_append (xs : List α) {ys : List α} (h : ys ≠ []) :
    mapLast f (xs ++ ys) = xs ++ mapLast f ys := by
  obtain ⟨init, y, rfl⟩ := List.eq_nil_or_concat' ys |>.resolve_left h
  rw [← List.append_assoc, mapLast_concat, mapLast_concat, List.append_assoc]

end MapLast

namespace Clause

/-- The clause with another role. -/
def withRole (role : Role) (c : Clause) : Clause := ⟨c.lead, { c.terminal with role }⟩

/-- The clause with another hit target. -/
def withTarget (hits : UInt32) (c : Clause) : Clause := ⟨c.lead, { c.terminal with hits }⟩

theorem endingIn_rows (role : Role) (c : Clause) :
    Row.endingIn role c.rows = (c.withRole role).rows :=
  mapLast_concat _ c.lead c.terminal

theorem countingTo_rows (hits : UInt32) (c : Clause) :
    Row.countingTo hits c.rows = (c.withTarget hits).rows :=
  mapLast_concat _ c.lead c.terminal

theorem withRole_of_role_eq {role : Role} {c : Clause} (h : c.role = role) :
    c.withRole role = c := by
  rw [← h]
  rfl

/-- Rows in front of a clause make a longer one. -/
theorem rows_append_lead (front : List Row) (c : Clause) :
    Clause.rows ⟨front ++ c.lead, c.terminal⟩ = front ++ c.rows :=
  List.append_assoc front c.lead [c.terminal]

theorem rows_ne_nil (c : Clause) : c.rows ≠ [] := by simp [rows]

end Clause

/-! ## Clauses that join -/

namespace Junction

/-- The truth of a junction of truths. -/
def holds : Junction → List Bool → Bool
  | and, truths => truths.all id
  | or, truths => truths.any id

theorem holds_perm {j : Junction} {xs ys : List Bool} (h : xs.Perm ys) :
    j.holds xs = j.holds ys := by
  cases j with
  | and => exact h.all_eq
  | or => exact h.any_eq

end Junction

namespace ChainState

/-- Ready for a row that nothing has been fed to. -/
def IsFresh (s : ChainState) : Prop := s.base = 0 ∧ s.sum = 0

/-- The truth that the next one is joined to, if there is one. -/
def handed (s : ChainState) : List Bool := (s.pending.map Prod.snd).toList

theorem joined_of_pending_none {s : ChainState} (h : s.pending = none) (truth : Bool) :
    s.joined truth = truth := by
  rw [joined, h]

/-- Joining a truth to the one handed on is one more member of the same junction. -/
theorem holds_joined {j : Junction} {s : ChainState} (h : ∀ p ∈ s.pending, p.1 = j) (truth : Bool)
    (more : List Bool) :
    j.holds (s.joined truth :: more) = j.holds (s.handed ++ truth :: more) := by
  unfold joined handed
  cases hs : s.pending with
  | none => rfl
  | some p =>
    obtain ⟨j', previous⟩ := p
    obtain rfl : j' = j := h _ hs
    cases j' with
    | and => simp [Junction.holds, Bool.and_assoc, Bool.and_left_comm]
    | or => simp [Junction.holds, Bool.or_assoc, Bool.or_left_comm]

/-- What modifier rows prepare does not depend on the rows before them. -/
theorem foldl_step_modifiers_congr (m : Memory) {lead : List Row}
    (h : ∀ r ∈ lead, r.role.isModifier = true) (s s' : ChainState) (hbase : s.base = s'.base)
    (hsum : s.sum = s'.sum) :
    (lead.foldl (step m) s).base = (lead.foldl (step m) s').base ∧
      (lead.foldl (step m) s).sum = (lead.foldl (step m) s').sum := by
  induction lead generalizing s s' with
  | nil => exact ⟨hbase, hsum⟩
  | cons r rest ih =>
    obtain ⟨hr, hrest⟩ := List.forall_mem_cons.mp h
    refine ih hrest _ _ ?_ ?_
    · cases hrole : r.role <;> simp_all [step, Role.isModifier]
    · cases hrole : r.role <;> simp_all [step, Role.isModifier]

end ChainState

namespace Clause

/-- **A clause that joins its truth to what is pending.**  One that can be `linked` does so behind
any rows; other clauses only where nothing is pending. -/
structure Joins (c : Clause) (truth : Memory → Bool) (linked : Prop) : Prop where
  lead : ∀ r ∈ c.lead, r.role.isCombining = true
  role : c.role = .plain
  hits : c.terminal.hits = 0
  joined : ∀ m (s : ChainState), s.IsFresh → (linked ∨ s.pending = none) →
    (c.lead.foldl (ChainState.step m) s).truthOf m c.terminal = s.joined (truth m) ∧
      (c.lead.foldl (ChainState.step m) s).hits = s.hits

/-- **A clause that adds to the hits it is lent.** -/
structure Counts (c : Clause) (count : Memory → Nat) : Prop where
  lead : ∀ r ∈ c.lead, r.role.isCombining = true
  role : c.role = .plain
  hits : ∀ m (s : ChainState), s.IsFresh → s.pending = none →
    (c.lead.foldl (ChainState.step m) s).hits +
      ((c.lead.foldl (ChainState.step m) s).truthOf m c.terminal).toInt = s.hits + count m

/-- A terminated clause of the role that holds when `truth` does. -/
structure Means (c : Clause) (role : Role) (truth : Memory → Bool) : Prop where
  isTerminated : c.IsTerminated
  role : c.role = role
  holds : ∀ m, c.holdsIn m = truth m

theorem isFresh_empty : ({} : ChainState).IsFresh := ⟨rfl, rfl⟩

namespace Joins
variable {c : Clause} {truth : Memory → Bool} {linked : Prop}

theorem mono {linked' : Prop} (h : c.Joins truth linked) (himp : linked' → linked) :
    c.Joins truth linked' :=
  ⟨h.lead, h.role, h.hits, fun m s hs hpending => h.joined m s hs (hpending.imp_left himp)⟩

/-- With a link at its end, a clause hands on its truth joined to what was pending. -/
theorem foldl_link (h : c.Joins truth linked) (j : Junction) (m : Memory) {s : ChainState}
    (hs : s.IsFresh) (hpending : linked ∨ s.pending = none) :
    (c.withRole j.link).rows.foldl (ChainState.step m) s =
      { hits := s.hits, pending := some (j, s.joined (truth m)) } := by
  obtain ⟨htruth, hhits⟩ := h.joined m s hs hpending
  rw [← htruth, ← hhits, rows, List.foldl_append]
  cases j <;> rfl

/-- With `addHits` at its end, a clause lends its truth as a hit. -/
theorem foldl_addHits (h : c.Joins truth linked) (m : Memory) {s : ChainState} (hs : s.IsFresh)
    (hpending : s.pending = none) :
    (c.withRole .addHits).rows.foldl (ChainState.step m) s =
      { hits := s.hits + (truth m).toInt } := by
  obtain ⟨htruth, hhits⟩ := h.joined m s hs (.inr hpending)
  rw [ChainState.joined_of_pending_none hpending] at htruth
  rw [← htruth, ← hhits, rows, List.foldl_append]
  rfl

theorem counts (h : c.Joins truth linked) : c.Counts fun m => if truth m then 1 else 0 := by
  refine ⟨h.lead, h.role, fun m s hs hpending => ?_⟩
  obtain ⟨htruth, hhits⟩ := h.joined m s hs (.inr hpending)
  rw [htruth, hhits, ChainState.joined_of_pending_none hpending]
  cases truth m <;> rfl

/-- On its own a clause that joins its truth is as true as that, whatever its last row is for. -/
theorem holdsIn_withRole (h : c.Joins truth linked) (role : Role) (m : Memory) :
    (c.withRole role).holdsIn m = truth m := by
  obtain ⟨htruth, -⟩ := h.joined m {} isFresh_empty (.inr rfl)
  exact (holdsIn_of_hits_eq_zero m (c := c.withRole role) h.hits).trans htruth

theorem means (h : c.Joins truth linked) {role : Role} (hrole : role.isCombining = false) :
    (c.withRole role).Means role truth :=
  ⟨⟨h.lead, hrole⟩, rfl, h.holdsIn_withRole role⟩

end Joins

/-- A clause that has to count one hit holds once there is one. -/
theorem Counts.means {c : Clause} {count : Memory → Nat} (h : c.Counts count) :
    (c.withTarget 1).Means .plain fun m => decide (0 < count m) := by
  have hrole : c.terminal.role = .plain := h.role
  refine ⟨⟨h.lead, by simp [withTarget, hrole, Role.isCombining]⟩, h.role, fun m => ?_⟩
  have hcount := h.hits m {} isFresh_empty rfl
  have htarget : (c.withTarget 1).terminal.hits = 1 := rfl
  rw [holdsIn_eq, htarget, if_neg (by decide)]
  simp only [decide_eq_decide]
  change ((1 : UInt32).toNat : Int) ≤ (c.lead.foldl (ChainState.step m) {}).hits +
    ((c.lead.foldl (ChainState.step m) {}).truthOf m c.terminal).toInt ↔ _
  rw [hcount]
  simp
  omega

/-- The rows of a comparison join its truth behind any rows. -/
theorem IsLinear.joins {c : Clause} (h : c.IsLinear) : c.Joins (fun m => c.holdsIn m) True := by
  obtain ⟨left, relation, right, hterminal, -, -⟩ := h.terminal
  have hlead : ∀ r ∈ c.lead, r.role.isModifier = true := fun r hr => (h.lead r hr).role
  have hmodifiers : c.lead.all (·.role.isModifier) = true := List.all_eq_true.mpr hlead
  have hhits : c.terminal.hits = 0 := by rw [hterminal]; rfl
  refine ⟨fun r hr => ?_, by rw [role, hterminal]; rfl, hhits, fun m s hs _ => ?_⟩
  · have hr := hlead r hr
    revert hr
    cases r.role <;> simp [Role.isModifier, Role.isCombining]
  -- What is fed to the terminal row is the same as at the front of a clause.
  · obtain ⟨hpending, hsame⟩ := ChainState.foldl_step_modifiers m c.lead s hmodifiers
    obtain ⟨hbase, hsum⟩ := ChainState.foldl_step_modifiers_congr m hlead s {} hs.1 hs.2
    refine ⟨?_, hsame⟩
    rw [holdsIn_of_hits_eq_zero m hhits, truthOf_of_modifiers m hmodifiers, ChainState.truthOf,
      hbase, hsum, ChainState.joined, ChainState.joined, hpending]
    rfl

theorem joins_constant (truth : Bool) :
    (single (Row.constant truth)).Joins (fun _ => truth) True := by
  have hlinear : (single (Row.constant truth)).IsLinear := by
    refine ⟨by simp [single], ?_⟩
    cases truth
    · exact ⟨_, _, _, rfl, Operand.isRepresentable_literal _, Operand.isRepresentable_literal _⟩
    · exact ⟨_, _, _, rfl, Operand.isRepresentable_literal _, Operand.isRepresentable_literal _⟩
  have hholds : (fun m => (single (Row.constant truth)).holdsIn m) = fun _ => truth := by
    funext m
    cases truth
    · exact holdsIn_alwaysFalse m
    · exact holdsIn_alwaysTrue m
  rw [← hholds]
  exact hlinear.joins

end Clause

/-! ## Rows of such clauses -/

namespace Row

def Join (rows : List Row) (truth : Memory → Bool) (linked : Prop) : Prop :=
  ∃ c : Clause, c.rows = rows ∧ c.Joins truth linked

def Count (rows : List Row) (count : Memory → Nat) : Prop :=
  ∃ c : Clause, c.rows = rows ∧ c.Counts count

def Mean (rows : List Row) (role : Role) (truth : Memory → Bool) : Prop :=
  ∃ c : Clause, c.rows = rows ∧ c.Means role truth

theorem Join.mono {rows : List Row} {truth : Memory → Bool} {linked linked' : Prop}
    (h : Join rows truth linked) (himp : linked' → linked) : Join rows truth linked' := by
  obtain ⟨c, rfl, hc⟩ := h
  exact ⟨c, rfl, hc.mono himp⟩

theorem Join.count {rows : List Row} {truth : Memory → Bool} {linked : Prop}
    (h : Join rows truth linked) : Count rows fun m => if truth m then 1 else 0 := by
  obtain ⟨c, rfl, hc⟩ := h
  exact ⟨c, rfl, hc.counts⟩

theorem Join.mean {rows : List Row} {truth : Memory → Bool} {linked : Prop}
    (h : Join rows truth linked) {role : Role} (hrole : role.isCombining = false) :
    Mean (endingIn role rows) role truth := by
  obtain ⟨c, rfl, hc⟩ := h
  exact ⟨c.withRole role, (c.endingIn_rows role).symm, hc.means hrole⟩

theorem Join.mean_plain {rows : List Row} {truth : Memory → Bool} {linked : Prop}
    (h : Join rows truth linked) : Mean rows .plain truth := by
  obtain ⟨c, rfl, hc⟩ := h
  refine ⟨c, rfl, ?_⟩
  have hmeans : (c.withRole .plain).Means .plain truth := hc.means rfl
  rwa [Clause.withRole_of_role_eq hc.role] at hmeans

end Row

namespace Clause

/-- A clause made of members of one junction, which may go on with that junction behind a link. -/
structure Links (j : Junction) (c : Clause) (truths : Memory → List Bool) (linked : Prop) :
    Prop where
  lead : ∀ r ∈ c.lead, r.role.isCombining = true
  role : c.role = .plain
  hits : c.terminal.hits = 0
  joined : ∀ m (s : ChainState), s.IsFresh → (linked ∨ s.pending = none) →
    (∀ p ∈ s.pending, p.1 = j) →
    (c.lead.foldl (ChainState.step m) s).truthOf m c.terminal = j.holds (s.handed ++ truths m) ∧
      (c.lead.foldl (ChainState.step m) s).hits = s.hits

theorem Links.joins {j : Junction} {c : Clause} {truths : Memory → List Bool} {linked : Prop}
    (h : Links j c truths linked) : c.Joins (fun m => j.holds (truths m)) False := by
  refine ⟨h.lead, h.role, h.hits, fun m s hs hpending => ?_⟩
  have hnone : s.pending = none := hpending.resolve_left id
  obtain ⟨htruth, hhits⟩ := h.joined m s hs (.inr hnone) (by simp [hnone])
  rw [ChainState.joined_of_pending_none hnone]
  simpa [ChainState.handed, hnone] using And.intro htruth hhits

theorem links_one {j : Junction} {c : Clause} {truth : Memory → Bool} {linked : Prop}
    (h : c.Joins truth linked) : Links j c (fun m => [truth m]) linked := by
  refine ⟨h.lead, h.role, h.hits, fun m s hs hlinked hj => ?_⟩
  obtain ⟨htruth, hhits⟩ := h.joined m s hs hlinked
  rw [htruth, ← ChainState.holds_joined hj]
  exact ⟨by cases j <;> simp [Junction.holds], hhits⟩

/-- One more member in front. -/
theorem links_cons {j : Junction} {c d : Clause} {truth : Memory → Bool}
    {truths : Memory → List Bool} {linked : Prop} (hc : c.Joins truth linked)
    (hd : Links j d truths True) :
    Links j ⟨(c.withRole j.link).rows ++ d.lead, d.terminal⟩ (fun m => truth m :: truths m)
      linked := by
  refine ⟨fun r hr => ?_, hd.role, hd.hits, fun m s hs hlinked hj => ?_⟩
  · rcases List.mem_append.mp hr with hr | hr
    · rcases List.mem_append.mp hr with hr | hr
      · exact hc.lead r hr
      · obtain rfl := List.mem_singleton.mp hr
        cases j <;> rfl
    · exact hd.lead r hr
  · rw [List.foldl_append, hc.foldl_link j m hs hlinked]
    obtain ⟨htruth, hhits⟩ := hd.joined m { hits := s.hits, pending := some (j, s.joined (truth m)) }
      ⟨rfl, rfl⟩ (.inl trivial) (by simp)
    refine ⟨htruth.trans ?_, hhits⟩
    exact ChainState.holds_joined hj (truth m) (truths m)

/-- **Clauses linked one behind another make one clause**, true as the junction of their truths.
Only the first may be one that cannot stand behind a link. -/
theorem exists_links {j : Junction} {first : List Row} {truth : Memory → Bool} {linked : Prop}
    (hfirst : Row.Join first truth linked) {rest : List (List Row)}
    {truths : List (Memory → Bool)}
    (hrest : List.Forall₂ (fun rows t => Row.Join rows t True) rest truths) :
    ∃ c : Clause,
      c.rows = Row.endingIn .plain ((first :: rest).map (Row.endingIn j.link)).flatten ∧
      Links j c (fun m => (truth :: truths).map (· m)) linked := by
  induction hrest generalizing first truth linked with
  | nil =>
    obtain ⟨c, rfl, hc⟩ := hfirst
    have hplain : (c.withRole j.link).withRole .plain = c := withRole_of_role_eq hc.role
    exact ⟨c, by simp [endingIn_rows, hplain], links_one hc⟩
  | cons hrows hrest ih =>
    rename_i rows t rest truths
    obtain ⟨c, rfl, hc⟩ := hfirst
    obtain ⟨d, hd, hlinks⟩ := ih hrows
    refine ⟨⟨(c.withRole j.link).rows ++ d.lead, d.terminal⟩, ?_, links_cons hc hlinks⟩
    have hne : ((rows :: rest).map (Row.endingIn j.link)).flatten ≠ [] := by
      intro hnil
      rw [hnil] at hd
      exact d.rows_ne_nil hd
    -- Only the last of all rows gets the plain role, and it is one of `d`.
    rw [List.map_cons, List.flatten_cons, Row.endingIn, mapLast_append _ _ hne, ← Row.endingIn, ← hd,
      endingIn_rows, rows_append_lead]

/-- A clause whose hits add to those of another. -/
theorem counts_cons {c d : Clause} {truth : Memory → Bool} {count : Memory → Nat} {linked : Prop}
    (hc : c.Joins truth linked) (hd : d.Counts count) :
    Counts ⟨(c.withRole .addHits).rows ++ d.lead, d.terminal⟩
      fun m => (if truth m then 1 else 0) + count m := by
  refine ⟨fun r hr => ?_, hd.role, fun m s hs hpending => ?_⟩
  · rcases List.mem_append.mp hr with hr | hr
    · rcases List.mem_append.mp hr with hr | hr
      · exact hc.lead r hr
      · obtain rfl := List.mem_singleton.mp hr
        rfl
    · exact hd.lead r hr
  · rw [List.foldl_append, hc.foldl_addHits m hs hpending]
    have hhits := hd.hits m { hits := s.hits + (truth m).toInt } ⟨rfl, rfl⟩ rfl
    rw [hhits]
    cases truth m <;> simp [Bool.toInt, Int.add_assoc]

end Clause

namespace Link
open Clause

variable {f : Condition → Lowered (List Row)} (truth : Condition → Memory → Bool)

/-- **Chains whose hits add up** have as many as there are operands that are true. -/
theorem count_summed {linked : Condition → Prop} {cs : List Condition} (hne : cs ≠ [])
    (hf : ∀ c ∈ cs, ∀ rows, f c = .ok rows → Row.Join rows (truth c) (linked c))
    {rows : List Row} (h : summed (cs.map f) = .ok rows) :
    Row.Count rows fun m => cs.countP (truth · m) := by
  induction cs generalizing rows with
  | nil => exact absurd rfl hne
  | cons c rest ih =>
    obtain ⟨hfirst, hrest⟩ := List.forall_mem_cons.mp hf
    cases rest with
    | nil =>
      simp only [List.map_cons, List.map_nil, summed, Lowered.bind_eq_ok, Lowered.pure_eq_ok] at h
      obtain ⟨last, hlast, rfl⟩ := h
      obtain ⟨d, rfl, hd⟩ := hfirst last hlast
      rw [endingIn_rows, withRole_of_role_eq hd.role]
      refine ⟨d, rfl, ?_⟩
      simpa [List.countP_cons] using hd.counts
    | cons next others =>
      simp only [List.map_cons, summed, Lowered.bind_eq_ok, Lowered.pure_eq_ok] at h
      obtain ⟨first, hrows, more, hmore, rfl⟩ := h
      obtain ⟨d, rfl, hd⟩ := hfirst first hrows
      obtain ⟨e, rfl, he⟩ := ih (by simp) hrest hmore
      refine ⟨⟨(d.withRole .addHits).rows ++ e.lead, e.terminal⟩, ?_, ?_⟩
      · rw [endingIn_rows, rows_append_lead]
      · simpa [List.countP_cons, Nat.add_comm, Nat.add_left_comm] using counts_cons hd he

/-- Operands that may be linked give clauses that may be linked. -/
theorem forall₂_join {cs : List Condition} {chains : List (List Row)}
    (h : List.Forall₂ (fun c rows => f c = .ok rows) cs chains)
    (hf : ∀ c ∈ cs, ∀ rows, f c = .ok rows → Row.Join rows (truth c) True) :
    List.Forall₂ (fun rows t => Row.Join rows t True) chains (cs.map truth) := by
  induction h with
  | nil => exact .nil
  | cons hrows hrest ih =>
    obtain ⟨hc, hcs⟩ := List.forall_mem_cons.mp hf
    exact .cons (hc _ hrows) (ih hcs)

/-- At most one element with a property, in front of those without: the others do not have it. -/
theorem forall_tail_of_filter {α : Type} {p : α → Bool} {xs : List α} {x : α} {rest : List α}
    (hone : (xs.filter p).length ≤ 1) (h : xs.filter p ++ xs.filter (!p ·) = x :: rest) :
    ∀ y ∈ rest, p y = false := by
  have hother : ∀ y ∈ xs.filter (!p ·), p y = false := by
    intro y hy
    simpa using (List.mem_filter.mp hy).2
  cases hcompound : xs.filter p with
  | nil =>
    rw [hcompound, List.nil_append] at h
    exact fun y hy => hother y (h ▸ List.mem_cons_of_mem x hy)
  | cons z more =>
    rw [hcompound, List.length_cons] at hone
    obtain rfl : more = [] := List.length_eq_zero_iff.mp (by omega)
    rw [hcompound, List.singleton_append, List.cons.injEq] at h
    exact h.2 ▸ hother

/-- What a chain of operands is made of: the chains of the operands, in an order in which only the
first may be a run of the other junction. -/
theorem joined_eq_ok {j : Junction} {cs : List Condition} (hne : cs ≠ []) {rows : List Row}
    (h : joined j (cs.map fun c => ⟨c.junction?, f c⟩) = .ok rows) :
    ∃ first rest head chains, (first :: rest).Perm cs ∧
      (∀ c ∈ rest, c.junction? ≠ some j.opposite) ∧ f first = .ok head ∧
      List.Forall₂ (fun c rows => f c = .ok rows) rest chains ∧
      rows = Row.endingIn .plain ((head :: chains).map (Row.endingIn j.link)).flatten := by
  let isCompound := fun c : Condition => decide (c.junction? = some j.opposite)
  have hperm : (cs.filter isCompound ++ cs.filter (!isCompound ·)).Perm cs :=
    List.filter_append_perm isCompound cs
  have hsimple : cs.filter (fun c => decide ¬ c.junction? = some j.opposite) =
      cs.filter (!isCompound ·) := by
    simp [isCompound]
  unfold joined at h
  simp only [List.filter_map, List.length_map, ← List.map_append, Function.comp_def] at h
  rw [hsimple] at h
  split at h
  · simp at h
  rename_i hone
  simp only [Lowered.bind_eq_ok, Lowered.pure_eq_ok, Lowered.mapM_eq_ok,
    List.forall₂_map_left_iff] at h
  obtain ⟨chains, hchains, rfl⟩ := h
  change List.Forall₂ _ (cs.filter isCompound ++ cs.filter (!isCompound ·)) chains at hchains
  cases hordered : cs.filter isCompound ++ cs.filter (!isCompound ·) with
  | nil =>
    rw [hordered] at hperm
    exact absurd hperm.symm.eq_nil hne
  | cons first rest =>
    rw [hordered] at hperm hchains
    obtain ⟨head, others, hhead, hothers, rfl⟩ := List.forall₂_cons_left_iff.mp hchains
    refine ⟨first, rest, head, others, hperm, fun c hc => ?_, hhead, hothers, rfl⟩
    simpa [isCompound] using forall_tail_of_filter (Nat.le_of_not_lt hone) hordered c hc

/-- **The chain of a junction** is as true as the junction of its operands, though a run of the
other junction among them moves to the front. -/
theorem join_joined {j : Junction} {cs : List Condition} (hne : cs ≠ [])
    (hf : ∀ c ∈ cs, ∀ rows, f c = .ok rows →
      Row.Join rows (truth c) (c.junction? ≠ some j.opposite)) {rows : List Row}
    (h : joined j (cs.map fun c => ⟨c.junction?, f c⟩) = .ok rows) :
    Row.Join rows (fun m => j.holds (cs.map (truth · m))) False := by
  obtain ⟨first, rest, head, chains, hperm, hsimple, hhead, hchains, rfl⟩ := joined_eq_ok hne h
  have hmem {c : Condition} (hc : c ∈ first :: rest) : c ∈ cs := hperm.mem_iff.mp hc
  have hrest := forall₂_join truth hchains fun c hc rows hrows =>
    (hf c (hmem (List.mem_cons_of_mem _ hc)) rows hrows).mono fun _ => hsimple c hc
  obtain ⟨c, hrows, hlinks⟩ := exists_links (hf first (hmem List.mem_cons_self) head hhead) hrest
  refine ⟨c, hrows, ?_⟩
  have htruth : (fun m => j.holds ((truth first :: rest.map truth).map (· m))) =
      fun m => j.holds (cs.map (truth · m)) := by
    funext m
    simpa [Function.comp_def] using Junction.holds_perm (hperm.map (truth · m))
  rw [← htruth]
  exact hlinks.joins

end Link

/-! ## Chains of trees -/

/-- The rows of a comparison are as true as it is. -/
theorem Comparison.join_toRows {options : CompileOptions} {comparison : Comparison}
    (hsound : comparison.IsSound) {rows : List Row} (h : comparison.toRows options = .ok rows) :
    Row.Join rows (fun m => comparison.truthIn m) True := by
  cases comparison with
  | rows rs =>
    cases h
    obtain ⟨c, rfl, hc⟩ := hsound
    have hjoins := hc.joins
    have hsplit : Clause.split c.rows = [c] := by
      have hterminal : c.terminal.role = .plain := hjoins.role
      have := Clause.split_rows_append (c := c) ⟨hjoins.lead, by rw [hterminal]; rfl⟩ []
      rwa [List.append_nil] at this
    refine ⟨c, rfl, ?_⟩
    simpa [Comparison.truthIn, hsplit] using hjoins
  | constant truth =>
    rw [toRows] at h
    split at h
    · cases h
      exact ⟨_, rfl, Clause.joins_constant truth⟩
    · simp at h

namespace Condition

/-- A run of a junction takes in everything joined by it. -/
theorem junction?_ne_of_mem_operands {j : Junction} {c d : Condition} (h : d ∈ c.operands j) :
    d.junction? ≠ some j := by
  fun_induction operands j c with
  | case1 a b hj iha ihb => exact (List.mem_append.mp h).elim iha ihb
  | case2 a b hj =>
    obtain rfl := List.mem_singleton.mp h
    simpa [junction?, eq_comm] using hj
  | case3 a b hj iha ihb => exact (List.mem_append.mp h).elim iha ihb
  | case4 a b hj =>
    obtain rfl := List.mem_singleton.mp h
    simpa [junction?, eq_comm] using hj
  | case5 l c hc ih => exact ih h
  | case6 l c hc =>
    obtain rfl := List.mem_singleton.mp h
    exact hc
  | case7 c hand hor hlocated =>
    obtain rfl := List.mem_singleton.mp h
    cases d <;> simp_all [junction?]

theorem isTree_of_mem_operands {j : Junction} {c d : Condition} (hc : c.isTree = true)
    (h : d ∈ c.operands j) : d.isTree = true := by
  fun_induction operands j c with
  | case1 a b hj iha ihb =>
    obtain ⟨ha, hb⟩ : a.isTree = true ∧ b.isTree = true := by simpa [isTree] using hc
    exact (List.mem_append.mp h).elim (iha ha) (ihb hb)
  | case2 => exact List.mem_singleton.mp h ▸ hc
  | case3 a b hj iha ihb =>
    obtain ⟨ha, hb⟩ : a.isTree = true ∧ b.isTree = true := by simpa [isTree] using hc
    exact (List.mem_append.mp h).elim (iha ha) (ihb hb)
  | case4 => exact List.mem_singleton.mp h ▸ hc
  | case5 l c _ ih => exact ih hc h
  | case6 => exact List.mem_singleton.mp h ▸ hc
  | case7 => exact List.mem_singleton.mp h ▸ hc

theorem operands_ne_nil (j : Junction) (c : Condition) : c.operands j ≠ [] := by
  fun_induction operands j c with
  | case1 a b hj iha ihb => simp [iha]
  | case2 => simp
  | case3 a b hj iha ihb => simp [iha]
  | case4 => simp
  | case5 l c _ ih => exact ih
  | case6 => simp
  | case7 => simp

/-- The operands of a run are true together as the run is. -/
theorem holds_operands (resolve : String → Option Size) (m : Memory) (j : Junction)
    (c : Condition) : j.holds ((c.operands j).map (truthIn resolve m)) = c.truthIn resolve m := by
  have hone (d : Condition) : j.holds ([d].map (truthIn resolve m)) = d.truthIn resolve m := by
    cases j <;> simp [Junction.holds]
  fun_induction operands j c with
  | case1 a b hj iha ihb =>
    cases hj
    rw [List.map_append, Junction.holds, List.all_append, truthIn, ← iha, ← ihb]
    rfl
  | case2 => exact hone _
  | case3 a b hj iha ihb =>
    cases hj
    rw [List.map_append, Junction.holds, List.any_append, truthIn, ← iha, ← ihb]
    rfl
  | case4 => exact hone _
  | case5 l c _ ih => exact ih
  | case6 => exact hone _
  | case7 => exact hone _

/-- The operands of a junction as links of a chain. -/
theorem attach_map_links (s : Setting) (cs : List Condition) :
    (cs.attach.map fun ⟨c, _⟩ => (⟨c.junction?, c.chainRows s⟩ : Link)) =
      cs.map fun c => ⟨c.junction?, c.chainRows s⟩ :=
  List.attach_map_val (f := fun c : Condition => (⟨c.junction?, c.chainRows s⟩ : Link))

/-- The chain of a run is as true as the run where those of its operands are. -/
theorem join_run {s : Setting} {j : Junction} {c : Condition}
    (hoperands : ∀ d ∈ c.operands j, ∀ rows, d.chainRows s = .ok rows →
      Row.Join rows (fun m => d.truthIn s.resolve m) (d.junction? = none)) {rows : List Row}
    (h : Link.joined j ((c.operands j).map fun d => ⟨d.junction?, d.chainRows s⟩) = .ok rows) :
    Row.Join rows (fun m => c.truthIn s.resolve m) False := by
  have hjoin := Link.join_joined (fun d m => d.truthIn s.resolve m) (operands_ne_nil j c)
    (fun d hd rows hrows => (hoperands d hd rows hrows).mono ?_) h
  · simpa only [holds_operands] using hjoin
  -- An operand of the run that is not a run of the other junction is no junction at all.
  · intro hopposite
    have hsame := junction?_ne_of_mem_operands hd
    cases hjunction : d.junction? with
    | none => rfl
    | some j' => cases j <;> cases j' <;> simp_all [Junction.opposite]

/-- **The chain of a tree is as true as the tree.** -/
theorem join_chainRows {s : Setting} {c : Condition} (hc : c.isTree = true) {rows : List Row}
    (h : c.chainRows s = .ok rows) :
    Row.Join rows (fun m => c.truthIn s.resolve m) (c.junction? = none) := by
  induction hn : sizeOf c using Nat.strongRecOn generalizing c rows with
  | ind n ih =>
    subst hn
    cases c with
    | located l c =>
      rw [chainRows, Lowered.located_eq_ok] at h
      exact ih (sizeOf c) (by simp only [located.sizeOf_spec]; omega) (c := c) hc h rfl
    | compare left relation right =>
      simp only [chainRows, Lowered.bind_eq_ok] at h
      obtain ⟨comparison, hcomparison, h⟩ := h
      have hjoin := Comparison.join_toRows (Comparison.ofValues_isSound hcomparison) h
      simpa only [truthIn, hcomparison] using hjoin.mono fun _ => trivial
    | literal truth =>
      rw [chainRows] at h
      cases h
      exact ⟨_, rfl, (Clause.joins_constant truth).mono fun _ => trivial⟩
    | and a b =>
      rw [chainRows, attach_map_links] at h
      refine (join_run (c := and a b) (fun d hd rows hrows => ?_) h).mono (by simp [junction?])
      exact ih (sizeOf d) (sizeOf_lt_of_mem_append hd) (isTree_of_mem_operands hc hd) hrows rfl
    | or a b =>
      rw [chainRows, attach_map_links] at h
      refine (join_run (c := or a b) (fun d hd rows hrows => ?_) h).mono (by simp [junction?])
      exact ih (sizeOf d) (sizeOf_lt_of_mem_append hd) (isTree_of_mem_operands hc hd) hrows rfl
    | _ => cases hc

/-! ## Parts that have to hold once -/

theorem resetBody?_of_isTree {c : Condition} (hc : c.isTree = true) : c.resetBody? = none := by
  fun_induction resetBody? c with
  | case1 c => cases hc
  | case2 l c ih => exact ih hc
  | case3 => rfl

theorem countedResets_of_isTree {c : Condition} (hc : c.isTree = true) :
    c.countedResets = [] := by
  refine List.filterMap_eq_nil_iff.mpr fun d hd => ?_
  exact resetBody?_of_isTree (isTree_of_mem_operands hc hd)

theorem countedParts_of_isTree {c : Condition} (hc : c.isTree = true) :
    c.countedParts = c.operands .and := by
  refine List.filter_eq_self.mpr fun d hd => ?_
  simp [resetBody?_of_isTree (isTree_of_mem_operands hc hd)]

/-- The rows of the conjuncts that are counted. -/
def countedRows (s : Setting) : List Condition → Lowered (List Row)
  | [] => Lowered.reject .noTruthyConditions
  | [part] =>
      if part.junction? = some .or then Link.summed ((part.operands .or).map (chainRows s))
      else part.chainRows s
  | parts => Link.joined .and (parts.map fun c => ⟨c.junction?, c.chainRows s⟩)

theorem attach_map_chainRows (s : Setting) (cs : List Condition) :
    (cs.attach.map fun ⟨c, _⟩ => c.chainRows s) = cs.map (chainRows s) :=
  List.attach_map_val (f := chainRows s)

theorem chainRows_repeated (s : Setting) (count : UInt32) (body : Condition) :
    (repeated count body).chainRows s =
      if count = 0 then Lowered.reject .zeroRepeatCount
      else (do
        let resets ← body.countedResets.mapM (chainRows s)
        let counted ← countedRows s body.countedParts
        pure ((resets.map (Row.endingIn .resetNextIf)).flatten ++
          Row.countingTo count (Row.endingIn .plain counted))) := by
  rw [chainRows]
  split
  · rfl
  rw [attach_map_chainRows, List.mapM_map]
  refine bind_congr fun resets => ?_
  dsimp only
  split
  · rename_i hparts
    rw [hparts, countedRows]
  · rename_i part hparts
    rw [hparts, countedRows]
    split
    · rw [attach_map_chainRows]
    · rfl
  · rename_i hnil hone
    rw [attach_map_links, countedRows]
    · exact hnil
    · exact hone

/-- The counted rows of a tree have a hit exactly when the tree is true.  The parts of a disjunction
count one by one, so that there may be more hits than one. -/
theorem count_countedRows {s : Setting} {body : Condition} (hbody : body.isTree = true)
    {rows : List Row} (h : countedRows s (body.operands .and) = .ok rows) :
    ∃ count, Row.Count rows count ∧ ∀ m, decide (0 < count m) = body.truthIn s.resolve m := by
  have hjoin (d : Condition) (hd : d.isTree = true) (rows : List Row)
      (hrows : d.chainRows s = .ok rows) := join_chainRows hd hrows
  have hpos (truth : Bool) : decide (0 < if truth then 1 else 0) = truth := by
    cases truth <;> rfl
  have htree := fun d => isTree_of_mem_operands (j := .and) (d := d) hbody
  have htruth := fun m => holds_operands s.resolve m .and body
  match hparts : body.operands .and with
  | [] => exact absurd hparts (operands_ne_nil .and body)
  | [part] =>
    rw [hparts] at h htree htruth
    have hpart : part.isTree = true := htree part List.mem_cons_self
    have hsame (m : Memory) : part.truthIn s.resolve m = body.truthIn s.resolve m := by
      simpa [Junction.holds] using htruth m
    rw [countedRows] at h
    split at h
    · have hcount := Link.count_summed (fun d m => d.truthIn s.resolve m)
        (operands_ne_nil .or part)
        (fun d hd rows hrows => hjoin d (isTree_of_mem_operands hpart hd) rows hrows) h
      refine ⟨_, hcount, fun m => ?_⟩
      rw [← hsame, ← holds_operands s.resolve m .or part, Bool.eq_iff_iff, decide_eq_true_iff,
        List.countP_pos_iff]
      simp [Junction.holds]
    · exact ⟨_, (join_chainRows hpart h).count, fun m => (hpos _).trans (hsame m)⟩
  | first :: second :: rest =>
    rw [hparts, countedRows, ← hparts] at h
    · have hrun := join_run (fun d hd rows hrows => hjoin d (htree d hd) rows hrows) h
      exact ⟨_, hrun.count, fun m => hpos _⟩
    · simp
    · simp

/-- **A tree that has to hold once holds when it is true.** -/
theorem mean_repeated {s : Setting} {body : Condition} (hbody : body.isTree = true)
    {rows : List Row} (h : (repeated 1 body).chainRows s = .ok rows) :
    Row.Mean rows .plain fun m => body.truthIn s.resolve m := by
  rw [chainRows_repeated, if_neg (by decide), countedResets_of_isTree hbody,
    countedParts_of_isTree hbody] at h
  simp only [List.mapM_nil, Lowered.bind_eq_ok, Lowered.pure_eq_ok] at h
  obtain ⟨resets, rfl, counted, hcounted, rfl⟩ := h
  obtain ⟨count, ⟨c, rfl, hc⟩, hcount⟩ := count_countedRows hbody hcounted
  refine ⟨c.withTarget 1, ?_, ?_⟩
  · rw [Clause.endingIn_rows, Clause.withRole_of_role_eq hc.role, Clause.countingTo_rows]
    rfl
  · simpa only [hcount] using hc.means

end Condition
end MemoryTrigger

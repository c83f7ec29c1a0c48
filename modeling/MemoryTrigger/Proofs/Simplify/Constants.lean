import MemoryTrigger.Proofs.GroupMeaning
import MemoryTrigger.Simplify.Constants

/-! # Settling comparisons keeps the meaning of a group

Rows in plainest form pass the same tests, as long as nothing is added to them and their reads are
not moved.  That is so for every row that does not stand right behind a modifier row, which is the
invariant that carries the induction over a chain (`ChainState.foldl_step_settled`).  Removing what
is settled then takes out clauses that never fire or always hold (`agreeIn_foldConstants`). -/
namespace MemoryTrigger

namespace Row

/-- The form of a row in its place. -/
def settled (afterModifier : Bool) (r : Row) : Row :=
  if r.isFree afterModifier then r.normalize else r

@[simp] theorem role_settled (afterModifier : Bool) (r : Row) :
    (r.settled afterModifier).role = r.role := by
  unfold settled
  split <;> simp

@[simp] theorem hits_settled (afterModifier : Bool) (r : Row) :
    (r.settled afterModifier).hits = r.hits := by
  unfold settled
  split <;> simp

@[simp] theorem isComparison_settled (afterModifier : Bool) (r : Row) :
    (r.settled afterModifier).isComparison = r.isComparison := by
  unfold settled
  split <;> simp

theorem value_normalizeRows_cons (afterModifier : Bool) (r : Row) (rest : List Row) :
    (normalizeRows afterModifier (r :: rest)).value =
      r.settled afterModifier :: (normalizeRows r.role.isModifier rest).value := by
  rw [normalizeRows]
  change Logged.value (if r.settled afterModifier ≠ r then _ else _) = _
  split <;> rfl

theorem exists_of_mem_normalizeRows {afterModifier : Bool} {rows : List Row} {s : Row}
    (h : s ∈ (normalizeRows afterModifier rows).value) :
    ∃ r ∈ rows, ∃ after, s = r.settled after := by
  induction rows generalizing afterModifier with
  | nil => cases h
  | cons r rest ih =>
    rw [value_normalizeRows_cons] at h
    rcases List.mem_cons.mp h with rfl | h
    · exact ⟨r, List.mem_cons_self, afterModifier, rfl⟩
    · obtain ⟨r', hr', hs⟩ := ih h
      exact ⟨r', List.mem_cons_of_mem _ hr', hs⟩

/-- A row without comparison is in its plainest form. -/
theorem settled_of_not_isComparison (afterModifier : Bool) {r : Row}
    (h : r.isComparison = false) : r.settled afterModifier = r := by
  simp [settled, normalize, h]

/-- Without links that drop out, a chain stays as it is. -/
theorem value_removeIdentityLinks {rows : List Row} (h : ∀ r ∈ rows, r.isIdentityLink = false)
    (previous : Option Row) : (removeIdentityLinks previous rows).value = rows := by
  induction rows generalizing previous with
  | nil => rfl
  | cons r rest ih =>
    have hr := h r List.mem_cons_self
    have hrest := ih (fun s hs => h s (List.mem_cons_of_mem _ hs)) (some r)
    simp [removeIdentityLinks, hr, hrest]

end Row

namespace ChainState
variable (m : Memory)

/-- A row that nothing has been prepared for passes the same test in its plainest form. -/
theorem truthOf_settled {afterModifier : Bool} {s : ChainState} (r : Row)
    (h : afterModifier = false → s.base = 0 ∧ s.sum = 0) :
    s.truthOf m (r.settled afterModifier) = s.truthOf m r := by
  unfold Row.settled
  split
  · rename_i hfree
    have hfree : afterModifier = false := by simpa using (Bool.and_eq_true_iff.mp hfree).1
    rw [truthOf, truthOf, (h hfree).2, Row.testIn_normalize]
  · rfl

/-- A combining row prepares the same in its plainest form, if it is a modifier without
comparison or hands on a truth value. -/
theorem step_settled {afterModifier : Bool} {s : ChainState} {r : Row}
    (h : afterModifier = false → s.base = 0 ∧ s.sum = 0)
    (hmodifier : r.role.isModifier = true → r.isComparison = false) :
    s.step m (r.settled afterModifier) = s.step m r := by
  cases hrole : r.role.isModifier with
  | true => rw [Row.settled_of_not_isComparison _ (hmodifier hrole)]
  | false =>
    have htruth := truthOf_settled m r h
    unfold step
    rw [Row.role_settled]
    split
    · simp [*, Role.isModifier] at hrole
    · simp [*, Role.isModifier] at hrole
    · simp [*, Role.isModifier] at hrole
    all_goals first | rw [htruth] | rfl

/-- Only modifier rows move the reads of the next row or add to it. -/
theorem step_of_not_isModifier (s : ChainState) {r : Row} (h : r.role.isModifier = false) :
    (s.step m r).base = 0 ∧ (s.step m r).sum = 0 := by
  unfold step
  split <;> simp_all [Role.isModifier]

end ChainState

namespace Clause

/-- A clause with every row in its plainest form. -/
def settledFrom (afterModifier : Bool) : List Row → Row → Clause
  | [], t => ⟨[], t.settled afterModifier⟩
  | r :: lead, t =>
      let rest := settledFrom r.role.isModifier lead t
      ⟨r.settled afterModifier :: rest.lead, rest.terminal⟩

/-- The clause of rows in their plainest form. -/
def settled (c : Clause) : Clause := settledFrom false c.lead c.terminal

theorem role_settledFrom (afterModifier : Bool) (lead : List Row) (t : Row) :
    (settledFrom afterModifier lead t).role = t.role := by
  induction lead generalizing afterModifier with
  | nil => simp [settledFrom, role]
  | cons r lead ih => exact ih r.role.isModifier

theorem hits_settledFrom (afterModifier : Bool) (lead : List Row) (t : Row) :
    (settledFrom afterModifier lead t).terminal.hits = t.hits := by
  induction lead generalizing afterModifier with
  | nil => simp [settledFrom]
  | cons r lead ih => exact ih r.role.isModifier

theorem rows_settledFrom (afterModifier : Bool) (lead : List Row) (t : Row) :
    (settledFrom afterModifier lead t).rows =
      (Row.normalizeRows afterModifier (lead ++ [t])).value := by
  induction lead generalizing afterModifier with
  | nil =>
    rw [List.nil_append, Row.value_normalizeRows_cons]
    rfl
  | cons r lead ih =>
    rw [List.cons_append, Row.value_normalizeRows_cons, ← ih]
    rfl

theorem IsTerminated.settledFrom {lead : List Row} {t : Row} (h : IsTerminated ⟨lead, t⟩)
    (afterModifier : Bool) : (settledFrom afterModifier lead t).IsTerminated := by
  induction lead generalizing afterModifier with
  | nil =>
    refine ⟨fun _ hr => absurd hr List.not_mem_nil, ?_⟩
    simpa [Clause.settledFrom] using h.terminal
  | cons r lead ih =>
    obtain ⟨hr, hlead⟩ := List.forall_mem_cons.mp h.lead
    obtain ⟨hlead', hterminal'⟩ := ih ⟨hlead, h.terminal⟩ r.role.isModifier
    refine ⟨List.forall_mem_cons.mpr ⟨?_, hlead'⟩, hterminal'⟩
    rw [Row.role_settled]
    exact hr

/-- **A chain in its plainest form means what it meant.**  What is prepared for a row that does not
stand behind a modifier row is neither a sum nor an offset. -/
theorem foldl_step_settledFrom (m : Memory) {afterModifier : Bool} {lead : List Row} (t : Row)
    {s : ChainState} (h : afterModifier = false → s.base = 0 ∧ s.sum = 0)
    (hmodifier : ∀ r ∈ lead, r.role.isModifier = true → r.isComparison = false) :
    let c := settledFrom afterModifier lead t
    c.lead.foldl (ChainState.step m) s = lead.foldl (ChainState.step m) s ∧
      (lead.foldl (ChainState.step m) s).truthOf m c.terminal =
        (lead.foldl (ChainState.step m) s).truthOf m t := by
  induction lead generalizing afterModifier s with
  | nil => exact ⟨rfl, ChainState.truthOf_settled m t h⟩
  | cons r lead ih =>
    have hstep := ChainState.step_settled m h (hmodifier r List.mem_cons_self)
    have hnext : r.role.isModifier = false → (s.step m r).base = 0 ∧ (s.step m r).sum = 0 :=
      s.step_of_not_isModifier m
    obtain ⟨hlead, hterminal⟩ := ih hnext fun r' hr' => hmodifier r' (List.mem_cons_of_mem _ hr')
    simp only [settledFrom, List.foldl_cons, hstep]
    exact ⟨hlead, hterminal⟩

theorem holdsIn_settled (m : Memory) {c : Clause}
    (h : ∀ r ∈ c.lead, r.role.isModifier = true → r.isComparison = false) :
    c.settled.holdsIn m = c.holdsIn m := by
  have hnone : false = false → (ChainState.base {} = 0 ∧ ChainState.sum {} = 0) :=
    fun _ => ⟨rfl, rfl⟩
  obtain ⟨hlead, hterminal⟩ := foldl_step_settledFrom m c.terminal hnone h
  have hstate : c.settled.stateIn m = c.stateIn m := hlead
  have htruth : (c.stateIn m).truthOf m c.settled.terminal = (c.stateIn m).truthOf m c.terminal :=
    hterminal
  have hhits : c.settled.terminal.hits = c.terminal.hits := hits_settledFrom false c.lead c.terminal
  rw [holdsIn_eq, holdsIn_eq, hhits, hstate, htruth]

/-! ## Splitting settled rows -/

/-- Settling rows settles the clauses that they make up. -/
theorem split_normalizeRows (afterModifier : Bool) (rows : List Row) :
    split (Row.normalizeRows afterModifier rows).value =
      match split rows with
      | [] => []
      | c :: cs => settledFrom afterModifier c.lead c.terminal :: cs.map settled := by
  induction rows generalizing afterModifier with
  | nil => rfl
  | cons r rest ih =>
    rw [Row.value_normalizeRows_cons, split, split, Row.role_settled, ih]
    split
    · cases split rest with
      | nil => rfl
      | cons c cs => rfl
    · rename_i hcombining
      have hmodifier : r.role.isModifier = false := by
        revert hcombining
        cases r.role <;> simp [Role.isCombining, Role.isModifier]
      rw [hmodifier]
      cases split rest with
      | nil => rfl
      | cons c cs => rfl

theorem split_normalizeRows_false (rows : List Row) :
    split (Row.normalizeRows false rows).value = (split rows).map settled := by
  rw [split_normalizeRows]
  cases split rows with
  | nil => rfl
  | cons c cs => rfl

/-! ## Settled clauses -/

section Folding
variable (m : Memory)

/-- Clauses may be exchanged for others of their role that hold alike. -/
theorem agreeIn_map {f : Clause → Clause} {group : List Clause}
    (h : ∀ c ∈ group, (f c).role = c.role ∧ (f c).holdsIn m = c.holdsIn m) :
    AgreeIn m (group.map f) group := by
  have hexists (role : Role) : (∃ c ∈ group.map f, c.role = role ∧ c.holdsIn m = true) ↔
      ∃ c ∈ group, c.role = role ∧ c.holdsIn m = true := by
    constructor
    · rintro ⟨_, hc, hrole, hholds⟩
      obtain ⟨c, hmem, rfl⟩ := List.mem_map.mp hc
      exact ⟨c, hmem, (h c hmem).1 ▸ hrole, (h c hmem).2 ▸ hholds⟩
    · rintro ⟨c, hc, hrole, hholds⟩
      exact ⟨f c, List.mem_map_of_mem hc, (h c hc).1.trans hrole, (h c hc).2.trans hholds⟩
  refine .of_iff (hexists _) (hexists _) ?_
  rw [List.forall_mem_map]
  exact forall₂_congr fun c hc => by rw [(h c hc).1, (h c hc).2]

theorem holdsIn_of_isFiller {c : Clause} (h : c.isFiller = true) : c.holdsIn m = true := by
  obtain ⟨hplain, hconstant⟩ := Bool.and_eq_true_iff.mp h
  exact holdsIn_of_constant?_true m (by simpa using hconstant) (hits_terminal_of_isPlain hplain)

/-- Only fillers are dropped. -/
theorem mem_dropFillers {settled : Bool} {group : List Clause} {c : Clause} :
    (c ∈ dropFillers settled group → c ∈ group) ∧
      (c ∈ group → c.isFiller = false → c ∈ dropFillers settled group) := by
  induction group generalizing settled with
  | nil => simp [dropFillers]
  | cons d rest ih =>
    unfold dropFillers
    grind

theorem agreeIn_dropFillers (settled : Bool) (group : List Clause) :
    AgreeIn m (dropFillers settled group) group := by
  refine .of_subset (fun c => mem_dropFillers.1) fun c hc hdropped => ?_
  cases hfiller : c.isFiller with
  | true =>
    rw [passesIn_plain m (role_of_isPlain (Bool.and_eq_true_iff.mp hfiller).1),
      holdsIn_of_isFiller m hfiller]
  | false => exact absurd (mem_dropFillers.2 hc hfiller) hdropped

/-- Guards that never fire may go. -/
theorem agreeIn_filter_neverFires (group : List Clause) :
    AgreeIn m (group.filter fun c => !c.neverFires) group := by
  refine .of_subset (fun c hc => (List.mem_filter.mp hc).1) fun c hc hdropped => ?_
  cases hnever : c.neverFires with
  | true =>
    obtain ⟨hguard, hconstant⟩ := Bool.and_eq_true_iff.mp hnever
    rw [passesIn_guard m hguard, holdsIn_of_constant?_false m (by simpa using hconstant)]
    rfl
  | false => exact absurd (List.mem_filter.mpr ⟨hc, by simp [hnever]⟩) hdropped

/-- Of a group that never holds only the guards matter. -/
theorem agreeIn_of_any_neverHolds {group : List Clause} (h : group.any neverHolds = true) :
    AgreeIn m (group.filter isGuard ++ [single .alwaysFalse]) group := by
  obtain ⟨c, hc, hnever⟩ := List.any_eq_true.mp h
  obtain ⟨hplain, hconstant⟩ : c.role = .plain ∧ c.constant? = some false := by
    simpa [neverHolds] using hnever
  have hexists {role : Role} (hrole : role.isGuard = true) :
      (∃ c ∈ group.filter isGuard ++ [single .alwaysFalse], c.role = role ∧ c.holdsIn m = true) ↔
        ∃ c ∈ group, c.role = role ∧ c.holdsIn m = true := by
    constructor
    · rintro ⟨c, hc, hc', hholds⟩
      rcases List.mem_append.mp hc with hc | hc
      · exact ⟨c, (List.mem_filter.mp hc).1, hc', hholds⟩
      · simp [List.mem_singleton.mp hc] at hholds
    · rintro ⟨c, hc, rfl, hholds⟩
      exact ⟨c, List.mem_append_left _ (List.mem_filter.mpr ⟨hc, hrole⟩), rfl, hholds⟩
  refine .of_iff (hexists rfl) (hexists rfl) (iff_of_false (fun hall => ?_) fun hall => ?_)
  · have hfalse := hall (single .alwaysFalse) (by simp) rfl
    simp at hfalse
  · have hfalse := hall c hc (by rw [hplain]; rfl)
    simp [holdsIn_of_constant?_false m hconstant] at hfalse

/-- What is left of a group are clauses of it that may fire, and `0=1`. -/
theorem mem_foldConstants {group : List Clause} {c : Clause} (h : c ∈ foldConstants group) :
    c = single .alwaysFalse ∨ (c ∈ group ∧ c.neverFires = false) := by
  have hkept {d : Clause} (hd : d ∈ group.filter fun c => !c.neverFires) :
      d ∈ group ∧ d.neverFires = false := by
    simpa using hd
  unfold foldConstants at h
  simp only at h
  split at h
  · rcases List.mem_append.mp h with h | h
    · exact .inr (hkept (List.mem_filter.mp h).1)
    · exact .inl (List.mem_singleton.mp h)
  · exact .inr (hkept (mem_dropFillers.1 h))

/-- **Removing what is settled changes nothing about a group.** -/
theorem agreeIn_foldConstants (group : List Clause) : AgreeIn m (foldConstants group) group := by
  refine AgreeIn.trans ?_ (agreeIn_filter_neverFires m group)
  unfold foldConstants
  simp only
  split
  · exact agreeIn_of_any_neverHolds m ‹_›
  · exact agreeIn_dropFillers m _ _

/-- A filter that never holds makes a group of filters `0=1`. -/
theorem foldConstants_of_neverHolds {group : List Clause} (h : ∀ c ∈ group, c.role = .plain)
    {c : Clause} (hc : c ∈ group) (hnever : c.neverHolds = true) :
    foldConstants group = [single .alwaysFalse] := by
  have hguard : ∀ d ∈ group, d.isGuard = false := fun d hd => isGuard_of_plain (h d hd)
  have hfires : group.filter (fun d => !d.neverFires) = group :=
    List.filter_eq_self.mpr fun d hd => by simp [neverFires, hguard d hd]
  have hnone : group.filter isGuard = [] :=
    List.filter_eq_nil_iff.mpr fun d hd => by simp [hguard d hd]
  simp only [foldConstants, hfires, hnone]
  exact if_pos (List.any_eq_true.mpr ⟨c, hc, hnever⟩)

theorem foldConstants_replicate_alwaysTrue (n : Nat) :
    foldConstants (List.replicate (n + 1) (single .alwaysTrue)) = [single .alwaysTrue] := by
  have hdrop : dropFillers true (List.replicate n (single .alwaysTrue)) = [] := by
    induction n with
    | zero => rfl
    | succ n ih => exact ih
  have hkept : (List.replicate (n + 1) (single .alwaysTrue)).filter (fun c => !c.neverFires) =
      List.replicate (n + 1) (single .alwaysTrue) := List.filter_replicate_of_pos rfl
  have hholds : (List.replicate (n + 1) (single .alwaysTrue)).any neverHolds = false := by
    rw [List.any_replicate]
    rfl
  simp only [foldConstants, hkept, hholds, List.any_replicate]
  exact congrArg (single .alwaysTrue :: ·) hdrop

end Folding

end Clause
namespace ClauseGroups
open Clause

/-- What the first pass makes of the rows of a group. -/
def settledClauses (rows : List Row) : List Clause :=
  foldConstants (split (Row.removeIdentityLinks none (Row.normalizeRows false rows).value).value)

theorem trigger_normalizeComparisons (t : Trigger) :
    (normalizeComparisons.run t).trigger =
      toTrigger ⟨settledClauses t.core, t.alternates.map settledClauses⟩ := by
  simp only [normalizeComparisons, Logged.value_each, List.map_map, toTrigger]
  rfl

/-- Without links, the first pass works clause by clause. -/
theorem settledClauses_eq {rows : List Row}
    (h : ∀ r ∈ rows, r.role.isCombining = true → r.role.isModifier = true) :
    settledClauses rows = foldConstants ((split rows).map settled) := by
  have hlinks : ∀ s ∈ (Row.normalizeRows false rows).value, s.isIdentityLink = false := by
    intro s hs
    obtain ⟨r, hr, after, rfl⟩ := Row.exists_of_mem_normalizeRows hs
    have hrole := h r hr
    unfold Row.isIdentityLink
    rw [Row.role_settled]
    cases hr : r.role <;> simp_all [Role.isCombining, Role.isModifier]
  rw [settledClauses, Row.value_removeIdentityLinks hlinks, split_normalizeRows_false]

theorem settledClauses_of_plain {rows : List Row} (h : ∀ r ∈ rows, r.role = .plain) :
    settledClauses rows = foldConstants (rows.map fun r => single r.normalize) := by
  have hsettled : ∀ r ∈ rows, (single r).settled = single r.normalize := by
    intro r hr
    have hfree : r.settled false = r.normalize :=
      if_pos (by simp [Row.isFree, h r hr, Role.isMeasured])
    exact congrArg single hfree
  rw [settledClauses_eq fun r hr hcombining => by simp [h r hr, Role.isCombining] at hcombining,
    split_of_plain h, List.map_map]
  exact congrArg foldConstants (List.map_congr_left hsettled)

end ClauseGroups
end MemoryTrigger

import MemoryTrigger.Proofs.Lowering.HitTargets

/-! # Counted conditions inside chains

The rows of a counted condition stand in a chain like those of any operand, though they may be
linked among themselves, and though the parts of a counted disjunction lend their hits to whatever
row ends the chain.  `Condition.outcome` says what a chain of conditions that have to hold once
comes to when its rows are taken strictly in order, and the chain holds exactly when that says so
(`Condition.holdsIn_chain_of_isOnce`).  This is the truth of the condition where every run starts
its chain or goes on with the junction that is pending, and where hits are lent only to a row that
counts (`Condition.isWellLinked`). -/
namespace MemoryTrigger

/-! ## What a chain comes to -/

/-- A truth joined to the one that is pending. -/
def joinedTo (p : Option (Junction × Bool)) (truth : Bool) : Bool :=
  ({ pending := p } : ChainState).joined truth

/-- What a chain comes to: the truth of its last row, joined to what was pending, and the hits that
its other rows lend. -/
structure ChainOutcome where
  truth : Bool
  lent : Nat
  deriving DecidableEq, Repr

/-- Whether there is a hit, lent or of the last row. -/
def ChainOutcome.hasHit (o : ChainOutcome) : Bool := o.truth || decide (0 < o.lent)

/-- How a chain is tied to the next one: it hands on its truth, or lends it as a hit. -/
inductive Tie where
  | link (j : Junction)
  | hits
  deriving DecidableEq, Repr

namespace Tie

/-- The role of the last row of a chain that is tied. -/
def role : Tie → Role
  | link j => j.link
  | hits => .addHits

/-- How the truths of tied chains are meant to be joined. -/
def junction : Tie → Junction
  | link j => j
  | hits => .or

/-- The junction that is pending in front of the next chain. -/
def pendingJunction : Tie → Option Junction
  | link j => some j
  | hits => none

/-- What is pending in front of the next chain. -/
def pending : Tie → ChainOutcome → Option (Junction × Bool)
  | link j, o => some (j, o.truth)
  | hits, _ => none

/-- The hits that are lent to the next chain. -/
def lent : Tie → ChainOutcome → Nat
  | link _, o => o.lent
  | hits, o => o.lent + o.truth.toNat

/-- What chains come to that are tied one behind another. -/
def outcome (tie : Tie) :
    List (Option (Junction × Bool) → ChainOutcome) → Option (Junction × Bool) → ChainOutcome
  | [], _ => ⟨false, 0⟩
  | [last], p => last p
  | first :: rest, p =>
      let o := first p
      let o' := tie.outcome rest (tie.pending o)
      ⟨o'.truth, tie.lent o + o'.lent⟩

theorem map_fst_pending (tie : Tie) (o : ChainOutcome) :
    (tie.pending o).map Prod.fst = tie.pendingJunction := by
  cases tie <;> rfl

end Tie

namespace Condition

/-- Comparisons and literals that are joined and have to hold once, in any way. -/
def isOnce : Condition → Bool
  | compare _ _ _ | literal _ => true
  | and a b | or a b => a.isOnce && b.isOnce
  | located _ c => c.isOnce
  | repeated count c => count == 1 && c.isOnce
  | _ => false

/-- The conditions whose chains make up that of a condition, in the order of their rows, and how
they are tied. -/
def parts : Condition → Option (Tie × List Condition)
  | and a b => some (.link .and, linkOrder .and (a.operands .and ++ b.operands .and))
  | or a b => some (.link .or, linkOrder .or (a.operands .or ++ b.operands .or))
  | located _ c => c.parts
  | repeated _ body =>
      if body.junction? = some .or then some (.hits, body.operands .or) else body.parts
  | _ => none

/-- What tied parts have to do with their condition. -/
structure ArePartsOf (tie : Tie) (ds : List Condition) (c : Condition) : Prop where
  ne_nil : ds ≠ []
  small : ∀ d ∈ ds, sizeOf d < sizeOf c
  truth : ∀ resolve m, tie.junction.holds (ds.map (truthIn resolve m)) = c.truthIn resolve m

theorem arePartsOf_join (j : Junction) (a b : Condition) :
    ArePartsOf (.link j) (linkOrder j ((j.join a b).operands j)) (j.join a b) := by
  have hperm := linkOrder_perm j ((j.join a b).operands j)
  refine ⟨fun hnil => ?_, fun d hd => ?_, fun resolve m => ?_⟩
  · rw [hnil] at hperm
    exact operands_ne_nil j _ hperm.nil_eq.symm
  · have hsize := sizeOf_lt_of_mem_append (operands_join j a b ▸ mem_linkOrder.mp hd)
    cases j <;> exact hsize
  · rw [← holds_operands resolve m j]
    exact Junction.holds_perm (hperm.map _)

theorem arePartsOf_of_parts {c : Condition} {tie : Tie} {ds : List Condition}
    (h : c.parts = some (tie, ds)) : ArePartsOf tie ds c := by
  fun_induction parts c with
  | case1 a b =>
    cases h
    exact operands_join .and a b ▸ arePartsOf_join .and a b
  | case2 a b =>
    cases h
    exact operands_join .or a b ▸ arePartsOf_join .or a b
  | case3 l c ih =>
    obtain ⟨hne, hsmall, htruth⟩ := ih h
    refine ⟨hne, fun d hd => ?_, htruth⟩
    have := hsmall d hd
    simp only [located.sizeOf_spec]
    omega
  | case4 count body hor =>
    cases h
    refine ⟨operands_ne_nil .or body, fun d hd => ?_, fun resolve m => ?_⟩
    · exact sizeOf_lt_repeated (sizeOf_le_of_mem_operands hd)
    · exact holds_operands resolve m .or body
  | case5 count body hor ih =>
    obtain ⟨hne, hsmall, htruth⟩ := ih h
    exact ⟨hne, fun d hd => sizeOf_lt_repeated (Nat.le_of_lt (hsmall d hd)), htruth⟩
  | case6 => cases h

/-- **What the chain of a condition comes to**, row by row, behind what is pending. -/
def outcome (resolve : String → Option Size) (m : Memory) (c : Condition)
    (p : Option (Junction × Bool)) : ChainOutcome :=
  match _h : c.parts with
  | none => ⟨joinedTo p (c.truthIn resolve m), 0⟩
  | some (tie, ds) => tie.outcome (ds.attach.map fun ⟨d, _hd⟩ => d.outcome resolve m) p
termination_by sizeOf c
decreasing_by exact (arePartsOf_of_parts _h).small d _hd

/-- Whether the chain of a condition joins its truth to what is pending behind a `junction`.  If it
may lend hits, one that is lent counts as well. -/
def linksTo (c : Condition) (lends : Bool) (junction : Option Junction) : Bool :=
  match _h : c.parts with
  | some (tie, first :: rest) =>
      let lends' := lends && tie.junction = .or
      junction ≠ some tie.junction.opposite && (lends || tie ≠ .hits) &&
        first.linksTo lends' junction &&
        rest.attach.all fun ⟨d, _hd⟩ => d.linksTo lends' tie.pendingJunction
  | _ => true
termination_by sizeOf c
decreasing_by
  · exact (arePartsOf_of_parts _h).small first List.mem_cons_self
  · exact (arePartsOf_of_parts _h).small d (List.mem_cons_of_mem first _hd)

theorem outcome_of_parts_eq_none {c : Condition} (h : c.parts = none)
    (resolve : String → Option Size) (m : Memory) (p : Option (Junction × Bool)) :
    c.outcome resolve m p = ⟨joinedTo p (c.truthIn resolve m), 0⟩ := by
  rw [outcome]
  split
  · rfl
  · rename_i hparts
    rw [h] at hparts
    cases hparts

theorem outcome_of_parts {c : Condition} {tie : Tie} {ds : List Condition}
    (h : c.parts = some (tie, ds)) (resolve : String → Option Size) (m : Memory)
    (p : Option (Junction × Bool)) :
    c.outcome resolve m p = tie.outcome (ds.map (outcome resolve m)) p := by
  rw [outcome]
  split
  · rename_i hparts
    rw [h] at hparts
    cases hparts
  · rename_i hparts
    rw [h] at hparts
    cases hparts
    rw [List.attach_map_val (f := outcome resolve m)]

/-- What a chain comes to depends on its parts, and on the truth of a condition that has none. -/
theorem outcome_congr {c d : Condition} (hparts : c.parts = d.parts)
    {resolve : String → Option Size} {m : Memory}
    (htruth : c.truthIn resolve m = d.truthIn resolve m) :
    c.outcome resolve m = d.outcome resolve m := by
  funext p
  cases h : d.parts with
  | none =>
    rw [outcome_of_parts_eq_none (hparts.trans h), outcome_of_parts_eq_none h, htruth]
  | some found => rw [outcome_of_parts (hparts.trans h), outcome_of_parts h]

theorem linksTo_of_parts {c first : Condition} {tie : Tie} {rest : List Condition}
    (h : c.parts = some (tie, first :: rest)) {lends : Bool} {junction : Option Junction}
    (hc : c.linksTo lends junction = true) :
    junction ≠ some tie.junction.opposite ∧ (tie = .hits → lends = true) ∧
      first.linksTo (lends && tie.junction = .or) junction = true ∧
      ∀ d ∈ rest, d.linksTo (lends && tie.junction = .or) tie.pendingJunction = true := by
  rw [linksTo] at hc
  split at hc
  · rename_i hparts
    rw [h] at hparts
    cases hparts
    simpa [and_assoc, or_comm, imp_iff_not_or] using hc
  · rename_i hparts
    exact absurd h (hparts _ _ _)

/-! ## Where a chain comes to the truth -/

end Condition

/-- Two truths of one junction are joined one after the other. -/
theorem joinedTo_holds {j : Junction} {p : Option (Junction × Bool)}
    (hp : p.map Prod.fst ≠ some j.opposite) (v v' : Bool) :
    joinedTo p (j.holds [v, v']) = joinedTo (some (j, joinedTo p v)) v' := by
  cases p with
  | none => cases j <;> cases v <;> cases v' <;> rfl
  | some q =>
    obtain ⟨j', previous⟩ := q
    have hne : j' ≠ j.opposite := by simpa using hp
    cases j <;> cases j' <;> first
      | exact absurd rfl hne
      | (cases v <;> cases v' <;> cases previous <;> rfl)

namespace ChainOutcome

/-- A chain that comes to a truth.  It lends nothing unless it may. -/
structure Says (o : ChainOutcome) (lends : Bool) (truth : Bool) : Prop where
  hasHit_eq : o.hasHit = truth
  lent_eq : lends = false → o.lent = 0

theorem Says.truth_eq {o : ChainOutcome} {truth : Bool} (h : o.Says false truth) :
    o.truth = truth := by
  rw [← h.hasHit_eq, ChainOutcome.hasHit, h.lent_eq rfl]
  simp

theorem hasHit_lend (o : ChainOutcome) (n : Nat) :
    hasHit ⟨o.truth, n + o.lent⟩ = (o.hasHit || decide (0 < n)) := by
  have hsum : decide (0 < n + o.lent) = (decide (0 < o.lent) || decide (0 < n)) := by
    rw [Bool.eq_iff_iff, Bool.or_eq_true, decide_eq_true_iff, decide_eq_true_iff,
      decide_eq_true_iff]
    omega
  rw [hasHit, hasHit, hsum, Bool.or_assoc]

/-- One more chain in front.  Behind `andNext` it must not lend, as a hit that is lent counts
whatever comes next; otherwise its hits and its truth come to the same. -/
theorem Says.tie {tie : Tie} {lends : Bool} (hlends : tie = .hits → lends = true)
    {p : Option (Junction × Bool)} (hp : p.map Prod.fst ≠ some tie.junction.opposite)
    {o o' : ChainOutcome} {v v' : Bool}
    (h : o.Says (lends && tie.junction = .or) (joinedTo p v))
    (h' : o'.Says lends (joinedTo (tie.pending o) v')) :
    Says ⟨o'.truth, tie.lent o + o'.lent⟩ lends (joinedTo p (tie.junction.holds [v, v'])) := by
  rw [joinedTo_holds hp]
  cases tie with
  | link j =>
    cases j with
    | and =>
      have h : o.Says false (joinedTo p v) := by simpa [Tie.junction] using h
      have hlent : Tie.lent (.link .and) o + o'.lent = o'.lent := by
        rw [Tie.lent, h.lent_eq rfl, Nat.zero_add]
      rw [hlent, Tie.junction, ← h.truth_eq]
      exact h'
    | or =>
      have h : o.Says lends (joinedTo p v) := by simpa [Tie.junction] using h
      refine ⟨?_, fun hnone => ?_⟩
      · rw [hasHit_lend, h'.hasHit_eq, ← h.hasHit_eq]
        exact Bool.or_assoc _ _ _
      · rw [Tie.lent, h.lent_eq hnone, h'.lent_eq hnone]
  | hits =>
    obtain rfl : lends = true := hlends rfl
    refine ⟨?_, fun hnone => by cases hnone⟩
    have hhits : decide (0 < o.lent + o.truth.toNat) = o.hasHit := by
      rw [hasHit]
      cases o.truth <;> simp
    rw [hasHit_lend, h'.hasHit_eq, Tie.junction, ← h.hasHit_eq, ← hhits]
    rfl

/-- **Chains that are tied come to the junction of their truths**, if each of them does behind what
is pending there. -/
theorem says_outcome {tie : Tie} {lends : Bool} (hlends : tie = .hits → lends = true)
    {p : Option (Junction × Bool)} (hp : p.map Prod.fst ≠ some tie.junction.opposite)
    {first : Option (Junction × Bool) → ChainOutcome} {v : Bool}
    (hfirst : (first p).Says (lends && tie.junction = .or) (joinedTo p v))
    {rest : List (Option (Junction × Bool) → ChainOutcome)} {vs : List Bool}
    (hrest : List.Forall₂ (fun f v => ∀ p, p.map Prod.fst = tie.pendingJunction →
      (f p).Says (lends && tie.junction = .or) (joinedTo p v)) rest vs) :
    (tie.outcome (first :: rest) p).Says lends (joinedTo p (tie.junction.holds (v :: vs))) := by
  induction hrest generalizing first p v with
  | nil =>
    have hone : tie.junction.holds [v] = v := by
      cases tie.junction <;> simp [Junction.holds]
    rw [hone]
    exact ⟨hfirst.hasHit_eq, fun hnone => hfirst.lent_eq (by simp [hnone])⟩
  | cons hnext hothers ih =>
    rename_i f v' rest vs
    have hpending := tie.map_fst_pending (first p)
    have hpending' : (tie.pending (first p)).map Prod.fst ≠ some tie.junction.opposite := by
      rw [hpending]
      cases tie with
      | link j => cases j <;> simp [Tie.pendingJunction, Tie.junction, Junction.opposite]
      | hits => simp [Tie.pendingJunction]
    have hholds : tie.junction.holds (v :: v' :: vs) =
        tie.junction.holds [v, tie.junction.holds (v' :: vs)] := by
      cases tie.junction <;> simp [Junction.holds]
    rw [hholds]
    exact hfirst.tie hlends hp (ih hpending' (hnext _ hpending))

end ChainOutcome

namespace Condition

/-- **A condition whose chain links to what is pending comes to its truth there.** -/
theorem says_of_linksTo (resolve : String → Option Size) (m : Memory) {c : Condition}
    {lends : Bool} {junction : Option Junction} (hc : c.linksTo lends junction = true)
    {p : Option (Junction × Bool)} (hp : p.map Prod.fst = junction) :
    (c.outcome resolve m p).Says lends (joinedTo p (c.truthIn resolve m)) := by
  induction hn : sizeOf c using Nat.strongRecOn generalizing c lends junction p with
  | ind n ih =>
    subst hn
    cases h : c.parts with
    | none =>
      rw [outcome_of_parts_eq_none h]
      exact ⟨by simp [ChainOutcome.hasHit], fun _ => rfl⟩
    | some found =>
      obtain ⟨tie, ds⟩ := found
      obtain ⟨hne, hsmall, htruth⟩ := arePartsOf_of_parts h
      obtain ⟨first, rest, rfl⟩ := List.exists_cons_of_ne_nil hne
      obtain ⟨hjunction, hlends, hfirst, hrest⟩ := linksTo_of_parts h hc
      rw [outcome_of_parts h, ← htruth]
      refine ChainOutcome.says_outcome hlends (hp ▸ hjunction)
        (ih _ (hsmall first List.mem_cons_self) hfirst hp rfl) ?_
      rw [List.forall₂_map_left_iff, List.forall₂_map_right_iff, List.forall₂_same]
      exact fun d hd p hp => ih _ (hsmall d (List.mem_cons_of_mem first hd)) (hrest d hd) hp rfl

end Condition

/-! ## Rows that come to an outcome -/

namespace Clause

/-- A clause that comes to an outcome, whatever is pending. -/
structure Yields (c : Clause) (o : Memory → Option (Junction × Bool) → ChainOutcome) : Prop where
  lead : ∀ r ∈ c.lead, r.role.isCombining = true
  role : c.role = .plain
  yields : ∀ m (s : ChainState), s.IsFresh →
    (c.lead.foldl (ChainState.step m) s).truthOf m c.terminal = (o m s.pending).truth ∧
      (c.lead.foldl (ChainState.step m) s).hits = s.hits + (o m s.pending).lent

theorem Joins.yields {c : Clause} {truth : Memory → Bool} (h : c.Joins truth True) :
    c.Yields fun m p => ⟨joinedTo p (truth m), 0⟩ := by
  refine ⟨h.lead, h.role, fun m s hs => ?_⟩
  obtain ⟨htruth, hhits⟩ := h.joined m s hs (.inl trivial)
  exact ⟨htruth, by simpa using hhits⟩

namespace Yields
variable {c d : Clause} {o o' : Memory → Option (Junction × Bool) → ChainOutcome}

theorem withTarget (h : c.Yields o) (hits : UInt32) : (c.withTarget hits).Yields o :=
  ⟨h.lead, h.role, h.yields⟩

/-- What a clause that is tied prepares for the next one. -/
theorem foldl_tie (h : c.Yields o) (tie : Tie) (m : Memory) {s : ChainState} (hs : s.IsFresh) :
    (c.withRole tie.role).rows.foldl (ChainState.step m) s =
      { hits := s.hits + tie.lent (o m s.pending), pending := tie.pending (o m s.pending) } := by
  obtain ⟨htruth, hhits⟩ := h.yields m s hs
  cases tie with
  | link j =>
    rw [Tie.lent, Tie.pending, ← htruth, ← hhits, rows, List.foldl_append]
    cases j <;> rfl
  | hits =>
    have htoInt (truth : Bool) : (truth.toNat : Int) = truth.toInt := by cases truth <;> rfl
    rw [Tie.lent, Tie.pending, Int.natCast_add, ← Int.add_assoc, htoInt, ← htruth, ← hhits, rows,
      List.foldl_append]
    rfl

theorem tie (hc : c.Yields o) (tie : Tie) (hd : d.Yields o') :
    Yields ⟨(c.withRole tie.role).rows ++ d.lead, d.terminal⟩ fun m p =>
      ⟨(o' m (tie.pending (o m p))).truth,
        tie.lent (o m p) + (o' m (tie.pending (o m p))).lent⟩ := by
  refine ⟨fun r hr => ?_, hd.role, fun m s hs => ?_⟩
  · rcases List.mem_append.mp hr with hr | hr
    · rcases List.mem_append.mp hr with hr | hr
      · exact hc.lead r hr
      · obtain rfl := List.mem_singleton.mp hr
        cases tie with
        | link j => cases j <;> rfl
        | hits => rfl
    · exact hd.lead r hr
  · rw [List.foldl_append, hc.foldl_tie tie m hs]
    obtain ⟨htruth, hhits⟩ := hd.yields m
      { hits := s.hits + tie.lent (o m s.pending), pending := tie.pending (o m s.pending) }
      ⟨rfl, rfl⟩
    refine ⟨htruth, hhits.trans ?_⟩
    simp [Int.add_assoc]

/-- On its own, such a clause holds when its last row does, or when it has the hit it counts. -/
theorem holdsIn (h : c.Yields o) (htarget : c.terminal.hits = 0 ∨ c.terminal.hits = 1) (role : Role)
    (m : Memory) : (c.withRole role).holdsIn m =
      if c.terminal.hits = 0 then (o m none).truth else (o m none).hasHit := by
  obtain ⟨htruth, hhits⟩ := h.yields m {} isFresh_empty
  have htruth : ((c.withRole role).stateIn m).truthOf m (c.withRole role).terminal =
    (o m none).truth := htruth
  have hhits : ((c.withRole role).stateIn m).hits = (o m none).lent := hhits.trans (Int.zero_add _)
  have hsame : (c.withRole role).terminal.hits = c.terminal.hits := rfl
  rw [holdsIn_eq, htruth, hhits, hsame]
  rcases htarget with htarget | htarget
  · rw [if_pos htarget, if_pos htarget]
  · rw [htarget, if_neg (by decide), if_neg (by decide), ChainOutcome.hasHit, Bool.eq_iff_iff,
      decide_eq_true_iff, Bool.or_eq_true, decide_eq_true_iff]
    have hone : ((1 : UInt32).toNat : Int) = 1 := rfl
    cases (o m none).truth with
    | true =>
      rw [Bool.toInt_true, hone]
      exact iff_of_true (by omega) (.inl rfl)
    | false =>
      simp only [Bool.toInt_false, hone, Bool.false_eq_true, false_or]
      omega

end Yields
end Clause

namespace Row

/-- Rows of a clause that comes to an outcome. -/
def Yield (rows : List Row) (o : Memory → Option (Junction × Bool) → ChainOutcome) : Prop :=
  ∃ c : Clause, c.rows = rows ∧ c.Yields o

theorem Join.yield {rows : List Row} {truth : Memory → Bool} (h : Join rows truth True) :
    Yield rows fun m p => ⟨joinedTo p (truth m), 0⟩ := by
  obtain ⟨c, rfl, hc⟩ := h
  exact ⟨c, rfl, hc.yields⟩

/-- Counting changes the target of the last row only. -/
theorem Yield.countingTo {rows : List Row} {o : Memory → Option (Junction × Bool) → ChainOutcome}
    (h : Yield rows o) (hits : UInt32) : Yield (countingTo hits (endingIn .plain rows)) o := by
  obtain ⟨c, rfl, hc⟩ := h
  rw [Clause.endingIn_rows, Clause.withRole_of_role_eq hc.role, Clause.countingTo_rows]
  exact ⟨_, rfl, hc.withTarget hits⟩

theorem yield_tied (tie : Tie) {chains : List (List Row)}
    {os : List (Memory → Option (Junction × Bool) → ChainOutcome)}
    (h : List.Forall₂ (fun o rows => Yield rows o) os chains) (hne : os ≠ []) :
    Yield (tied tie.role chains) fun m => tie.outcome (os.map (· m)) := by
  induction h with
  | nil => exact absurd rfl hne
  | cons hfirst hrest ih =>
    obtain ⟨c, rfl, hc⟩ := hfirst
    cases hrest with
    | nil => exact ⟨c, by simp [tied, Clause.endingIn_rows, Clause.withRole_of_role_eq hc.role], hc⟩
    | cons hnext hothers =>
      obtain ⟨d, hd, hyields⟩ := ih (by simp)
      refine ⟨_, ?_, hc.tie tie hyields⟩
      rw [tied, Clause.endingIn_rows, Clause.rows_append_lead, hd]
      simp

end Row

namespace Condition
variable {s : Setting} {rows : List Row}

/-- The chains of its parts, tied, come to what a condition comes to. -/
theorem yield_of_parts {c : Condition} {tie : Tie} {ds : List Condition}
    (hparts : c.parts = some (tie, ds)) {chains : List (List Row)}
    (hchains : List.Forall₂ (fun d rows => d.chainRows s = .ok rows) ds chains)
    (hds : ∀ d ∈ ds, ∀ rows, d.chainRows s = .ok rows →
      Row.Yield rows fun m => d.outcome s.resolve m) :
    Row.Yield (Row.tied tie.role chains) fun m => c.outcome s.resolve m := by
  have hyields : List.Forall₂ (fun o rows => Row.Yield rows o)
      (ds.map fun d m => d.outcome s.resolve m) chains := by
    rw [List.forall₂_map_left_iff]
    exact ((List.forall₂_and_left _ _).mpr ⟨hds, hchains⟩).imp fun _ rows hd => hd.1 rows hd.2
  have hne := (arePartsOf_of_parts hparts).ne_nil
  have hyield := Row.yield_tied tie hyields (by simpa using hne)
  have houtcome : (fun m => tie.outcome ((ds.map fun d m => d.outcome s.resolve m).map (· m))) =
      fun m => c.outcome s.resolve m := by
    funext m p
    rw [outcome_of_parts hparts, List.map_map]
    rfl
  rwa [houtcome] at hyield

theorem isOnce_of_mem_operands {j : Junction} {c d : Condition} (hc : c.isOnce = true)
    (h : d ∈ c.operands j) : d.isOnce = true :=
  of_mem_operands (P := fun c => c.isOnce = true)
    (fun j a b hjoin => by cases j <;> simpa [Junction.join, isOnce] using hjoin)
    (fun _ _ hlocated => hlocated) hc h

theorem isCounting_of_isOnce {c : Condition} (hc : c.isOnce = true) : c.isCounting = true := by
  fun_induction isOnce c with
  | case1 | case2 => simp [isCounting]
  | case3 a b iha ihb | case4 a b iha ihb =>
    obtain ⟨ha, hb⟩ := Bool.and_eq_true_iff.mp hc
    simp [isCounting, iha ha, ihb hb]
  | case5 l c ih => simpa [isCounting] using ih hc
  | case6 count c ih => simpa [isCounting] using ih (Bool.and_eq_true_iff.mp hc).2
  | case7 => cases hc

theorem parts_join (j : Junction) (a b : Condition) :
    (j.join a b).parts = some (.link j, linkOrder j ((j.join a b).operands j)) := by
  rw [operands_join]
  cases j <;> rfl

/-- **The rows of a chain come to the outcome of its condition.** -/
theorem yield_chainRows {c : Condition} (hc : c.isOnce = true) (h : c.chainRows s = .ok rows) :
    Row.Yield rows fun m => c.outcome s.resolve m := by
  have hleaf {c : Condition} (hparts : c.parts = none) :
      (fun m p => (⟨joinedTo p (c.truthIn s.resolve m), 0⟩ : ChainOutcome)) =
        fun m => c.outcome s.resolve m := by
    funext m p
    rw [outcome_of_parts_eq_none hparts]
  induction c using chain_induction generalizing rows with
  | compare left relation right =>
    simp only [chainRows, Lowered.bind_eq_ok] at h
    obtain ⟨comparison, hcomparison, h⟩ := h
    rw [← hleaf rfl]
    simpa only [truthIn, hcomparison] using
      (Comparison.join_toRows (Comparison.ofValues_isSound hcomparison) h).yield
  | literal truth =>
    rw [chainRows] at h
    cases h
    rw [← hleaf rfl]
    exact ⟨_, rfl, (Clause.joins_constant truth).yields⟩
  | located l c ih =>
    rw [chainRows, Lowered.located_eq_ok] at h
    have hsame (m : Memory) : (located l c).outcome s.resolve m = c.outcome s.resolve m :=
      outcome_congr (c := located l c) (d := c) rfl rfl
    simpa only [hsame] using ih hc h
  | join j a b ih =>
    obtain ⟨-, chains, hchains, rfl⟩ := (chainRows_join_eq_ok s).mp h
    exact yield_of_parts (parts_join j a b) hchains fun d hd rows =>
      ih d (mem_linkOrder.mp hd) (isOnce_of_mem_operands hc (mem_linkOrder.mp hd))
  | repeated count body ih ihs =>
    have hbody : body.isOnce = true := (Bool.and_eq_true_iff.mp hc).2
    have hresets : ∀ d ∈ body.operands .and, d.resetBody? = none := fun d hd =>
      resetBody?_of_isCounting (isCounting_of_isOnce (isOnce_of_mem_operands hbody hd))
    obtain ⟨-, counted, hcounted, rfl⟩ := (chainRows_repeated_eq_ok s hresets).mp h
    refine Row.Yield.countingTo ?_ count
    rw [countedChain] at hcounted
    split at hcounted
    · rename_i hor
      have hparts : (repeated count body).parts = some (.hits, body.operands .or) := by
        rw [parts, if_pos hor]
      obtain ⟨chains, hchains, rfl⟩ := Link.exists_of_summed hcounted
      exact yield_of_parts hparts hchains fun d hd rows =>
        ihs d hd (isOnce_of_mem_operands hbody hd)
    · rename_i hor
      have hparts : (repeated count body).parts = body.parts := by rw [parts, if_neg hor]
      have hsame (m : Memory) :
          (repeated count body).outcome s.resolve m = body.outcome s.resolve m :=
        outcome_congr hparts rfl
      simpa only [hsame] using ih hbody hcounted
  | tally count items => cases hc
  | outermost c houter => exact absurd h (chainRows_of_isOutermost s houter rows)

/-! ## The truth of a chain -/

/-- The target of a chain of conditions that have to hold once, if it has one. -/
theorem lastTarget_of_isOnce {c : Condition} (hc : c.isOnce = true) :
    c.lastTarget = 0 ∨ c.lastTarget = 1 := by
  fun_induction isOnce c with
  | case1 | case2 => exact .inl rfl
  | case3 a b iha ihb | case4 a b iha ihb =>
    obtain ⟨ha, hb⟩ := Bool.and_eq_true_iff.mp hc
    rw [lastTarget]
    split
    · exact iha ha
    · exact ihb hb
  | case5 l c ih => exact ih hc
  | case6 count c ih => exact .inr (by simpa [lastTarget] using (Bool.and_eq_true_iff.mp hc).1)
  | case7 => cases hc

/-- Whether a condition is true when its rows are taken strictly in order: its last one is, or has
hits lent to it and counts them. -/
def readIn (resolve : String → Option Size) (m : Memory) (c : Condition) : Bool :=
  let o := c.outcome resolve m none
  if c.lastTarget = 0 then o.truth else o.hasHit

/-- Whether every run inside a condition starts its chain or goes on with the junction that is
pending, and hits are lent to a row that counts. -/
def isWellLinked (c : Condition) : Bool := c.linksTo (c.lastTarget ≠ 0) none

theorem readIn_of_isWellLinked {c : Condition} (hc : c.isWellLinked = true)
    (resolve : String → Option Size) (m : Memory) : c.readIn resolve m = c.truthIn resolve m := by
  have hsays : (c.outcome resolve m none).Says (c.lastTarget ≠ 0) (c.truthIn resolve m) :=
    says_of_linksTo resolve m hc rfl
  rw [readIn]
  split
  · rename_i htarget
    exact ChainOutcome.Says.truth_eq (by simpa [htarget] using hsays)
  · exact hsays.hasHit_eq

/-- **Counted conditions inside a chain.**  The chain of a condition whose counts are all one is one
clause of the role asked for.  It holds exactly when the condition is true with its rows taken
strictly in order, and this is its truth if it is well linked. -/
theorem holdsIn_chain_of_isOnce {c : Condition} (hc : c.isOnce = true) {role : Role}
    (h : c.chain s role = .ok rows) :
    ∃ clause : Clause, rows = clause.rows ∧ (∀ r ∈ clause.lead, r.role.isCombining = true) ∧
      clause.role = role ∧ (∀ m, clause.holdsIn m = c.readIn s.resolve m) ∧
      (c.isWellLinked = true → ∀ m, clause.holdsIn m = c.truthIn s.resolve m) := by
  simp only [chain, Lowered.bind_eq_ok, Lowered.pure_eq_ok] at h
  obtain ⟨plain, hplain, rfl⟩ := h
  obtain ⟨clause, rfl, hyields⟩ := yield_chainRows hc hplain
  have htarget : clause.terminal.hits = c.lastTarget := by
    obtain ⟨front, r, hrows, hlast⟩ := (carries_chainRows (isCounting_of_isOnce hc) hplain).ends
    obtain ⟨-, hterminal⟩ := List.append_inj' hrows rfl
    rw [← hlast, List.singleton_inj.mp hterminal]
  have hholds (m : Memory) : (clause.withRole role).holdsIn m = c.readIn s.resolve m := by
    rw [hyields.holdsIn (htarget ▸ lastTarget_of_isOnce hc), htarget]
    rfl
  refine ⟨clause.withRole role, clause.endingIn_rows role, hyields.lead, rfl, hholds, ?_⟩
  intro hlinked m
  rw [hholds, readIn_of_isWellLinked hlinked]

/-- There are no lives, or for once the key is there and the door open; and the same with its sides
swapped. -/
def choiceOfCount (swapped : Bool) : Condition :=
  let isByte (address value : Int64) : Condition :=
    .compare (.read "byte" (.constant address)) .eq (.constant value)
  let count := repeated 1 (.and (isByte 2 0) (isByte 3 1))
  if swapped then .or count (isByte 1 0) else .or (isByte 1 0) count

/-- Where the count comes second its two tests are not joined first, and the truth is lost. -/
theorem holdsIn_chain_of_isOnce_choiceOfCount :
    (∀ swapped, (choiceOfCount swapped).isOnce = true) ∧
      (∀ swapped, (choiceOfCount swapped).truthIn Size.ofAccessor? .zero = true) ∧
      (∃ clause : Clause, (choiceOfCount false).chain {} .measured = .ok clause.rows ∧
        clause.holdsIn .zero = false) ∧
      (choiceOfCount true).isWellLinked = true ∧
      ∃ clause : Clause, (choiceOfCount true).chain {} .measured = .ok clause.rows ∧
        ∀ m, clause.holdsIn m = (choiceOfCount true).truthIn Size.ofAccessor? m := by
  have honce : ∀ swapped, (choiceOfCount swapped).isOnce = true := by decide
  have hchain : ∀ swapped, ((choiceOfCount swapped).chain {} .measured).isOk = true := by
    decide +kernel
  have hread : (choiceOfCount false).readIn Size.ofAccessor? .zero = false := by decide +kernel
  have hlinked : (choiceOfCount true).isWellLinked = true := by decide +kernel
  refine ⟨honce, by decide +kernel, ?_, hlinked, ?_⟩
  · obtain ⟨rows, hrows⟩ := exists_eq_ok_of_isOk (hchain false)
    obtain ⟨clause, rfl, -, -, hholds, -⟩ := holdsIn_chain_of_isOnce (honce false) hrows
    exact ⟨clause, hrows, (hholds .zero).trans hread⟩
  · obtain ⟨rows, hrows⟩ := exists_eq_ok_of_isOk (hchain true)
    obtain ⟨clause, rfl, -, -, -, htruth⟩ := holdsIn_chain_of_isOnce (honce true) hrows
    exact ⟨clause, hrows, htruth hlinked⟩

end Condition
end MemoryTrigger

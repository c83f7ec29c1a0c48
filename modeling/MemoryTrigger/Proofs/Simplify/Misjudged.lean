import MemoryTrigger.Proofs.Simplify.Resets

/-! # Merges that misjudge a chain

Three rules of `Clause.merge?` ask only that two clauses have equal leads, and then look at the
terminal rows alone.  Behind modifier rows these decide.  Behind other rows two of the rules can be
wrong:

* of two hit targets the larger is kept, but `addHits` rows may lend it all its hits, while the row
  without a target has to hold itself;
* a reset and the filter that negates it are exchanged for one of them, but behind `andNext` the
  filter asks for more than that the reset does not hold, and behind `orNext` for less.

A clause that is dropped in one of these ways is misjudged (`Clause.misjudges`).  Merging drops such
clauses and keeps the meaning of all others: what it leaves of a group passes exactly when the
clauses pass that none misjudges (`Clause.passesIn_mergeOverlaps`). -/
namespace MemoryTrigger

/-! ## What a lead hands on -/

/-- What joins the next comparison to those before it, behind a row of this role. -/
def Role.linkAfter (link : Option Junction) : Role → Option Junction
  | addSource | subSource | addAddress => link
  | andNext => some .and
  | orNext => some .or
  | _ => none

namespace ChainState
variable (m : Memory)

theorem pending_step (s : ChainState) (r : Row) :
    (step m s r).pending.map Prod.fst = r.role.linkAfter (s.pending.map Prod.fst) := by
  cases hrole : r.role <;> simp [step, hrole, Role.linkAfter]

theorem pending_foldl_step (lead : List Row) (s : ChainState) :
    (lead.foldl (step m) s).pending.map Prod.fst =
      lead.foldl (fun link r => r.role.linkAfter link) (s.pending.map Prod.fst) := by
  induction lead generalizing s with
  | nil => rfl
  | cons r rest ih => rw [List.foldl_cons, List.foldl_cons, ih, pending_step]

theorem hits_step_le (s : ChainState) (r : Row) :
    (step m s r).hits ≤ s.hits + (if r.role = .addHits then 1 else 0) := by
  have htruth : 0 ≤ (s.truthOf m r).toInt ∧ (s.truthOf m r).toInt ≤ 1 := by
    cases s.truthOf m r <;> simp
  cases hrole : r.role <;> simp [step, hrole] <;> omega

/-- Only `addHits` rows lend hits, one each. -/
theorem hits_foldl_step_le (lead : List Row) (s : ChainState) :
    (lead.foldl (step m) s).hits ≤ s.hits + lead.countP (·.role == .addHits) := by
  induction lead generalizing s with
  | nil => simp
  | cons r rest ih =>
    have hstep := hits_step_le m s r
    have hrest := ih (step m s r)
    rw [List.foldl_cons]
    by_cases hr : r.role = .addHits
    · rw [if_pos hr] at hstep
      rw [List.countP_cons_of_pos (by simpa using hr)]
      omega
    · rw [if_neg hr] at hstep
      rw [List.countP_cons_of_neg (by simpa using hr)]
      omega

/-- Unless a conjunction is pending, one of two opposite tests holds. -/
theorem joined_not_of_joined_eq_false {s : ChainState} {test : Bool}
    (hlink : s.pending.map Prod.fst ≠ some .and) (h : s.joined test = false) :
    s.joined (!test) = true := by
  unfold joined at h ⊢
  cases hpending : s.pending with
  | none => simp_all
  | some p =>
    obtain ⟨j, previous⟩ := p
    cases j <;> simp_all

/-- Unless a disjunction is pending, one of two opposite tests does not hold. -/
theorem joined_eq_false_of_joined_not {s : ChainState} {test : Bool}
    (hlink : s.pending.map Prod.fst ≠ some .or) (h : s.joined (!test) = true) :
    s.joined test = false := by
  unfold joined at h ⊢
  cases hpending : s.pending with
  | none => simp_all
  | some p =>
    obtain ⟨j, previous⟩ := p
    cases j <;> simp_all

end ChainState

namespace Clause

/-- What joins the terminal row to the comparisons of the lead. -/
def link? (c : Clause) : Option Junction := c.lead.foldl (fun link r => r.role.linkAfter link) none

/-- How many hits the lead can lend to the terminal row. -/
def lentHits (c : Clause) : Nat := c.lead.countP (·.role == .addHits)

theorem pending_stateIn (m : Memory) (c : Clause) :
    (c.stateIn m).pending.map Prod.fst = c.link? :=
  ChainState.pending_foldl_step m c.lead {}

theorem hits_stateIn_le (m : Memory) (c : Clause) : (c.stateIn m).hits ≤ c.lentHits := by
  have hle := ChainState.hits_foldl_step_le m c.lead {}
  rwa [Int.zero_add] at hle

/-- Modifier rows join nothing. -/
theorem link?_of_modifiers {c : Clause} (h : c.lead.all (·.role.isModifier) = true) :
    c.link? = none := by
  rw [← pending_stateIn .zero, stateIn, (ChainState.foldl_step_modifiers .zero c.lead {} h).1]
  rfl

/-- Modifier rows lend no hits. -/
theorem lentHits_of_modifiers {c : Clause} (h : c.lead.all (·.role.isModifier) = true) :
    c.lentHits = 0 := by
  refine List.countP_eq_zero.mpr fun r hr hrole => ?_
  have hmodifier := List.all_eq_true.mp h r hr
  rw [beq_iff_eq.mp hrole] at hmodifier
  cases hmodifier

/-! ## Misjudged clauses -/

/-- **Whether a clause makes merging drop another one that it does not imply**: a target that the
lead can reach alone, beside the same row without one; and of a reset and the filter that negates it
the reset behind `andNext`, where hits are counted, or else the filter behind `orNext`. -/
def misjudges (anyHits inCore : Bool) (a b : Clause) : Bool :=
  a.lead == b.lead &&
    (a.hasLargerTarget b && b.terminal.hits == 0 && decide (a.terminal.hits.toNat ≤ a.lentHits) ||
      !a.hasHits && !b.hasHits &&
        (anyHits && a.isResetOfFilter b && a.link? == some .and ||
          !anyHits && inCore && b.isResetOfFilter a && a.link? == some .or))

/-- The clauses of a group that none of them misjudges. -/
def undisputed (anyHits inCore : Bool) (group : List Clause) : List Clause :=
  group.filter fun c => !group.any (misjudges anyHits inCore · c)

/-- A clause as the pass meets it: it compares, and counts no hits where none are counted. -/
structure Fits (anyHits : Bool) (c : Clause) : Prop where
  compares : c.terminal.isComparison = true
  counted : anyHits = false → c.hasHits = false

section Misjudging
variable {anyHits inCore : Bool} {a b c : Clause}

theorem misjudges_iff :
    misjudges anyHits inCore a b = true ↔ a.lead = b.lead ∧
      ((a.hasLargerTarget b = true ∧ b.terminal.hits = 0 ∧
          a.terminal.hits.toNat ≤ a.lentHits) ∨
        (a.hasHits = false ∧ b.hasHits = false ∧
          ((anyHits = true ∧ a.isResetOfFilter b = true ∧ a.link? = some .and) ∨
            (anyHits = false ∧ inCore = true ∧ b.isResetOfFilter a = true ∧
              a.link? = some .or)))) := by
  simp [misjudges, and_assoc]

theorem hasHits_of_hasLargerTarget (h : a.hasLargerTarget b = true) : a.hasHits = true := by
  rw [← Bool.not_eq_false]
  intro hnone
  have hlarger := (hasLargerTarget_iff.mp h).2.2
  rw [hits_eq_zero_of_not_hasHits hnone _ a.terminal_mem_rows] at hlarger
  exact absurd hlarger (by simp)

theorem hasLargerTarget_trans (hab : a.hasLargerTarget b = true) (hbc : b.hasLargerTarget c = true) :
    a.hasLargerTarget c = true := by
  obtain ⟨hrole, hsame, hlarger⟩ := hasLargerTarget_iff.mp hab
  obtain ⟨-, hsame', hlarger'⟩ := hasLargerTarget_iff.mp hbc
  exact hasLargerTarget_iff.mpr ⟨hrole, hsame.trans hsame', UInt32.lt_trans hlarger' hlarger⟩

/-- Resets are misjudged in the core only, and where no hits are counted. -/
theorem plain_of_misjudges (hkeeps : anyHits = true ∨ inCore = false)
    (h : misjudges anyHits inCore a b = true) : b.role = .plain := by
  obtain ⟨-, ⟨hlarger, -⟩ | ⟨-, -, ⟨-, hreset, -⟩ | ⟨hnone, hcore, -⟩⟩⟩ := misjudges_iff.mp h
  · exact (role_of_hasLargerTarget hlarger).2
  · exact (isResetOfFilter_iff.mp hreset).2.1
  · simp [hnone, hcore] at hkeeps

/-- Behind modifier rows nothing is misjudged. -/
theorem misjudges_of_modifiers (h : a.lead.all (·.role.isModifier) = true) :
    misjudges anyHits inCore a b = false := by
  rw [← Bool.not_eq_true]
  intro hmis
  obtain ⟨-, ⟨hlarger, hzero, hreach⟩ | ⟨-, -, ⟨-, -, hlink⟩ | ⟨-, -, -, hlink⟩⟩⟩ :=
    misjudges_iff.mp hmis
  · have hlt := UInt32.lt_iff_toNat_lt.mp (hasLargerTarget_iff.mp hlarger).2.2
    rw [lentHits_of_modifiers h] at hreach
    omega
  · rw [link?_of_modifiers h] at hlink
    cases hlink
  · rw [link?_of_modifiers h] at hlink
    cases hlink

theorem closed_fits : Closed (Fits anyHits) where
  alwaysTrue := ⟨rfl, fun _ => rfl⟩
  alwaysFalse := ⟨rfl, fun _ => rfl⟩
  inverted := by
    intro c d filters hc h hd
    refine ⟨?_, fun hnone => closed_hasHits_eq_false.inverted (hc.counted hnone) h hd⟩
    obtain ⟨-, hcompares, ⟨-, rfl⟩ | ⟨-, hrows, rfl⟩⟩ := inverted?_cases h
    · rw [List.mem_singleton.mp hd]
      exact Row.isComparison_inverted hcompares
    · obtain ⟨r, hr, rfl⟩ := List.mem_map.mp hd
      exact Row.isComparison_inverted (hrows r hr)
  withSet := by
    intro c d s t hc hrole hs h
    refine ⟨?_, fun hnone => closed_hasHits_eq_false.withSet (hc.counted hnone) hrole hs h⟩
    obtain ⟨_, _, -, rfl⟩ := withSet?_eq_some.mp h
    rfl
  equalityTest _ _ := ⟨rfl, fun _ => rfl⟩

end Misjudging

/-! ## One clause in the place of two -/

section Displacing
variable (m : Memory) (anyHits inCore : Bool)

/-- **A clause may take the place of another one**, as far as clauses are not misjudged: it is not
misjudged itself, and it implies the clause that goes, as well as what that one misjudged, unless it
misjudges them. -/
structure Displaces (kept dropped : Clause) : Prop where
  safe : ∀ c, c.Fits anyHits → misjudges anyHits inCore c kept = false
  covers : ∀ c, c = dropped ∨ misjudges anyHits inCore dropped c = true →
    misjudges anyHits inCore kept c = false →
      passesIn m [kept] = true → passesIn m [c] = true

variable {m anyHits inCore} {a b : Clause}

/-- Of two targets the larger displaces the smaller. -/
theorem displaces_of_hasLargerTarget (ha : a.Fits anyHits) (hlead : a.lead = b.lead)
    (h : a.hasLargerTarget b = true) : Displaces m anyHits inCore a b where
  safe c _ := by
    rw [← Bool.not_eq_true]
    intro hmis
    have hcounted := hasHits_of_hasLargerTarget h
    obtain ⟨-, ⟨-, hzero, -⟩ | ⟨-, hnone, -⟩⟩ := misjudges_iff.mp hmis
    · have hlarger := (hasLargerTarget_iff.mp h).2.2
      rw [hzero] at hlarger
      exact absurd hlarger (by simp)
    · rw [hcounted] at hnone
      cases hnone
  covers := by
    have hcover {c : Clause} (hlead : a.lead = c.lead) (h : a.hasLargerTarget c = true)
        (hmis : misjudges anyHits inCore a c = false) (hpasses : passesIn m [a] = true) :
        passesIn m [c] = true := by
      obtain ⟨harole, hcrole⟩ := role_of_hasLargerTarget h
      rw [passesIn_plain m harole] at hpasses
      rw [passesIn_plain m hcrole]
      refine holdsIn_of_hasLargerTarget hlead h (fun hzero => ?_) hpasses
      have hlent := hits_stateIn_le m a
      have hreach : ¬ a.terminal.hits.toNat ≤ a.lentHits := by
        intro hreach
        rw [misjudges_iff.mpr ⟨hlead, .inl ⟨h, hzero, hreach⟩⟩] at hmis
        cases hmis
      omega
    rintro c (rfl | hmis) hkept hpasses
    · exact hcover hlead h hkept hpasses
    · obtain ⟨hlead', ⟨hlarger, -⟩ | ⟨-, -, ⟨-, hreset, -⟩ | ⟨hnone, -⟩⟩⟩ := misjudges_iff.mp hmis
      · exact hcover (hlead.trans hlead') (hasLargerTarget_trans h hlarger) hkept hpasses
      · have hplain := (role_of_hasLargerTarget h).2
        rw [(isResetOfFilter_iff.mp hreset).1] at hplain
        cases hplain
      · have hcounted := hasHits_of_hasLargerTarget h
        rw [ha.counted hnone] at hcounted
        cases hcounted

/-- Where hits are counted, a reset displaces the filter that negates it. -/
theorem displaces_of_reset (ha : a.Fits true) (hlead : a.lead = b.lead)
    (hahits : a.hasHits = false) (hbhits : b.hasHits = false) (h : a.isResetOfFilter b = true) :
    Displaces m true inCore a b := by
  obtain ⟨harole, hbrole, -⟩ := isResetOfFilter_iff.mp h
  refine ⟨fun c _ => ?_, ?_⟩
  · rw [← Bool.not_eq_true]
    intro hmis
    rw [plain_of_misjudges (.inl rfl) hmis] at harole
    cases harole
  · rintro c (rfl | hmis) hkept hpasses
    · have hlink : a.link? ≠ some .and := by
        intro hlink
        rw [misjudges_iff.mpr ⟨hlead, .inr ⟨hahits, hbhits, .inl ⟨rfl, h, hlink⟩⟩⟩] at hkept
        cases hkept
      obtain ⟨test, hreset, hfilter⟩ := holdsIn_of_isResetOfFilter (m := m) hlead
        (hits_eq_zero_of_not_hasHits hahits _ a.terminal_mem_rows)
        (hits_eq_zero_of_not_hasHits hbhits _ c.terminal_mem_rows) ha.compares h
      rw [passesIn_guard m (by rw [harole]; rfl), hreset, Bool.not_eq_true'] at hpasses
      rw [passesIn_plain m hbrole, hfilter]
      exact ChainState.joined_not_of_joined_eq_false (by rwa [pending_stateIn]) hpasses
    · -- a filter without a target misjudges nothing here
      obtain ⟨-, ⟨hlarger, -⟩ | ⟨-, -, ⟨-, hreset, -⟩ | ⟨hnone, -⟩⟩⟩ := misjudges_iff.mp hmis
      · rw [hasHits_of_hasLargerTarget hlarger] at hbhits
        cases hbhits
      · rw [(isResetOfFilter_iff.mp hreset).1] at hbrole
        cases hbrole
      · cases hnone

/-- Where no hits are counted, in the core the filter displaces the reset. -/
theorem displaces_of_filter (ha : a.Fits false) (hlead : a.lead = b.lead)
    (hahits : a.hasHits = false) (hbhits : b.hasHits = false) (h : a.isResetOfFilter b = true) :
    Displaces m false true b a := by
  obtain ⟨harole, hbrole, -⟩ := isResetOfFilter_iff.mp h
  refine ⟨fun c hc => ?_, ?_⟩
  · rw [← Bool.not_eq_true]
    intro hmis
    obtain ⟨-, ⟨hlarger, -⟩ | ⟨-, -, ⟨hcounted, -⟩ | ⟨-, -, hreset, -⟩⟩⟩ := misjudges_iff.mp hmis
    · have hnone := hc.counted rfl
      rw [hasHits_of_hasLargerTarget hlarger] at hnone
      cases hnone
    · cases hcounted
    · rw [(isResetOfFilter_iff.mp hreset).1] at hbrole
      cases hbrole
  · rintro c (rfl | hmis) hkept hpasses
    · have hlink : c.link? ≠ some .or := by
        intro hlink
        have hlink' : b.link? = some .or := by rw [← hlink, Clause.link?, Clause.link?, hlead]
        rw [misjudges_iff.mpr ⟨hlead.symm, .inr ⟨hbhits, hahits, .inr ⟨rfl, rfl, h, hlink'⟩⟩⟩]
          at hkept
        cases hkept
      obtain ⟨test, hreset, hfilter⟩ := holdsIn_of_isResetOfFilter (m := m) hlead
        (hits_eq_zero_of_not_hasHits hahits _ c.terminal_mem_rows)
        (hits_eq_zero_of_not_hasHits hbhits _ b.terminal_mem_rows) ha.compares h
      rw [passesIn_plain m hbrole, hfilter] at hpasses
      rw [passesIn_guard m (by rw [harole]; rfl), hreset, Bool.not_eq_true']
      exact ChainState.joined_eq_false_of_joined_not (by rwa [pending_stateIn]) hpasses
    · -- a reset misjudges nothing here
      obtain ⟨-, ⟨hlarger, -⟩ | ⟨-, -, ⟨hcounted, -⟩ | ⟨-, -, hreset, -⟩⟩⟩ := misjudges_iff.mp hmis
      · rw [(role_of_hasLargerTarget hlarger).1] at harole
        cases harole
      · cases hcounted
      · rw [(isResetOfFilter_iff.mp hreset).2.1] at harole
        cases harole

end Displacing

/-! ## Groups -/

section Groups
variable {m : Memory} {anyHits inCore : Bool} {group group' : List Clause}

theorem passesIn_undisputed_iff :
    passesIn m (undisputed anyHits inCore group) = true ↔
      ∀ c ∈ group, (∀ d ∈ group, misjudges anyHits inCore d c = false) →
        passesIn m [c] = true := by
  have hsingle (c : Clause) : passesIn m [c] = true ↔
      (c.role.isGuard = true → c.holdsIn m = false) ∧
        (c.role.isTruthy = true → c.holdsIn m = true) := by
    rw [passesIn_iff]
    simp
  rw [passesIn_iff]
  simp [undisputed, hsingle]

/-- Order and repetition do not matter. -/
theorem passesIn_undisputed_congr (h : ∀ c, c ∈ group ↔ c ∈ group') :
    passesIn m (undisputed anyHits inCore group) =
      passesIn m (undisputed anyHits inCore group') := by
  rw [Bool.eq_iff_iff, passesIn_undisputed_iff, passesIn_undisputed_iff]
  simp only [h]

/-- A clause that displaces another one leaves nothing out that is undisputed. -/
theorem Displaces.passesIn_undisputed {kept dropped : Clause} {rest : List Clause}
    (h : Displaces m anyHits inCore kept dropped)
    (hfits : ∀ c ∈ kept :: dropped :: rest, c.Fits anyHits) :
    passesIn m (undisputed anyHits inCore (kept :: rest)) =
      passesIn m (undisputed anyHits inCore (kept :: dropped :: rest)) := by
  have hsub : ∀ c ∈ kept :: rest, c ∈ kept :: dropped :: rest := by
    intro c hc
    rcases List.mem_cons.mp hc with rfl | hc
    · exact List.mem_cons_self
    · exact List.mem_cons_of_mem _ (List.mem_cons_of_mem _ hc)
  have hsafe : ∀ c ∈ kept :: dropped :: rest, misjudges anyHits inCore c kept = false :=
    fun c hc => h.safe c (hfits c hc)
  rw [Bool.eq_iff_iff, passesIn_undisputed_iff, passesIn_undisputed_iff]
  constructor
  · intro hall c hc hundisputed
    by_cases hmem : c ∈ kept :: rest
    · exact hall c hmem fun d hd => hundisputed d (hsub d hd)
    · have hdropped : c = dropped := by
        simp only [List.mem_cons] at hc hmem
        tauto
      have hkept := hall kept List.mem_cons_self fun d hd => hsafe d (hsub d hd)
      exact h.covers c (.inl hdropped) (hundisputed kept List.mem_cons_self) hkept
  · intro hall c hc hundisputed
    cases hmis : misjudges anyHits inCore dropped c with
    | true =>
      have hkept := hall kept List.mem_cons_self hsafe
      exact h.covers c (.inr hmis) (hundisputed kept List.mem_cons_self) hkept
    | false =>
      refine hall c (hsub c hc) fun d hd => ?_
      by_cases hmem : d ∈ kept :: rest
      · exact hundisputed d hmem
      · have hdropped : d = dropped := by
          simp only [List.mem_cons] at hd hmem
          tauto
        rw [hdropped, hmis]

/-- A comparison behind modifier rows takes part in no misjudgement. -/
theorem passesIn_undisputed_cons {c : Clause} (h : c.IsDirect) (rest : List Clause) :
    passesIn m (undisputed anyHits inCore (c :: rest)) =
      (passesIn m [c] && passesIn m (undisputed anyHits inCore rest)) := by
  have hfirst (d : Clause) : misjudges anyHits inCore c d = false := misjudges_of_modifiers h.lead
  have hsecond (d : Clause) : misjudges anyHits inCore d c = false := by
    rw [← Bool.not_eq_true]
    intro hmis
    rw [misjudges_of_modifiers ((misjudges_iff.mp hmis).1 ▸ h.lead)] at hmis
    cases hmis
  rw [Bool.eq_iff_iff, Bool.and_eq_true, passesIn_undisputed_iff, passesIn_undisputed_iff,
    List.forall_mem_cons]
  simp [hfirst, hsecond]

/-- **One merge keeps the meaning of the clauses that none misjudges.** -/
theorem passesIn_undisputed_mergeStep {event : Event} (hfits : ∀ c ∈ group, c.Fits anyHits)
    (h : mergeStep anyHits inCore group = some (group', event)) :
    passesIn m (undisputed anyHits inCore group') =
      passesIn m (undisputed anyHits inCore group) := by
  obtain ⟨a, b, e, rest, hmerge, hperm, hperm'⟩ := mergeStep_eq_some h
  have hfits : ∀ c ∈ a :: b :: rest, c.Fits anyHits := fun c hc => hfits c (hperm.mem_iff.mpr hc)
  have ha : a.Fits anyHits := hfits a (by simp)
  have hb : b.Fits anyHits := hfits b (by simp)
  rw [passesIn_undisputed_congr fun c => hperm'.mem_iff,
    passesIn_undisputed_congr fun c => hperm.mem_iff]
  rcases merge?_cases hmerge with ⟨rfl, rfl⟩ | ⟨hlead, ⟨hlarger, rfl⟩ |
    ⟨hahits, hbhits, ⟨hreset, ⟨rfl, rfl⟩ | ⟨rfl, rfl, rfl⟩⟩ | hvalues⟩⟩
  · exact passesIn_undisputed_congr fun c => by simp [Merge.result]
  · exact (displaces_of_hasLargerTarget ha hlead hlarger).passesIn_undisputed hfits
  · exact (displaces_of_reset ha hlead hahits hbhits hreset).passesIn_undisputed hfits
  · refine ((displaces_of_filter ha hlead hahits hbhits hreset).passesIn_undisputed
      fun c hc => hfits c ((List.Perm.swap _ _ _).mem_iff.mp hc)).trans ?_
    exact passesIn_undisputed_congr fun c => (List.Perm.swap _ _ _).mem_iff
  · obtain ⟨-, hq, s, -, hs, -⟩ := mergeByValues_cases hvalues
    obtain ⟨_, _, -, hmax, -⟩ := valueSet?_eq_some.mp hs
    have hdirect : a.IsDirect := ⟨modifiers_of_quantityMax? hmax, ha.compares⟩
    have hdirect' : b.IsDirect := ⟨hlead ▸ hdirect.lead, hb.compares⟩
    have hmerges : MergesTo m inCore a b (e.result a b) := mergesTo_of_merge? hdirect hmerge
    have hpair : passesIn m [a, b] = (passesIn m [a] && passesIn m [b]) := passesIn_append m [a] [b]
    rw [passesIn_undisputed_cons (closed_isDirect.merge? hdirect hdirect' hmerge),
      passesIn_undisputed_cons hdirect, passesIn_undisputed_cons hdirect', hmerges.passes, hpair,
      Bool.and_assoc]

/-- Two clauses of which one misjudges the other can be merged. -/
theorem ne_and_merge?_of_misjudges {a b : Clause} (h : misjudges anyHits inCore a b = true) :
    a ≠ b ∧ (merge? anyHits inCore a b ≠ none ∨ merge? anyHits inCore b a ≠ none) := by
  obtain ⟨hlead, ⟨hlarger, -⟩ | ⟨hahits, hbhits, ⟨rfl, hreset, -⟩ | ⟨rfl, rfl, hreset, -⟩⟩⟩ :=
    misjudges_iff.mp h
  · have hne : a ≠ b := by
      rintro rfl
      exact absurd (hasLargerTarget_iff.mp hlarger).2.2 (by simp)
    refine ⟨hne, .inl ?_⟩
    simp [merge?, hne, hlead, hlarger]
  · obtain ⟨harole, hbrole, -⟩ := isResetOfFilter_iff.mp hreset
    have hne : a ≠ b := by
      rintro rfl
      rw [harole] at hbrole
      cases hbrole
    refine ⟨hne, .inl ?_⟩
    simp [merge?, hne, hlead, hasLargerTarget, harole, hahits, hbhits, hreset]
  · obtain ⟨hbrole, harole, -⟩ := isResetOfFilter_iff.mp hreset
    have hne : b ≠ a := by
      rintro rfl
      rw [harole] at hbrole
      cases hbrole
    refine ⟨hne.symm, .inr ?_⟩
    simp [merge?, hne, hlead, hasLargerTarget, hbrole, hahits, hbhits, hreset]

/-- Where nothing can be merged, nothing is misjudged. -/
theorem undisputed_mergeOverlaps (group : List Clause) :
    undisputed anyHits inCore (mergeOverlaps anyHits inCore group).value =
      (mergeOverlaps anyHits inCore group).value := by
  have hdone := mergeStep_mergeOverlaps anyHits inCore group
  generalize (mergeOverlaps anyHits inCore group).value = merged at hdone
  refine List.filter_eq_self.mpr fun b hb => ?_
  rw [Bool.not_eq_true', List.any_eq_false]
  intro a ha hmis
  obtain ⟨hne, hmerge⟩ := ne_and_merge?_of_misjudges hmis
  obtain ⟨i, hi⟩ := List.mem_iff_getElem?.mp ha
  obtain ⟨j, hj⟩ := List.mem_iff_getElem?.mp hb
  have hij : i ≠ j := by
    rintro rfl
    exact hne (Option.some.inj (hi.symm.trans hj))
  rcases hmerge with hmerge | hmerge
  · exact hmerge (merge?_eq_none_of_mergeStep hdone hij hi hj)
  · exact hmerge (merge?_eq_none_of_mergeStep hdone hij.symm hj hi)

/-- **What merging leaves of a group passes when the clauses do that none misjudges.** -/
theorem passesIn_mergeOverlaps (hfits : ∀ c ∈ group, c.Fits anyHits) :
    passesIn m (mergeOverlaps anyHits inCore group).value =
      passesIn m (undisputed anyHits inCore group) := by
  rw [← undisputed_mergeOverlaps]
  refine (Logged.exhaust_keeps (P := fun group' => (∀ c ∈ group', c.Fits anyHits) ∧
    passesIn m (undisputed anyHits inCore group') = passesIn m (undisputed anyHits inCore group))
    ?_ _ group ⟨hfits, rfl⟩).2
  rintro before after event hstep ⟨hbefore, hpasses⟩
  exact ⟨forall_mem_mergeStep closed_fits hstep hbefore,
    (passesIn_undisputed_mergeStep hbefore hstep).trans hpasses⟩

/-- In an alternate only filters are misjudged. -/
theorem guardAlike_undisputed (group : List Clause) :
    GuardAlike m (undisputed anyHits false group) group := by
  refine .of_mem fun d hd => ⟨List.mem_of_mem_filter, fun hmem => ?_⟩
  refine List.mem_filter.mpr ⟨hmem, ?_⟩
  rw [Bool.not_eq_true', List.any_eq_false]
  intro c _ hmis
  rw [isGuard_of_plain (plain_of_misjudges (.inr rfl) hmis)] at hd
  cases hd

/-- What is left of an alternate stands for the clauses that none misjudges. -/
theorem standsFor_mergeOverlaps (hfits : ∀ c ∈ group, c.Fits anyHits) :
    StandsFor m (mergeOverlaps anyHits false group).value (undisputed anyHits false group) := by
  refine GuardAlike.standsFor (fun role hrole => ?_) (passesIn_mergeOverlaps hfits)
  exact (guardAlike_mergeOverlaps (.inr rfl) group role hrole).trans
    (guardAlike_undisputed group role hrole).symm

end Groups

end Clause

/-! ## Triggers -/

namespace ClauseGroups
open Clause

/-- A trigger without the clauses that are misjudged in their group. -/
def withoutMisjudged (g : ClauseGroups) : ClauseGroups where
  core := undisputed g.anyHits true g.core
  alternates := g.alternates.map (undisputed g.anyHits false)

variable {m : Memory} {g : ClauseGroups}

/-- **Merging fires as the trigger does without its misjudged clauses.** -/
theorem firesIn_withoutOverlaps_eq (h : g.All (Fits g.anyHits)) :
    g.withoutOverlaps.firesIn m = g.withoutMisjudged.firesIn m := by
  obtain ⟨hcore, halternates⟩ := all_iff.mp h
  exact firesIn_map_of_standsFor (passesIn_mergeOverlaps hcore) fun a ha =>
    standsFor_mergeOverlaps (halternates a ha)

/-- Clauses are only left out, so that no firing is lost. -/
theorem firesIn_withoutMisjudged_of_firesIn (h : g.firesIn m = true) :
    g.withoutMisjudged.firesIn m = true := by
  obtain ⟨hcore, hresets, hholds⟩ := firesIn_iff.mp h
  refine firesIn_iff.mpr ⟨?_, List.forall_mem_map.mpr fun a ha => ?_, ?_⟩
  · exact (passesIn_iff m).mpr fun c hc => (passesIn_iff m).mp hcore c (List.mem_of_mem_filter hc)
  · exact (guardAlike_undisputed a).resets.trans (hresets a ha)
  · rcases Bool.or_eq_true_iff.mp hholds with hnone | hany
    · simp [withoutMisjudged, List.isEmpty_iff.mp hnone]
    · obtain ⟨a, ha, hall⟩ := List.any_eq_true.mp hany
      obtain ⟨hpaused, hall⟩ := (allHoldIn_iff m).mp hall
      refine Bool.or_eq_true_iff.mpr (.inr (List.any_eq_true.mpr ⟨_, List.mem_map_of_mem ha, ?_⟩))
      exact (allHoldIn_iff m).mpr ⟨(guardAlike_undisputed a .pauseIf rfl).trans hpaused,
        fun c hc => hall c (List.mem_of_mem_filter hc)⟩

end ClauseGroups

namespace Trigger
open ClauseGroups Clause

/-- **A trigger of comparisons**: groups end in rows that do not chain on, and all rows but modifiers
compare. -/
structure IsComparing (t : Trigger) : Prop where
  rows : ∀ r ∈ t.rows, r.role.isModifier = false → r.isComparison = true
  ends : ∀ group ∈ t.groups, EndsClause group

variable {t : Trigger}

theorem IsComparing.isTerminated (h : t.IsComparing) : (ofTrigger t).All IsTerminated :=
  (all_ofTrigger_of_rows h.ends h.rows).imp fun _ hc => hc.1

/-- Terminal rows are no modifiers, so that they compare. -/
theorem IsComparing.fits (h : t.IsComparing) : (ofTrigger t).All (Fits (ofTrigger t).anyHits) := by
  intro group hgroup c hc
  obtain ⟨hterminated, hrows⟩ := all_ofTrigger_of_rows h.ends h.rows group hgroup c hc
  have hmodifier := Role.isModifier_of_not_isCombining hterminated.terminal
  exact ⟨hrows c.terminal c.terminal_mem_rows hmodifier, fun hnone =>
    anyHits_eq_false.mp hnone group hgroup c hc⟩

/-- **What removing redundant clauses does to the firing of a trigger**: none is lost, and one is
gained where the trigger would fire without the clauses that are misjudged. -/
theorem firesIn_removeRedundancies (m : Memory) (h : t.IsComparing) :
    (removeRedundancies.run t).trigger.firesIn m =
      (t.firesIn m || (ofTrigger t).withoutMisjudged.firesIn m) := by
  have hstored : (ofTrigger t).withoutOverlaps.All IsTerminated :=
    h.isTerminated.withoutOverlaps closed_isTerminated
  rw [trigger_removeRedundancies, ← firesIn_ofTrigger, ofTrigger_toTrigger hstored,
    firesIn_withoutOverlaps_eq h.fits, ← firesIn_ofTrigger m t]
  cases hfires : (ofTrigger t).firesIn m with
  | false => rfl
  | true => rw [firesIn_withoutMisjudged_of_firesIn hfires]; rfl

/-- A reset and the filter that negates it behind the same `andNext` row, beside a counted row. -/
def linkedReset : Trigger :=
  { core := [{ Row.comparing (.memory .byte 1) .eq (.literal 1) with role := .andNext },
      { Row.comparing (.memory .byte 2) .eq (.literal 1) with role := .resetIf },
      { Row.comparing (.memory .byte 1) .eq (.literal 1) with role := .andNext },
      .comparing (.memory .byte 2) .ne (.literal 1),
      { Row.comparing (.memory .byte 3) .eq (.literal 0) with hits := 1 }]
    alternates := [] }

/-- The filter is taken for implied by the reset, and the trigger fires that did not. -/
theorem firesIn_removeRedundancies_linkedReset :
    linkedReset.IsComparing ∧ linkedReset.firesIn .zero = false ∧
      (removeRedundancies.run linkedReset).trigger.firesIn .zero = true := by
  have h : linkedReset.IsComparing := ⟨by decide, by simp only [EndsClause]; decide⟩
  refine ⟨h, by decide +kernel, ?_⟩
  rw [firesIn_removeRedundancies .zero h]
  decide +kernel

end Trigger
end MemoryTrigger

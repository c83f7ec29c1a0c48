import MemoryTrigger.Proofs.ClauseMeaning
import MemoryTrigger.Simplify.ClauseGroups

/-! # Groups and triggers in clause form

Passes rewrite lists of clauses, while a trigger is lists of rows.  Two things tie the views
together.  A list of clauses that all end in a terminal row is found again when its rows are split
(`Clause.split_join`), so that nothing moves from one clause to another when a pass stores its
result.  A clause that dangles instead takes in the one that was put behind it, which never leaves
more single rows than there were (`Clause.count_split_join_le`).  And whether a trigger fires depends
on three facts about each of its groups: whether it is paused, whether it resets, and whether it
holds (`Clause.AgreeIn`). -/
namespace MemoryTrigger

namespace Clause

/-! ## Splitting what was joined -/

/-- The rows of the lead chain on, and the terminal row does not. -/
structure IsTerminated (c : Clause) : Prop where
  lead : ∀ r ∈ c.lead, r.role.isCombining = true
  terminal : c.terminal.role.isCombining = false

/-- A group whose last row, if it has one, does not wait for another. -/
def EndsClause (rows : List Row) : Prop := ∀ r ∈ rows.getLast?, r.role.isCombining = false

instance : DecidablePred EndsClause := fun rows =>
  inferInstanceAs (Decidable (∀ r ∈ rows.getLast?, r.role.isCombining = false))

theorem join_cons (c : Clause) (cs : List Clause) : join (c :: cs) = c.rows ++ join cs := rfl

theorem split_rows_append {c : Clause} (hc : c.IsTerminated) (rest : List Row) :
    split (c.rows ++ rest) = c :: split rest := by
  obtain ⟨lead, terminal⟩ := c
  have hlead := hc.lead
  have hterminal : terminal.role.isCombining = false := hc.terminal
  clear hc
  induction lead with
  | nil => simp [rows, split, hterminal, single]
  | cons r lead ih =>
    have hrest := ih fun r' hr' => hlead r' (List.mem_cons_of_mem _ hr')
    have hr : r.role.isCombining = true := hlead r List.mem_cons_self
    change split (r :: (Clause.rows ⟨lead, terminal⟩ ++ rest)) = _
    rw [split, if_pos hr, hrest]

/-- **Joining loses nothing**: clauses that end in terminal rows are found again among their rows. -/
theorem split_join {cs : List Clause} (h : ∀ c ∈ cs, c.IsTerminated) : split (join cs) = cs := by
  induction cs with
  | nil => rfl
  | cons c cs ih =>
    rw [join_cons, split_rows_append (h c List.mem_cons_self),
      ih fun d hd => h d (List.mem_cons_of_mem _ hd)]

theorem split_eq_nil {rows : List Row} : split rows = [] ↔ rows = [] := by
  constructor
  · intro h
    rw [← join_split rows, h]
    rfl
  · rintro rfl
    rfl

/-- Rows that do not chain on are clauses by themselves. -/
theorem split_of_plain {rows : List Row} (h : ∀ r ∈ rows, r.role = .plain) :
    split rows = rows.map single := by
  induction rows with
  | nil => rfl
  | cons r rest ih =>
    obtain ⟨hr, hrest⟩ := List.forall_mem_cons.mp h
    rw [split, hr, ih hrest]
    rfl

theorem join_map_single (rows : List Row) : join (rows.map single) = rows := by
  rw [join, List.flatMap_map]
  exact List.flatMap_singleton' rows

theorem combining_of_mem_split {rows : List Row} {c : Clause} (hc : c ∈ split rows) :
    ∀ r ∈ c.lead, r.role.isCombining = true := by
  induction rows generalizing c with
  | nil => cases hc
  | cons r rest ih =>
    rw [split] at hc
    split at hc
    · rename_i hr
      split at hc
      · rw [List.mem_singleton.mp hc]
        simp [single]
      · rename_i d ds hsplit
        rw [hsplit] at ih
        rcases List.mem_cons.mp hc with rfl | hc
        · exact List.forall_mem_cons.mpr ⟨hr, ih List.mem_cons_self⟩
        · exact ih (List.mem_cons_of_mem _ hc)
    · rcases List.mem_cons.mp hc with rfl | hc
      · simp [single]
      · exact ih hc

/-- The clauses of a group that ends in a terminal row all do. -/
theorem isTerminated_of_mem_split {rows : List Row} (h : EndsClause rows) :
    ∀ c ∈ split rows, c.IsTerminated := by
  refine fun c hc => ⟨combining_of_mem_split hc, ?_⟩
  induction rows generalizing c with
  | nil => cases hc
  | cons r rest ih =>
    have hlast (hne : rest ≠ []) : EndsClause rest := fun s hs =>
      h s (by rwa [List.getLast?_cons_of_ne_nil hne])
    rw [split] at hc
    split at hc
    · rename_i hr
      split at hc
      · rename_i hnil
        have hcombining := h r (by simp [split_eq_nil.mp hnil])
        simp [hr] at hcombining
      · rename_i d ds hsplit
        have hne : rest ≠ [] := by
          rintro rfl
          cases hsplit
        rw [hsplit] at ih
        rcases List.mem_cons.mp hc with rfl | hc
        · exact ih (hlast hne) d List.mem_cons_self
        · exact ih (hlast hne) c (List.mem_cons_of_mem _ hc)
    · rename_i hr
      rcases List.mem_cons.mp hc with rfl | hc
      · simpa [single] using hr
      · refine ih (hlast ?_) c hc
        rintro rfl
        cases hc

/-- The rows of the clauses of a group are the rows of the group. -/
theorem mem_of_mem_split {rows : List Row} {c : Clause} {r : Row} (hc : c ∈ split rows)
    (hr : r ∈ c.rows) : r ∈ rows := by
  rw [← join_split rows]
  exact List.mem_flatMap.mpr ⟨c, hc, hr⟩

theorem endsClause_join {cs : List Clause} (h : ∀ c ∈ cs, c.IsTerminated) :
    EndsClause (join cs) := by
  intro r hr
  rcases List.eq_nil_or_concat cs with rfl | ⟨init, c, rfl⟩
  · cases hr
  · have hlast : (join (init ++ [c])).getLast? = some c.terminal := by
      simp [join, Clause.rows]
    rw [List.concat_eq_append] at h
    rw [List.concat_eq_append, hlast, Option.mem_some_iff] at hr
    rw [← hr]
    exact (h c (by simp)).terminal

/-! ## Splitting clauses that dangle -/

/-- Rows behind a clause make clauses of their own, up to the first, which a dangling clause takes
in. -/
theorem split_rows_append_cases {c : Clause} (hlead : ∀ r ∈ c.lead, r.role.isCombining = true)
    (rest : List Row) :
    ∃ d ds, split (c.rows ++ rest) = d :: ds ∧ (d = c ∨ d.lead ≠ []) ∧
      ds.Sublist (split rest) := by
  obtain ⟨lead, terminal⟩ := c
  induction lead with
  | nil =>
    change ∃ d ds, split (terminal :: rest) = d :: ds ∧ _
    rw [split]
    split
    · split
      · exact ⟨_, _, rfl, .inl rfl, List.nil_sublist _⟩
      · rename_i d ds hsplit
        rw [hsplit]
        exact ⟨_, ds, rfl, .inr (by simp), List.sublist_cons_self d ds⟩
    · exact ⟨_, _, rfl, .inl rfl, List.Sublist.refl _⟩
  | cons r lead ih =>
    obtain ⟨hr, hlead⟩ := List.forall_mem_cons.mp hlead
    obtain ⟨d, ds, hsplit, -, hsub⟩ := ih hlead
    change ∃ d ds, split (r :: (Clause.rows ⟨lead, terminal⟩ ++ rest)) = d :: ds ∧ _
    rw [split, if_pos hr, hsplit]
    exact ⟨_, ds, rfl, .inr (by simp), hsub⟩

/-- **Splitting joined clauses makes no new single rows.** -/
theorem count_split_join_le {cs : List Clause}
    (h : ∀ c ∈ cs, ∀ r ∈ c.lead, r.role.isCombining = true) (r : Row) :
    (split (join cs)).count (single r) ≤ cs.count (single r) := by
  induction cs with
  | nil => exact Nat.le_refl _
  | cons c cs ih =>
    obtain ⟨hc, hcs⟩ := List.forall_mem_cons.mp h
    obtain ⟨d, ds, hsplit, hd, hsub⟩ := split_rows_append_cases hc (join cs)
    have hrest : ds.count (single r) ≤ cs.count (single r) :=
      Nat.le_trans (hsub.count_le _) (ih hcs)
    rw [join_cons, hsplit]
    -- the first clause is a single row only if it is the one that was there
    by_cases heq : d = single r
    · obtain rfl : d = c := hd.resolve_right (by simp [heq, single])
      simpa [List.count_cons, heq] using hrest
    · rw [List.count_cons_of_ne heq]
      exact Nat.le_trans hrest List.count_le_count_cons

theorem join_eq_nil {cs : List Clause} : join cs = [] ↔ cs = [] := by
  constructor
  · intro h
    cases cs with
    | nil => rfl
    | cons c cs => simp [join_cons, rows] at h
  · rintro rfl
    rfl

theorem split_join_eq_alwaysTrueGroup {cs : List Clause} (h : split (join cs) = alwaysTrueGroup) :
    cs = alwaysTrueGroup := by
  have hrows : join cs = [.alwaysTrue] := by
    rw [← join_split (join cs), h]
    rfl
  cases cs with
  | nil => cases hrows
  | cons c cs =>
    obtain ⟨lead, terminal⟩ := c
    cases lead with
    | nil =>
      obtain ⟨rfl, hnil⟩ : terminal = .alwaysTrue ∧ join cs = [] := by
        simpa [join_cons, rows] using hrows
      rw [join_eq_nil.mp hnil]
      rfl
    | cons r lead => simp [join_cons, rows] at hrows

/-! ## Facts about groups -/

section Facts
variable (m : Memory)

theorem someHolds_iff {role : Role} {group : List Clause} :
    someHolds m role group = true ↔ ∃ c ∈ group, c.role = role ∧ c.holdsIn m = true := by
  simp [someHolds]

theorem isPausedIn_iff {group : List Clause} :
    isPausedIn m group = true ↔ ∃ c ∈ group, c.role = .pauseIf ∧ c.holdsIn m = true :=
  someHolds_iff m

theorem not_isPausedIn_iff {group : List Clause} :
    isPausedIn m group = false ↔ ∀ c ∈ group, c.role = .pauseIf → c.holdsIn m = false := by
  rw [← Bool.not_eq_true, isPausedIn_iff]
  simp

theorem resetsIn_iff {group : List Clause} :
    resetsIn m group = true ↔
      isPausedIn m group = false ∧ ∃ c ∈ group, c.role = .resetIf ∧ c.holdsIn m = true := by
  rw [resetsIn, Bool.and_eq_true, Bool.not_eq_true', someHolds_iff]

theorem allHoldIn_iff {group : List Clause} :
    allHoldIn m group = true ↔ isPausedIn m group = false ∧
      ∀ c ∈ group, c.role.isTruthy = true → c.holdsIn m = true := by
  simp [allHoldIn, Bool.or_eq_true, ← Bool.not_eq_true, Decidable.imp_iff_not_or]

theorem isPausedIn_append (a b : List Clause) :
    isPausedIn m (a ++ b) = (isPausedIn m a || isPausedIn m b) := by
  simp [isPausedIn, someHolds]

/-- Putting groups together puts their pauses together: a reset shows where neither pauses. -/
theorem resetsIn_append (a b : List Clause) :
    resetsIn m (a ++ b) =
      (resetsIn m a && !isPausedIn m b || resetsIn m b && !isPausedIn m a) := by
  rw [resetsIn, resetsIn, resetsIn, isPausedIn_append, someHolds, List.any_append, someHolds,
    someHolds]
  cases isPausedIn m a <;> cases isPausedIn m b <;> simp

theorem allHoldIn_append (a b : List Clause) :
    allHoldIn m (a ++ b) = (allHoldIn m a && allHoldIn m b) := by
  rw [allHoldIn, allHoldIn, allHoldIn, isPausedIn_append, List.all_append]
  cases isPausedIn m a <;> cases isPausedIn m b <;> simp

/-- Two groups are paused, reset and hold alike. -/
structure AgreeIn (a b : List Clause) : Prop where
  paused : isPausedIn m a = isPausedIn m b
  resets : resetsIn m a = resetsIn m b
  holds : allHoldIn m a = allHoldIn m b

namespace AgreeIn
variable {m}

theorem refl (a : List Clause) : AgreeIn m a a := ⟨rfl, rfl, rfl⟩

theorem trans {a b c : List Clause} (hab : AgreeIn m a b) (hbc : AgreeIn m b c) :
    AgreeIn m a c :=
  ⟨hab.paused.trans hbc.paused, hab.resets.trans hbc.resets, hab.holds.trans hbc.holds⟩

/-- Groups agree when they have the same pauses and resets, as far as these hold, and what has to
hold in one group holds exactly when it holds in the other. -/
theorem of_iff {a b : List Clause}
    (hpause : (∃ c ∈ a, c.role = .pauseIf ∧ c.holdsIn m = true) ↔
      ∃ c ∈ b, c.role = .pauseIf ∧ c.holdsIn m = true)
    (hreset : (∃ c ∈ a, c.role = .resetIf ∧ c.holdsIn m = true) ↔
      ∃ c ∈ b, c.role = .resetIf ∧ c.holdsIn m = true)
    (hall : (∀ c ∈ a, c.role.isTruthy = true → c.holdsIn m = true) ↔
      ∀ c ∈ b, c.role.isTruthy = true → c.holdsIn m = true) : AgreeIn m a b := by
  have hpaused : isPausedIn m a = isPausedIn m b := by
    rw [Bool.eq_iff_iff, isPausedIn_iff, isPausedIn_iff, hpause]
  refine ⟨hpaused, ?_, ?_⟩
  · rw [Bool.eq_iff_iff, resetsIn_iff, resetsIn_iff, hpaused, hreset]
  · rw [Bool.eq_iff_iff, allHoldIn_iff, allHoldIn_iff, hpaused, hall]

/-- Order and repetition of clauses do not matter. -/
theorem of_mem_iff {a b : List Clause} (h : ∀ c, c ∈ a ↔ c ∈ b) : AgreeIn m a b :=
  of_iff (by simp only [h]) (by simp only [h]) (by simp only [h])

/-- Groups that agree go on doing so beside the same clauses. -/
theorem append_right {a b : List Clause} (h : AgreeIn m a b) (rest : List Clause) :
    AgreeIn m (a ++ rest) (b ++ rest) := by
  refine ⟨?_, ?_, ?_⟩
  · rw [isPausedIn_append, isPausedIn_append, h.paused]
  · rw [resetsIn_append, resetsIn_append, h.paused, h.resets]
  · rw [allHoldIn_append, allHoldIn_append, h.holds]

/-- Groups of filters agree when they hold alike. -/
theorem of_plain {a b : List Clause} (ha : ∀ c ∈ a, c.role = .plain)
    (hb : ∀ c ∈ b, c.role = .plain)
    (h : (∀ c ∈ a, c.holdsIn m = true) ↔ ∀ c ∈ b, c.holdsIn m = true) : AgreeIn m a b := by
  have hnone {group : List Clause} (hgroup : ∀ c ∈ group, c.role = .plain) {role : Role}
      (hrole : role ≠ .plain) : ¬ ∃ c ∈ group, c.role = role ∧ c.holdsIn m = true := by
    rintro ⟨c, hc, rfl, -⟩
    exact hrole (hgroup c hc)
  have hall {group : List Clause} (hgroup : ∀ c ∈ group, c.role = .plain) :
      (∀ c ∈ group, c.role.isTruthy = true → c.holdsIn m = true) ↔
        ∀ c ∈ group, c.holdsIn m = true := by
    refine forall₂_congr fun c hc => ?_
    simp [hgroup c hc, Role.isTruthy]
  refine .of_iff ?_ ?_ ?_
  · exact iff_of_false (hnone ha (by simp)) (hnone hb (by simp))
  · exact iff_of_false (hnone ha (by simp)) (hnone hb (by simp))
  · rw [hall ha, hall hb, h]

theorem of_perm {a b : List Clause} (h : a.Perm b) : AgreeIn m a b :=
  of_mem_iff fun _ => h.mem_iff

end AgreeIn

/-- Whether a group neither pauses nor resets and holds: what the core must do for the trigger to
fire.  Unlike the three facts apart, this is a conjunction over the clauses. -/
def passesIn (group : List Clause) : Bool := !resetsIn m group && allHoldIn m group

theorem passesIn_iff {group : List Clause} :
    passesIn m group = true ↔ ∀ c ∈ group, (c.role.isGuard = true → c.holdsIn m = false) ∧
      (c.role.isTruthy = true → c.holdsIn m = true) := by
  have hguard : ∀ c : Clause, c.role.isGuard = true ↔ c.role = .resetIf ∨ c.role = .pauseIf := by
    intro c
    cases c.role <;> simp [Role.isGuard]
  rw [passesIn, Bool.and_eq_true, Bool.not_eq_true', ← Bool.not_eq_true, resetsIn_iff,
    allHoldIn_iff]
  constructor
  · rintro ⟨hreset, hpaused, hall⟩ c hc
    refine ⟨fun hg => ?_, hall c hc⟩
    rcases (hguard c).mp hg with hrole | hrole
    · rw [← Bool.not_eq_true]
      exact fun hholds => hreset ⟨hpaused, c, hc, hrole, hholds⟩
    · exact (not_isPausedIn_iff m).mp hpaused c hc hrole
  · intro h
    refine ⟨?_, (not_isPausedIn_iff m).mpr fun c hc hrole => ?_, fun c hc => (h c hc).2⟩
    · rintro ⟨-, c, hc, hrole, hholds⟩
      rw [(h c hc).1 ((hguard c).mpr (.inl hrole))] at hholds
      cases hholds
    · exact (h c hc).1 ((hguard c).mpr (.inr hrole))

theorem passesIn_append (a b : List Clause) :
    passesIn m (a ++ b) = (passesIn m a && passesIn m b) := by
  rw [Bool.eq_iff_iff, Bool.and_eq_true, passesIn_iff, passesIn_iff, passesIn_iff,
    List.forall_mem_append]

/-- Clauses that are rewritten one by one pass as before where each of them does. -/
theorem passesIn_flatMap {f : Clause → List Clause} {group : List Clause}
    (h : ∀ c ∈ group, passesIn m (f c) = passesIn m [c]) :
    passesIn m (group.flatMap f) = passesIn m group := by
  induction group with
  | nil => rfl
  | cons c rest ih =>
    rw [List.flatMap_cons, passesIn_append, h c List.mem_cons_self,
      ih fun d hd => h d (List.mem_cons_of_mem _ hd), ← passesIn_append]
    rfl

/-- Filters alone pass when all of them hold. -/
theorem passesIn_of_plain {group : List Clause} (h : ∀ c ∈ group, c.role = .plain) :
    passesIn m group = group.all (·.holdsIn m) := by
  rw [Bool.eq_iff_iff, passesIn_iff, List.all_eq_true]
  exact ⟨fun hpass c hc => (hpass c hc).2 (by rw [h c hc]; rfl),
    fun hall c hc => ⟨fun hg => (by rw [h c hc] at hg; cases hg), fun _ => hall c hc⟩⟩

theorem passesIn_plain {c : Clause} (h : c.role = .plain) : passesIn m [c] = c.holdsIn m := by
  rw [passesIn_of_plain m (by simpa using h)]
  simp

/-- A guard alone passes when it does not hold. -/
theorem passesIn_guard {c : Clause} (h : c.role.isGuard = true) :
    passesIn m [c] = !c.holdsIn m := by
  have htruthy : c.role.isTruthy = false := by
    revert h
    cases c.role <;> simp [Role.isGuard, Role.isTruthy]
  rw [Bool.eq_iff_iff, passesIn_iff]
  simp [h, htruthy]

/-- The group of `1=1` says as little as a group without clauses. -/
theorem agreeIn_alwaysTrueGroup : AgreeIn m alwaysTrueGroup [] :=
  .of_iff (by simp [alwaysTrueGroup, role, single, Row.alwaysTrue, Row.comparing])
    (by simp [alwaysTrueGroup, role, single, Row.alwaysTrue, Row.comparing])
    (by simp [alwaysTrueGroup])

/-- Without resets, holding and passing are the same. -/
theorem allHoldIn_eq_passesIn {group : List Clause} (h : ∀ c ∈ group, c.role ≠ .resetIf) :
    allHoldIn m group = passesIn m group := by
  have hresets : resetsIn m group = false := by
    rw [← Bool.not_eq_true, resetsIn_iff]
    rintro ⟨-, c, hc, hrole, -⟩
    exact h c hc hrole
  rw [passesIn, hresets, Bool.not_false, Bool.true_and]

/-- A role that no row of a group has is the role of none of its clauses. -/
theorem role_ne_of_anyRole_eq_false {group : List Clause} {role : Role}
    (h : anyRole group role = false) : ∀ c ∈ group, c.role ≠ role := by
  intro c hc hrole
  have hrow := List.any_eq_false.mp h c hc
  simp only [hasRole, List.any_eq_true, beq_iff_eq, not_exists, not_and] at hrow
  exact hrow c.terminal (by simp [rows]) hrole

theorem isPausedIn_of_anyRole_eq_false {group : List Clause}
    (h : anyRole group .pauseIf = false) : isPausedIn m group = false :=
  (not_isPausedIn_iff m).mpr fun c hc hrole => absurd hrole (role_ne_of_anyRole_eq_false h c hc)

theorem resetsIn_of_anyRole_eq_false {group : List Clause}
    (h : anyRole group .resetIf = false) : resetsIn m group = false := by
  rw [← Bool.not_eq_true, resetsIn_iff]
  rintro ⟨-, c, hc, hrole, -⟩
  exact role_ne_of_anyRole_eq_false h c hc hrole

/-- Clauses that would pass by themselves may be left out of a group. -/
theorem AgreeIn.of_subset {m : Memory} {a b : List Clause} (hsub : ∀ c ∈ a, c ∈ b)
    (hdrop : ∀ c ∈ b, c ∉ a → passesIn m [c] = true) : AgreeIn m a b := by
  have hexists {role : Role} (hrole : role.isGuard = true) :
      (∃ c ∈ a, c.role = role ∧ c.holdsIn m = true) ↔
        ∃ c ∈ b, c.role = role ∧ c.holdsIn m = true := by
    constructor
    · rintro ⟨c, hc, h⟩
      exact ⟨c, hsub c hc, h⟩
    · rintro ⟨c, hc, rfl, hholds⟩
      by_cases hca : c ∈ a
      · exact ⟨c, hca, rfl, hholds⟩
      · have hpasses := hdrop c hc hca
        simp [passesIn_guard m hrole, hholds] at hpasses
  refine .of_iff (hexists rfl) (hexists rfl) ⟨fun hall c hc htruthy => ?_, fun hall c hc => ?_⟩
  · by_cases hca : c ∈ a
    · exact hall c hca htruthy
    · exact ((passesIn_iff m).mp (hdrop c hc hca) c (List.mem_singleton_self c)).2 htruthy
  · exact hall c (hsub c hc)

theorem AgreeIn.passes {m : Memory} {a b : List Clause} (h : AgreeIn m a b) :
    passesIn m a = passesIn m b := by
  rw [passesIn, passesIn, h.resets, h.holds]

/-- **A group may stand for another one in a trigger**: the two pause and reset alike, and hold
alike as long as they do not reset, because a reset fails the trigger whatever holds. -/
structure StandsFor (a b : List Clause) : Prop where
  paused : isPausedIn m a = isPausedIn m b
  resets : resetsIn m a = resetsIn m b
  holds : resetsIn m b = false → allHoldIn m a = allHoldIn m b

namespace StandsFor
variable {m}

theorem of_agreeIn {a b : List Clause} (h : AgreeIn m a b) : StandsFor m a b :=
  ⟨h.paused, h.resets, fun _ => h.holds⟩

theorem trans {a b c : List Clause} (hab : StandsFor m a b) (hbc : StandsFor m b c) :
    StandsFor m a c :=
  ⟨hab.paused.trans hbc.paused, hab.resets.trans hbc.resets, fun hc =>
    (hab.holds (hbc.resets.trans hc)).trans (hbc.holds hc)⟩

/-- Standing for a group is not disturbed by other clauses beside it. -/
theorem append_right {a b : List Clause} (h : StandsFor m a b) (rest : List Clause) :
    StandsFor m (a ++ rest) (b ++ rest) := by
  refine ⟨?_, ?_, fun hresets => ?_⟩
  · rw [isPausedIn_append, isPausedIn_append, h.paused]
  · rw [resetsIn_append, resetsIn_append, h.paused, h.resets]
  · rw [allHoldIn_append, allHoldIn_append]
    cases hpaused : isPausedIn m rest with
    | true => simp [allHoldIn, hpaused]
    | false =>
      rw [resetsIn_append, hpaused] at hresets
      rw [h.holds (by revert hresets; cases resetsIn m b <;> simp)]

end StandsFor

/-- Two groups pause and reset for the same reasons. -/
def GuardAlike (a b : List Clause) : Prop :=
  ∀ role : Role, role.isGuard = true → someHolds m role a = someHolds m role b

section Guards
variable {m} {a b c : List Clause}

theorem GuardAlike.resets (h : GuardAlike m a b) : resetsIn m a = resetsIn m b := by
  rw [resetsIn, resetsIn, isPausedIn, isPausedIn, h .pauseIf rfl, h .resetIf rfl]

theorem GuardAlike.trans (h : GuardAlike m a b) (h' : GuardAlike m b c) : GuardAlike m a c :=
  fun role hrole => (h role hrole).trans (h' role hrole)

/-- Groups with the same guards. -/
theorem GuardAlike.of_mem (h : ∀ d : Clause, d.isGuard = true → (d ∈ a ↔ d ∈ b)) :
    GuardAlike m a b := by
  intro role hrole
  rw [Bool.eq_iff_iff, someHolds_iff, someHolds_iff]
  constructor <;> rintro ⟨d, hd, rfl, hholds⟩
  · exact ⟨d, (h d hrole).mp hd, rfl, hholds⟩
  · exact ⟨d, (h d hrole).mpr hd, rfl, hholds⟩

theorem GuardAlike.append_right (h : GuardAlike m a b) (rest : List Clause) :
    GuardAlike m (a ++ rest) (b ++ rest) := by
  intro role hrole
  rw [someHolds, someHolds, List.any_append, List.any_append]
  exact congrArg (· || _) (h role hrole)

theorem GuardAlike.of_perm (h : a.Perm b) : GuardAlike m a b := .of_mem fun _ _ => h.mem_iff

/-- Clauses of which none is a guard. -/
theorem GuardAlike.of_forall (ha : ∀ d ∈ a, d.isGuard = false) (hb : ∀ d ∈ b, d.isGuard = false) :
    GuardAlike m a b :=
  .of_mem fun d hd => iff_of_false (fun hmem => by simp [ha d hmem] at hd)
    fun hmem => by simp [hb d hmem] at hd

theorem isGuard_of_plain {c : Clause} (h : c.role = .plain) : c.isGuard = false := by
  rw [isGuard, h]
  rfl

theorem GuardAlike.of_filter {a b : Clause} (hb : b.role = .plain) : GuardAlike m [a] [a, b] := by
  refine .of_mem fun d hd => ?_
  have hne : d ≠ b := by
    rintro rfl
    simp [isGuard_of_plain hb] at hd
  simp [hne]

/-- Groups that pause and reset for the same reasons stand for one another where they pass alike. -/
theorem GuardAlike.standsFor (h : GuardAlike m a b) (hpasses : passesIn m a = passesIn m b) :
    StandsFor m a b := by
  refine ⟨h .pauseIf rfl, h.resets, fun hresets => ?_⟩
  rw [passesIn, passesIn, h.resets, hresets] at hpasses
  simpa using hpasses

end Guards

end Facts
end Clause

/-! ## Triggers in clause form -/

namespace ClauseGroups
open Clause

/-- What all clauses of all groups are like. -/
def All (P : Clause → Prop) (g : ClauseGroups) : Prop := ∀ group ∈ g.groups, ∀ c ∈ group, P c

theorem all_iff {P : Clause → Prop} {g : ClauseGroups} :
    g.All P ↔ (∀ c ∈ g.core, P c) ∧ ∀ group ∈ g.alternates, ∀ c ∈ group, P c := by
  simp [All, groups]

theorem All.imp {P Q : Clause → Prop} (h : ∀ c, P c → Q c) {g : ClauseGroups} (hg : g.All P) :
    g.All Q := fun group hgroup c hc => h c (hg group hgroup c hc)

theorem all_ofTrigger_iff {P : Clause → Prop} {t : Trigger} :
    (ofTrigger t).All P ↔ ∀ rows ∈ t.groups, ∀ c ∈ split rows, P c := by
  simp [All, groups, ofTrigger, Trigger.groups]

theorem all_isTerminated_ofTrigger {t : Trigger} (h : ∀ group ∈ t.groups, EndsClause group) :
    (ofTrigger t).All IsTerminated :=
  all_ofTrigger_iff.mpr fun rows hrows => isTerminated_of_mem_split (h rows hrows)

/-- Where groups end in terminal rows, what holds of all rows holds of the rows of all clauses. -/
theorem all_ofTrigger_of_rows {P : Row → Prop} {t : Trigger}
    (hends : ∀ group ∈ t.groups, EndsClause group) (hrows : ∀ r ∈ t.rows, P r) :
    (ofTrigger t).All fun c => c.IsTerminated ∧ ∀ r ∈ c.rows, P r :=
  all_ofTrigger_iff.mpr fun rows hmem c hc => ⟨isTerminated_of_mem_split (hends rows hmem) c hc,
    fun r hr => hrows r (List.mem_flatten.mpr ⟨rows, hmem, mem_of_mem_split hc hr⟩)⟩

/-- Storing clauses as rows keeps them apart. -/
theorem ofTrigger_toTrigger {g : ClauseGroups} (h : g.All IsTerminated) :
    ofTrigger g.toTrigger = g := by
  obtain ⟨hcore, halternates⟩ := all_iff.mp h
  obtain ⟨core, alternates⟩ := g
  simp only [ofTrigger, toTrigger, split_join hcore, List.map_map, mk.injEq, true_and]
  exact (List.map_congr_left fun group hgroup => split_join (halternates group hgroup)).trans
    (List.map_id _)

/-- Whether the trigger of the groups fires in its first frame. -/
def firesIn (m : Memory) (g : ClauseGroups) : Bool :=
  passesIn m g.core && !g.alternates.any (Clause.resetsIn m) &&
    (g.alternates.isEmpty || g.alternates.any (allHoldIn m))

theorem firesIn_ofTrigger (m : Memory) (t : Trigger) :
    (ofTrigger t).firesIn m = t.firesIn m := by
  simp only [firesIn, Trigger.firesIn, Trigger.resetsIn, Trigger.groups, ofTrigger, passesIn,
    List.any_map, List.any_cons, List.isEmpty_map, Function.comp_def, Bool.not_or]
  cases Clause.resetsIn m (split t.core) <;> cases allHoldIn m (split t.core) <;> simp

theorem firesIn_toTrigger (m : Memory) {g : ClauseGroups} (h : g.All IsTerminated) :
    g.toTrigger.firesIn m = g.firesIn m := by
  rw [← firesIn_ofTrigger, ofTrigger_toTrigger h]

theorem firesIn_iff {m : Memory} {g : ClauseGroups} :
    g.firesIn m = true ↔ passesIn m g.core = true ∧
      (∀ a ∈ g.alternates, Clause.resetsIn m a = false) ∧
      (g.alternates.isEmpty || g.alternates.any (allHoldIn m)) = true := by
  rw [firesIn, Bool.and_eq_true, Bool.and_eq_true, and_assoc, Bool.not_eq_true', List.any_eq_false]
  simp only [Bool.not_eq_true]

/-- Groups fire alike when the cores pass alike and the alternates agree as a whole on whether there
are any, whether one resets and whether one holds. -/
theorem firesIn_congr {m : Memory} {g g' : ClauseGroups}
    (hcore : passesIn m g.core = passesIn m g'.core)
    (hempty : g.alternates.isEmpty = g'.alternates.isEmpty)
    (hresets : g.alternates.any (Clause.resetsIn m) = g'.alternates.any (Clause.resetsIn m))
    (hholds : g.alternates.any (allHoldIn m) = g'.alternates.any (allHoldIn m)) :
    g.firesIn m = g'.firesIn m := by
  simp [firesIn, hcore, hempty, hresets, hholds]

theorem any_congr_of_mem {α : Type} {xs : List α} {p q : α → Bool} (h : ∀ a ∈ xs, p a = q a) :
    xs.any p = xs.any q := by
  induction xs with
  | nil => rfl
  | cons a rest ih =>
    rw [List.any_cons, List.any_cons, h a List.mem_cons_self,
      ih fun b hb => h b (List.mem_cons_of_mem _ hb)]

/-- Alternates may be rewritten one by one into groups that stand for one another. -/
theorem firesIn_map_of_standsFor {α : Type} {m : Memory} {core core' : List Clause}
    {alternates : List α} {f f' : α → List Clause}
    (hcore : passesIn m core = passesIn m core')
    (h : ∀ a ∈ alternates, StandsFor m (f a) (f' a)) :
    (ClauseGroups.mk core (alternates.map f)).firesIn m =
      (ClauseGroups.mk core' (alternates.map f')).firesIn m := by
  have hresets : (alternates.map f).any (Clause.resetsIn m) =
      (alternates.map f').any (Clause.resetsIn m) := by
    rw [List.any_map, List.any_map]
    exact any_congr_of_mem fun a ha => (h a ha).resets
  cases hany : (alternates.map f').any (Clause.resetsIn m) with
  | true => simp [firesIn, hany, hresets]
  | false =>
    refine firesIn_congr hcore (by simp) hresets ?_
    rw [List.any_map, List.any_map]
    refine any_congr_of_mem fun a ha => (h a ha).holds ?_
    simpa using List.any_eq_false.mp hany (f' a) (List.mem_map_of_mem ha)

theorem firesIn_of_standsFor {m : Memory} {core : List Clause} {f : List Clause → List Clause}
    {g : ClauseGroups} (hcore : passesIn m core = passesIn m g.core)
    (h : ∀ a ∈ g.alternates, StandsFor m (f a) a) :
    (ClauseGroups.mk core (g.alternates.map f)).firesIn m = g.firesIn m := by
  have hsame : (ClauseGroups.mk core (g.alternates.map f)).firesIn m =
      (ClauseGroups.mk g.core (g.alternates.map fun a => a)).firesIn m :=
    firesIn_map_of_standsFor hcore h
  rwa [List.map_id'] at hsame

end ClauseGroups

end MemoryTrigger

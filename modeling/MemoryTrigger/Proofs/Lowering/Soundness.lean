import MemoryTrigger.Compile
import MemoryTrigger.Proofs.Lowering.Chains

/-! # Lowering is sound

A guarded condition is lowered to a trigger whose conjunctions all carry the same guards: a core of
guards is put in front of every alternate that it meets.  If one of the guards holds, each
conjunction is paused or resets, and the trigger does not fire; if none does, the trigger fires when
all filters of one conjunction hold.  `Trigger.Lowers` keeps track of the two parts, and joining
triggers joins them (`Trigger.Lowers.and`, `Trigger.Lowers.or`). -/
namespace MemoryTrigger

/-! ## Guards and filters -/

namespace Clause

/-- Whether some guard of the group holds. -/
def guardHolds (m : Memory) (group : List Clause) : Bool :=
  group.any fun c => c.role.isGuard && c.holdsIn m

/-- Whether everything in the group holds that has to, pauses aside. -/
def filtersHold (m : Memory) (group : List Clause) : Bool :=
  group.all fun c => !c.role.isTruthy || c.holdsIn m

variable {m : Memory} {group : List Clause}

theorem someHolds_of_guardHolds_eq_false (h : guardHolds m group = false) {role : Role}
    (hrole : role.isGuard = true) : someHolds m role group = false := by
  rw [guardHolds, List.any_eq_false] at h
  rw [someHolds, List.any_eq_false]
  intro c hc hholds
  simp only [Bool.and_eq_true, beq_iff_eq] at hholds
  exact h c hc (by simp [hholds.1, hholds.2, hrole])

theorem resetsIn_of_guardHolds_eq_false (h : guardHolds m group = false) :
    resetsIn m group = false := by
  rw [resetsIn, someHolds_of_guardHolds_eq_false h rfl, Bool.and_false]

theorem allHoldIn_of_guardHolds_eq_false (h : guardHolds m group = false) :
    allHoldIn m group = filtersHold m group := by
  rw [allHoldIn, isPausedIn, someHolds_of_guardHolds_eq_false h rfl]
  rfl

/-- A guard that holds pauses the group or resets it. -/
theorem allHoldIn_of_guardHolds (h : guardHolds m group = true)
    (hresets : resetsIn m group = false) : allHoldIn m group = false := by
  cases hpaused : isPausedIn m group with
  | true => simp [allHoldIn, hpaused]
  | false =>
    rw [resetsIn, hpaused, Bool.not_false, Bool.true_and] at hresets
    obtain ⟨c, hc, hholds⟩ := List.any_eq_true.mp h
    rw [Bool.and_eq_true] at hholds
    have hreset := List.any_eq_false.mp hresets c hc
    have hpause := List.any_eq_false.mp hpaused c hc
    cases hrole : c.role <;> simp_all [Role.isGuard]

theorem guardHolds_append (a b : List Clause) :
    guardHolds m (a ++ b) = (guardHolds m a || guardHolds m b) := List.any_append

theorem filtersHold_append (a b : List Clause) :
    filtersHold m (a ++ b) = (filtersHold m a && filtersHold m b) := List.all_append

/-- Groups that end in a terminal row do not run into what comes behind them. -/
theorem split_append {a : List Row} (ha : EndsClause a) (b : List Row) :
    split (a ++ b) = split a ++ split b := by
  have hsplit : ∀ cs : List Clause, (∀ c ∈ cs, c.IsTerminated) →
      split (join cs ++ b) = cs ++ split b := by
    intro cs hcs
    induction cs with
    | nil => rfl
    | cons c cs ih =>
      obtain ⟨hc, hcs⟩ := List.forall_mem_cons.mp hcs
      rw [join_cons, List.append_assoc, split_rows_append hc, ih hcs, List.cons_append]
  have := hsplit (split a) (isTerminated_of_mem_split ha)
  rwa [join_split] at this

theorem EndsClause.append {a b : List Row} (ha : EndsClause a) (hb : EndsClause b) :
    EndsClause (a ++ b) := by
  intro r hr
  rw [List.getLast?_append, Option.mem_def, Option.or_eq_some_iff] at hr
  rcases hr with hr | ⟨-, hr⟩
  · exact hb r hr
  · exact ha r hr

end Clause

/-! ## Lowered triggers -/

namespace Trigger
open Clause

theorem conjunctions_ne_nil (t : Trigger) : t.conjunctions ≠ [] := by
  unfold conjunctions
  split
  · simp
  · rename_i h
    simpa [List.isEmpty_iff] using h

/-- Without a core, the alternates are the conjunctions. -/
theorem conjunctions_alternates {alternates : List (List Row)} (h : alternates ≠ []) :
    conjunctions { alternates } = alternates := by
  simp [conjunctions, h]

/-- A conjunction leaves no core beside alternates. -/
theorem and_core (a b : Trigger) : (a.and b).alternates ≠ [] → (a.and b).core = [] := by
  unfold Trigger.and
  split <;> simp

/-- **The conjunctions of two triggers that both hold** are those of one beside those of the other,
on one side or the other. -/
theorem mem_conjunctions_and {a b : Trigger} :
    (∀ rows ∈ (a.and b).conjunctions, ∃ x ∈ a.conjunctions, ∃ y ∈ b.conjunctions,
      rows = x ++ y ∨ rows = y ++ x) ∧
    ∀ x ∈ a.conjunctions, ∀ y ∈ b.conjunctions,
      x ++ y ∈ (a.and b).conjunctions ∨ y ++ x ∈ (a.and b).conjunctions := by
  unfold Trigger.and
  split
  · rename_i ha hb
    simp [conjunctions, ha, hb]
  · rename_i ha hb
    rw [conjunctions_alternates (by simp [conjunctions_ne_nil])]
    have hcore : a.conjunctions = [a.core] := by simp [conjunctions, ha]
    simp only [hcore, List.mem_map, List.mem_singleton]
    refine ⟨?_, ?_⟩
    · rintro rows ⟨y, hy, rfl⟩
      exact ⟨_, rfl, y, hy, .inl rfl⟩
    · rintro x rfl y hy
      exact .inl ⟨y, hy, rfl⟩
  · rename_i ha hb
    rw [conjunctions_alternates (by simp [conjunctions_ne_nil])]
    have hcore : b.conjunctions = [b.core] := by simp [conjunctions, hb]
    simp only [hcore, List.mem_map, List.mem_singleton]
    refine ⟨?_, ?_⟩
    · rintro rows ⟨x, hx, rfl⟩
      exact ⟨x, hx, _, rfl, .inr rfl⟩
    · rintro x hx y rfl
      exact .inr ⟨x, hx, rfl⟩
  · rw [conjunctions_alternates]
    · simp only [List.mem_flatMap, List.mem_map]
      refine ⟨?_, fun x hx y hy => .inl ⟨x, hx, y, hy, rfl⟩⟩
      rintro rows ⟨x, hx, y, hy, rfl⟩
      exact ⟨x, hx, y, hy, .inl rfl⟩
    · rw [Ne, List.flatMap_eq_nil_iff]
      intro hnil
      obtain ⟨x, hx⟩ := List.exists_mem_of_ne_nil _ a.conjunctions_ne_nil
      exact b.conjunctions_ne_nil (List.map_eq_nil_iff.mp (hnil x hx))

theorem conjunctions_or (a b : Trigger) :
    (a.or b).conjunctions = a.conjunctions ++ b.conjunctions :=
  conjunctions_alternates (by simp [conjunctions_ne_nil])

/-- Where rows are all in the core or all in alternates, the conjunctions decide. -/
theorem firesIn_eq_conjunctions (m : Memory) {t : Trigger} (h : t.alternates ≠ [] → t.core = []) :
    t.firesIn m = (!(t.conjunctions.any fun rows => Clause.resetsIn m (split rows)) &&
      t.conjunctions.any fun rows => allHoldIn m (split rows)) := by
  by_cases hempty : t.alternates = []
  · simp [Trigger.firesIn, Trigger.resetsIn, groups, conjunctions, hempty]
  · have hnil : split [] = [] := rfl
    have hresets : Clause.resetsIn m [] = false := rfl
    have hholds : allHoldIn m [] = true := rfl
    simp [Trigger.firesIn, Trigger.resetsIn, groups, conjunctions, h hempty, hnil, hresets, hholds,
      List.isEmpty_eq_false_iff.mpr hempty]

/-- **A lowered trigger in one memory**: either all rows are in the core or none are, every
conjunction has the same guards, one of which holds as `guarded` says, and the filters of some
conjunction hold as `filtered` says. -/
structure Lowers (t : Trigger) (m : Memory) (guarded filtered : Bool) : Prop where
  core : t.alternates ≠ [] → t.core = []
  ends : ∀ rows ∈ t.conjunctions, EndsClause rows
  guards : ∀ rows ∈ t.conjunctions, guardHolds m (split rows) = guarded
  filters : (t.conjunctions.any fun rows => filtersHold m (split rows)) = filtered

namespace Lowers
variable {t a b : Trigger} {m : Memory} {guarded filtered : Bool}

/-- Such a trigger fires when no guard holds and all filters of a conjunction do. -/
theorem firesIn_eq (h : t.Lowers m guarded filtered) : t.firesIn m = (!guarded && filtered) := by
  rw [firesIn_eq_conjunctions m h.core]
  cases guarded with
  | false =>
    have hresets : (t.conjunctions.any fun rows => Clause.resetsIn m (split rows)) = false :=
      List.any_eq_false.mpr fun rows hrows => by
        simp [resetsIn_of_guardHolds_eq_false (h.guards rows hrows)]
    rw [hresets, ← h.filters]
    exact congrArg (!false && ·) (ClauseGroups.any_congr_of_mem fun rows hrows =>
      allHoldIn_of_guardHolds_eq_false (h.guards rows hrows))
  | true =>
    -- A conjunction that does not reset is paused.
    rw [Bool.not_true, Bool.false_and, Bool.and_eq_false_iff, Bool.not_eq_false', List.any_eq_true,
      List.any_eq_false]
    by_cases hresets : ∃ rows ∈ t.conjunctions, Clause.resetsIn m (split rows) = true
    · exact .inl hresets
    · refine .inr fun rows hrows => ?_
      rw [Bool.not_eq_true]
      refine allHoldIn_of_guardHolds (h.guards rows hrows) ?_
      rw [← Bool.not_eq_true]
      exact fun hreset => hresets ⟨rows, hrows, hreset⟩

/-- Clauses alone are a core. -/
theorem of_clauses {cs : List Clause} (hcs : ∀ c ∈ cs, c.IsTerminated) :
    Lowers { core := join cs } m (guardHolds m cs) (filtersHold m cs) := by
  have hcore : conjunctions { core := join cs } = [join cs] := rfl
  refine ⟨fun h => absurd rfl h, ?_, ?_, ?_⟩
  · simpa [hcore] using endsClause_join hcs
  · simp [hcore, split_join hcs]
  · simp [hcore, split_join hcs]

theorem and {ga gb fa fb : Bool} (ha : a.Lowers m ga fa) (hb : b.Lowers m gb fb) :
    (a.and b).Lowers m (ga || gb) (fa && fb) := by
  obtain ⟨hsplit, hpairs⟩ := mem_conjunctions_and (a := a) (b := b)
  refine ⟨and_core a b, fun rows hrows => ?_, fun rows hrows => ?_, ?_⟩
  · obtain ⟨x, hx, y, hy, rfl | rfl⟩ := hsplit rows hrows
    · exact (ha.ends x hx).append (hb.ends y hy)
    · exact (hb.ends y hy).append (ha.ends x hx)
  · obtain ⟨x, hx, y, hy, rfl | rfl⟩ := hsplit rows hrows
    · rw [split_append (ha.ends x hx), guardHolds_append, ha.guards x hx, hb.guards y hy]
    · rw [split_append (hb.ends y hy), guardHolds_append, ha.guards x hx, hb.guards y hy,
        Bool.or_comm]
  · have hboth {x y : List Row} (hx : x ∈ a.conjunctions) (hy : y ∈ b.conjunctions) :
        filtersHold m (split (x ++ y)) = (filtersHold m (split x) && filtersHold m (split y)) ∧
        filtersHold m (split (y ++ x)) = (filtersHold m (split x) && filtersHold m (split y)) := by
      rw [split_append (ha.ends x hx), split_append (hb.ends y hy), filtersHold_append,
        filtersHold_append]
      exact ⟨rfl, Bool.and_comm _ _⟩
    rw [← ha.filters, ← hb.filters, Bool.eq_iff_iff, Bool.and_eq_true, List.any_eq_true,
      List.any_eq_true, List.any_eq_true]
    constructor
    · rintro ⟨rows, hrows, hholds⟩
      obtain ⟨x, hx, y, hy, rfl | rfl⟩ := hsplit rows hrows
      · rw [(hboth hx hy).1, Bool.and_eq_true] at hholds
        exact ⟨⟨x, hx, hholds.1⟩, y, hy, hholds.2⟩
      · rw [(hboth hx hy).2, Bool.and_eq_true] at hholds
        exact ⟨⟨x, hx, hholds.1⟩, y, hy, hholds.2⟩
    · rintro ⟨⟨x, hx, hxholds⟩, y, hy, hyholds⟩
      rcases hpairs x hx y hy with hrows | hrows
      · exact ⟨_, hrows, by rw [(hboth hx hy).1, hxholds, hyholds]; rfl⟩
      · exact ⟨_, hrows, by rw [(hboth hx hy).2, hxholds, hyholds]; rfl⟩

/-- Alternatives keep apart what only one of them guards, so that they are joined without guards. -/
theorem or {fa fb : Bool} (ha : a.Lowers m false fa) (hb : b.Lowers m false fb) :
    (a.or b).Lowers m false (fa || fb) := by
  refine ⟨fun _ => rfl, ?_, ?_, ?_⟩
  · rw [conjunctions_or]
    exact List.forall_mem_append.mpr ⟨ha.ends, hb.ends⟩
  · rw [conjunctions_or]
    exact List.forall_mem_append.mpr ⟨ha.guards, hb.guards⟩
  · rw [conjunctions_or, List.any_append, ha.filters, hb.filters]

end Lowers
end Trigger

/-! ## Conditions -/

namespace Condition
open Clause Trigger

/-- A clause that means something is a trigger that does. -/
theorem lowers_of_mean {rows : List Row} {truth : Memory → Bool} (h : Row.Mean rows .plain truth)
    (m : Memory) : Lowers { core := rows } m false (truth m) := by
  obtain ⟨c, rfl, hc⟩ := h
  have hlowers := Lowers.of_clauses (m := m) (List.forall_mem_singleton.mpr hc.isTerminated)
  simpa [join, guardHolds, filtersHold, hc.role, hc.holds, Role.isGuard, Role.isTruthy] using
    hlowers

/-- The chains of trees, all ending in one guard, are clauses one of which holds when one of the
trees is true. -/
theorem exists_guards {s : Setting} {role : Role} (hrole : role.isGuard = true)
    {cs : List Condition} (hcs : ∀ c ∈ cs, c.isTree = true) {core : List Row}
    (h : chains s role cs = .ok core) :
    ∃ guards : List Clause, join guards = core ∧ (∀ d ∈ guards, d.IsTerminated) ∧
      (∀ m, guardHolds m guards = Junction.or.holds (cs.map (truthIn s.resolve m))) ∧
      ∀ m, filtersHold m guards = true := by
  have hcombining : role.isCombining = false ∧ role.isTruthy = false := by
    revert hrole
    cases role <;> simp [Role.isGuard, Role.isCombining, Role.isTruthy]
  simp only [chains, Lowered.bind_eq_ok, Lowered.pure_eq_ok, Lowered.mapM_eq_ok] at h
  obtain ⟨rowss, hrowss, rfl⟩ := h
  induction hrowss with
  | nil => exact ⟨[], rfl, by simp, fun m => rfl, fun m => rfl⟩
  | cons hchain hrest ih =>
    rename_i c rows cs rowss
    obtain ⟨hc, hcs⟩ := List.forall_mem_cons.mp hcs
    obtain ⟨guards, hjoin, hterminated, hguards, hfilters⟩ := ih hcs
    simp only [chain, Lowered.bind_eq_ok, Lowered.pure_eq_ok] at hchain
    obtain ⟨plain, hplain, rfl⟩ := hchain
    obtain ⟨d, hd, hmeans⟩ := (join_chainRows hc hplain).mean hcombining.1
    refine ⟨d :: guards, ?_, ?_, fun m => ?_, fun m => ?_⟩
    · rw [join_cons, hd, hjoin, List.flatten_cons]
    · exact List.forall_mem_cons.mpr ⟨hmeans.isTerminated, hterminated⟩
    · have hmore := hguards m
      simp only [guardHolds, Junction.holds, List.any_cons, List.map_cons, hmeans.role, hrole,
        hmeans.holds, Bool.true_and, id_eq] at hmore ⊢
      rw [hmore]
    · have hmore := hfilters m
      simp only [filtersHold, List.all_cons, hmeans.role, hcombining.2, Bool.not_false,
        Bool.true_or, Bool.true_and] at hmore ⊢
      exact hmore

/-- A reset or a pause on a tree guards when the tree is true. -/
theorem lowers_guard {s : Setting} {role : Role} (hrole : role.isGuard = true) {c : Condition}
    (hc : c.isTree = true) {core : List Row} (h : chains s role (c.operands .or) = .ok core)
    (m : Memory) : Lowers { core } m (c.truthIn s.resolve m) true := by
  obtain ⟨guards, rfl, hterminated, hguards, hfilters⟩ :=
    exists_guards hrole (fun d hd => isTree_of_mem_operands hc hd) h
  have hlowers := Lowers.of_clauses (m := m) hterminated
  rwa [hguards, hfilters, holds_operands] at hlowers

/-- **A body is lowered to a trigger without guards** that is as true as the body. -/
theorem lowers_body {s : Setting} {c : Condition} (hc : c.isBody = true)
    {first first' : FirstTarget} {t : Trigger} (h : c.lower s first = .ok (t, first'))
    (m : Memory) : t.Lowers m false (c.truthIn s.resolve m) := by
  have hleaf {d : Condition} (hd : d.isTree = true) {core : List Row}
      (hcore : d.chainRows s = .ok core) : Lowers { core } m false (d.truthIn s.resolve m) :=
    lowers_of_mean (join_chainRows hd hcore).mean_plain m
  fun_induction isBody c generalizing first first' t with
  | case1 left relation right =>
    simp only [lower, Lowered.bind_eq_ok, Lowered.pure_eq_ok, Prod.mk.injEq] at h
    obtain ⟨core, hcore, rfl, -⟩ := h
    exact hleaf rfl hcore
  | case2 truth =>
    simp only [lower, Lowered.bind_eq_ok, Lowered.pure_eq_ok, Prod.mk.injEq] at h
    obtain ⟨core, hcore, rfl, -⟩ := h
    exact hleaf rfl hcore
  | case3 count c =>
    simp only [lower, Lowered.bind_eq_ok, Lowered.pure_eq_ok, Prod.mk.injEq] at h
    obtain ⟨core, hcore, rfl, -⟩ := h
    obtain ⟨rfl, htree⟩ : count = 1 ∧ c.isTree = true := by simpa using hc
    exact lowers_of_mean (mean_repeated htree hcore) m
  | case4 a b iha ihb =>
    obtain ⟨ha, hb⟩ : a.isBody = true ∧ b.isBody = true := by simpa using hc
    simp only [lower, Lowered.bind_eq_ok, Lowered.pure_eq_ok, Prod.mk.injEq, Prod.exists] at h
    obtain ⟨ta, f, hta, tb, f', htb, rfl, -⟩ := h
    exact (iha ha hta).and (ihb hb htb)
  | case5 a b iha ihb =>
    obtain ⟨ha, hb⟩ : a.isBody = true ∧ b.isBody = true := by simpa using hc
    simp only [lower, Lowered.bind_eq_ok, Lowered.pure_eq_ok, Prod.mk.injEq, Prod.exists] at h
    obtain ⟨ta, f, hta, tb, f', htb, rfl, -⟩ := h
    exact (iha ha hta).or (ihb hb htb)
  | case6 l c ih =>
    rw [lower, Lowered.located_eq_ok] at h
    exact ih hc h
  | case7 => cases hc

/-- **Guards stay apart from what they guard** through every conjunction. -/
theorem lowers_guarded {s : Setting} {c : Condition} (hc : c.isGuarded = true)
    {first first' : FirstTarget} {t : Trigger} (h : c.lower s first = .ok (t, first'))
    (m : Memory) :
    ∃ guarded filtered, t.Lowers m guarded filtered ∧
      c.truthIn s.resolve m = (!guarded && filtered) := by
  fun_induction isGuarded c generalizing first first' t with
  | case1 a b iha ihb =>
    obtain ⟨ha, hb⟩ : a.isGuarded = true ∧ b.isGuarded = true := by simpa using hc
    simp only [lower, Lowered.bind_eq_ok, Lowered.pure_eq_ok, Prod.mk.injEq, Prod.exists] at h
    obtain ⟨ta, f, hta, tb, f', htb, rfl, -⟩ := h
    obtain ⟨ga, fa, hla, htruth⟩ := iha ha hta
    obtain ⟨gb, fb, hlb, htruth'⟩ := ihb hb htb
    refine ⟨_, _, hla.and hlb, ?_⟩
    rw [truthIn, htruth, htruth']
    cases ga <;> cases gb <;> simp
  | case2 c =>
    simp only [lower, Lowered.bind_eq_ok, Lowered.pure_eq_ok, Prod.mk.injEq] at h
    obtain ⟨core, hcore, rfl, -⟩ := h
    exact ⟨_, _, lowers_guard rfl hc hcore m, by simp [truthIn]⟩
  | case3 c =>
    simp only [lower, Lowered.bind_eq_ok, Lowered.pure_eq_ok, Prod.mk.injEq] at h
    obtain ⟨core, hcore, rfl, -⟩ := h
    exact ⟨_, _, lowers_guard rfl hc hcore m, by simp [truthIn]⟩
  | case4 l c ih =>
    rw [lower, Lowered.located_eq_ok] at h
    exact ih hc h
  | case5 c =>
    exact ⟨_, _, lowers_body hc h m, by simp⟩

end Condition

/-- **Lowering is sound.**  A guarded condition that compiles, without simplification, gives a
trigger that fires in exactly the memories in which the condition is true: its body holds and
nothing that it resets or pauses on does. -/
theorem Trigger.firesIn_compile {s : Setting} {c : Condition} {t : Trigger}
    (hc : c.isGuarded = true) (hsimplify : s.options.simplify = false)
    (h : Trigger.compile s c = .ok t) (m : Memory) : t.firesIn m = c.truthIn s.resolve m := by
  simp only [Trigger.compile, Lowered.bind_eq_ok, Prod.exists] at h
  obtain ⟨lowered, first, hlower, h⟩ := h
  split at h
  · simp at h
  rw [hsimplify] at h
  simp only [Bool.false_eq_true, if_false, Lowered.pure_eq_ok] at h
  obtain rfl := h
  obtain ⟨guarded, filtered, hlowers, htruth⟩ := Condition.lowers_guarded hc hlower m
  rw [hlowers.firesIn_eq, htruth]

/-- There are no lives left, or lives and score have been above three once; unless the score, behind
a pointer, is below the lives; and never while a bit is set, or with five lives that the score does
not exceed. -/
def Condition.guardedChoice : Condition :=
  let lives : Value := .read "byte" (.constant 0x10)
  let score : Value := .read "word" (.add (.read "dword" (.constant 0x20)) (.constant 4))
  .and
    (.and
      (.or (.located ⟨0, 9⟩ (.compare lives .eq (.constant 0)))
        (.repeated 1 (.or (.compare (.add lives score) .gt (.constant 3)) (.literal false))))
      (.pauseIf (.compare score .lt lives)))
    (.resetIf (.or (.compare (.read "bit3" (.constant 0x30)) .eq (.constant 1))
      (.and (.compare lives .eq (.constant 5)) (.compare (.sub lives score) .ge (.constant 0)))))

theorem Trigger.firesIn_compile_guardedChoice :
    Condition.guardedChoice.isGuarded = true ∧
      ∃ t, Trigger.compile { options := { simplify := false } } Condition.guardedChoice = .ok t ∧
        t.firesIn .zero = true := by
  have hguarded : Condition.guardedChoice.isGuarded = true := by decide
  have hcompiles : (Trigger.compile { options := { simplify := false } }
      Condition.guardedChoice).isOk = true := by
    decide +kernel
  obtain ⟨t, ht⟩ := exists_eq_ok_of_isOk hcompiles
  exact ⟨hguarded, t, ht,
    (Trigger.firesIn_compile hguarded rfl ht .zero).trans (by decide +kernel)⟩

end MemoryTrigger

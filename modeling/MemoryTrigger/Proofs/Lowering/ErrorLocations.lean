import MemoryTrigger.Proofs.Lowering.Failures
import MemoryTrigger.Proofs.Lowering.Locations

/-! # Where errors lie

A failing comparison does not know its place; the locations around it fill that in, innermost first.
But a location around a whole run of a junction disappears when the run is taken apart, and so does
one around a reset of a counted condition, or around the disjunction that alone is counted.  Such a
location is passed over, and the error takes the next one further out, or none.

`Condition.comparisons` lists the comparisons of a condition, each with the locations around it.
Every error of a comparison comes from one of them that fails by itself, and lies at the innermost
location around it that is not passed over (`Condition.fails_lower`). -/
namespace MemoryTrigger

/-! ## Comparisons in their places -/

/-- Where a condition stands, as far as it decides which locations are seen. -/
inductive Position where
  /-- It becomes a trigger. -/
  | trigger
  /-- It becomes a chain. -/
  | chain
  /-- It is part of a run, whose operands become chains. -/
  | run (j : Junction)
  /-- It is part of what is counted; `alone` if there is one conjunct beside the resets. -/
  | counted (alone : Bool)
  deriving DecidableEq, Repr

namespace Position

/-- Whether a location around the condition is not seen. -/
def passesOver : Position → Condition → Bool
  | trigger, _ => false
  | chain, _ => false
  | run j, c => c.junction? = some j
  | counted alone, c =>
      c.junction? = some .and || c.resetBody?.isSome || (alone && c.junction? = some .or)

/-- Where the operands of a junction stand. -/
def inside (j : Junction) : Position → Position
  | trigger => trigger
  | counted alone => if j = .and then counted alone else run j
  | _ => run j

/-- Where the condition of a reset stands. -/
def insideReset : Position → Position
  | counted _ => chain
  | _ => run .or

end Position

/-- A location around a condition. -/
structure Enclosure where
  location : Location
  passedOver : Bool
  deriving DecidableEq, Repr

/-- The innermost location that is seen. -/
def Enclosure.seen (around : List Enclosure) : Option Location :=
  (around.find? fun e => !e.passedOver).map location

/-- A comparison as it stands in a condition. -/
structure Occurrence where
  left : Value
  relation : Relation
  right : Value
  /-- The locations around it, innermost first. -/
  around : List Enclosure
  deriving DecidableEq, Repr

namespace Occurrence

/-- The rows of the comparison by itself. -/
def rows (s : Setting) (o : Occurrence) : Lowered (List Row) := do
  let comparison ← Comparison.ofValues s.resolve o.left o.relation o.right
  comparison.toRows s.options

/-- Whether the comparison has no rows. -/
def fails (s : Setting) (o : Occurrence) : Bool := !(o.rows s).isOk

/-- The innermost location around the comparison. -/
def nearest (o : Occurrence) : Option Location := o.around.head?.map Enclosure.location

theorem fails_rows (s : Setting) (o : Occurrence) : (o.rows s).Fails Failure.IsOfComparison :=
  (Comparison.fails_ofValues _ _ _ _).bind fun c => (c.fails_toRows _).isOfComparison

end Occurrence

namespace Condition

mutual

/-- The comparisons of a condition at a position, below locations around it. -/
@[local simp] def comparisonsAt : Condition → Position → List Enclosure → List Occurrence
  | compare left relation right, _, around => [⟨left, relation, right, around⟩]
  | literal _, _, _ => []
  | and a b, p, around =>
      a.comparisonsAt (p.inside .and) around ++ b.comparisonsAt (p.inside .and) around
  | or a b, p, around =>
      a.comparisonsAt (p.inside .or) around ++ b.comparisonsAt (p.inside .or) around
  | repeated _ body, _, around =>
      body.comparisonsAt (.counted (body.countedParts.length == 1)) around
  | resetIf body, p, around => body.comparisonsAt p.insideReset around
  | pauseIf body, _, around => body.comparisonsAt (.run .or) around
  | measured body none _, _, around => body.comparisonsAt .chain around
  | measured body (some guard) _, _, around =>
      body.comparisonsAt .chain around ++ guard.comparisonsAt (.run .and) around
  | tally _ items, _, around => itemComparisons items around
  | triggerWhen body, _, around => body.comparisonsAt .trigger around
  | located l c, p, around => c.comparisonsAt p (⟨l, p.passesOver c⟩ :: around)

/-- The comparisons of the items of a tally. -/
@[local simp] def itemComparisons : List (TallyItem Condition) → List Enclosure → List Occurrence
  | [], _ => []
  | ⟨c, _⟩ :: rest, around => c.comparisonsAt .chain around ++ itemComparisons rest around

end

/-- The comparisons of a condition. -/
def comparisons (c : Condition) : List Occurrence := c.comparisonsAt .trigger []

theorem comparisonsAt_subset_itemComparisons {item : TallyItem Condition}
    {items : List (TallyItem Condition)} (h : item ∈ items) (around : List Enclosure) :
    item.condition.comparisonsAt .chain around ⊆ itemComparisons items around := by
  induction items with
  | nil => cases h
  | cons first rest ih =>
    rw [itemComparisons]
    rcases List.mem_cons.mp h with rfl | h
    · exact List.subset_append_left _ _
    · exact List.subset_append_of_subset_right _ (ih h)

/-! ## Taking runs apart -/

variable {j : Junction} {c d : Condition} {p : Position}

theorem seen_cons_of_passedOver {e : Enclosure} (h : e.passedOver = true)
    (around : List Enclosure) : Enclosure.seen (e :: around) = Enclosure.seen around := by
  simp [Enclosure.seen, h]

/-- The comparisons of a condition at a position, below other locations of which the same is seen,
are among the given ones. -/
def LiesIn (d : Condition) (p : Position) (around : List Enclosure) (os : List Occurrence) : Prop :=
  ∃ inner, Enclosure.seen inner = Enclosure.seen around ∧ d.comparisonsAt p inner ⊆ os

theorem LiesIn.mono {around : List Enclosure} {os os' : List Occurrence}
    (h : d.LiesIn p around os) (hsub : os ⊆ os') : d.LiesIn p around os' := by
  obtain ⟨inner, hseen, hinner⟩ := h
  exact ⟨inner, hseen, List.Subset.trans hinner hsub⟩

/-- The operands of a run, where locations around runs of the junction are passed over. -/
theorem liesIn_of_mem_operands (hinside : p.inside j = p)
    (hpasses : ∀ c : Condition, c.junction? = some j → p.passesOver c = true)
    (h : d ∈ c.operands j) (around : List Enclosure) :
    d.LiesIn p around (c.comparisonsAt p around) := by
  fun_induction operands j c generalizing around with
  | case1 a b hj iha ihb =>
    subst hj
    rw [comparisonsAt, hinside]
    rcases List.mem_append.mp h with h | h
    · exact (iha h around).mono (List.subset_append_left _ _)
    · exact (ihb h around).mono (List.subset_append_right _ _)
  | case3 a b hj iha ihb =>
    subst hj
    rw [comparisonsAt, hinside]
    rcases List.mem_append.mp h with h | h
    · exact (iha h around).mono (List.subset_append_left _ _)
    · exact (ihb h around).mono (List.subset_append_right _ _)
  | case5 l c hc ih =>
    rw [comparisonsAt, hpasses c hc]
    obtain ⟨inner, hseen, hinner⟩ := ih h (⟨l, true⟩ :: around)
    exact ⟨inner, hseen.trans (seen_cons_of_passedOver rfl around), hinner⟩
  | _ =>
    obtain rfl := List.mem_singleton.mp h
    exact ⟨around, rfl, List.Subset.refl _⟩

/-- What is no run of the junction stands among its operands as by itself. -/
theorem comparisonsAt_run (h : c.junction? ≠ some j) (around : List Enclosure) :
    c.comparisonsAt (.run j) around = c.comparisonsAt .chain around := by
  fun_induction junction? c generalizing around with
  | case3 l c ih => simp only [comparisonsAt, Position.passesOver, h, decide_false, ih h]
  | case4 c hand hor hlocated =>
    cases c with
    | measured body when? format => cases when? <;> rw [comparisonsAt, comparisonsAt]
    | _ => simp_all [Position.insideReset]
  | _ => rw [comparisonsAt, comparisonsAt]; rfl

theorem chain_liesIn_of_mem_operands (h : d ∈ c.operands j) (around : List Enclosure) :
    d.LiesIn .chain around (c.comparisonsAt (.run j) around) := by
  have hrun := liesIn_of_mem_operands (p := .run j) rfl (fun c hc => decide_eq_true hc) h around
  obtain ⟨inner, hseen, hinner⟩ := hrun
  exact ⟨inner, hseen, comparisonsAt_run (junction?_ne_of_mem_operands h) inner ▸ hinner⟩

/-! ## Taking counted conditions apart -/

theorem liesIn_of_mem_counted (alone : Bool) (h : d ∈ c.operands .and)
    (around : List Enclosure) :
    d.LiesIn (.counted alone) around (c.comparisonsAt (.counted alone) around) :=
  liesIn_of_mem_operands rfl (fun c hc => by simp [Position.passesOver, hc]) h around

theorem liesIn_of_resetBody? (alone : Bool) (h : c.resetBody? = some d)
    (around : List Enclosure) :
    d.LiesIn .chain around (c.comparisonsAt (.counted alone) around) := by
  fun_induction resetBody? c generalizing around with
  | case1 c =>
    cases h
    exact ⟨around, rfl, by rw [comparisonsAt]; exact List.Subset.refl _⟩
  | case2 l c ih =>
    obtain ⟨inner, hseen, hinner⟩ := ih h (⟨l, true⟩ :: around)
    have hpasses : (Position.counted alone).passesOver c = true := by simp [Position.passesOver, h]
    rw [comparisonsAt, hpasses]
    exact ⟨inner, hseen.trans (seen_cons_of_passedOver rfl around), hinner⟩
  | case3 => cases h

theorem liesIn_of_mem_countedResets (alone : Bool) (h : d ∈ c.countedResets)
    (around : List Enclosure) :
    d.LiesIn .chain around (c.comparisonsAt (.counted alone) around) := by
  obtain ⟨part, hpart, hreset⟩ := List.mem_filterMap.mp h
  obtain ⟨middle, hmiddle, hsub⟩ := liesIn_of_mem_counted alone hpart around
  obtain ⟨inner, hinner, hreset⟩ := liesIn_of_resetBody? alone hreset middle
  exact ⟨inner, hinner.trans hmiddle, List.Subset.trans hreset hsub⟩

/-- A conjunct that is no reset stands as by itself, but for the disjunction that is alone. -/
theorem comparisonsAt_counted {alone : Bool} (hand : c.junction? ≠ some .and)
    (hreset : c.resetBody? = none) (hor : alone = true → c.junction? ≠ some .or)
    (around : List Enclosure) :
    c.comparisonsAt (.counted alone) around = c.comparisonsAt .chain around := by
  fun_induction junction? c generalizing around with
  | case1 => exact absurd rfl hand
  | case2 a b => rw [comparisonsAt, comparisonsAt]; rfl
  | case3 l c ih =>
    rw [resetBody?] at hreset
    have hseen : (Position.counted alone).passesOver c = false := by
      simp only [Position.passesOver, hand, hreset]
      cases alone <;> simp_all
    rw [comparisonsAt, comparisonsAt, hseen, ih hand hreset hor]
    rfl
  | case4 c hand hor hlocated =>
    cases c with
    | measured body when? format => cases when? <;> rw [comparisonsAt, comparisonsAt]
    | _ => simp_all [resetBody?]

/-- Locations around the disjunction that is alone are passed over. -/
theorem comparisonsAt_counted_or (h : c.junction? = some .or) (around : List Enclosure) :
    c.comparisonsAt (.counted true) around = c.comparisonsAt (.run .or) around := by
  fun_induction junction? c generalizing around with
  | case2 a b => rw [comparisonsAt, comparisonsAt]; rfl
  | case3 l c ih => simp [Position.passesOver, h, ih]
  | _ => cases h

end Condition

/-! ## Failures and the comparisons they come from -/

/-- If the failure is one of a comparison then of one of the given, and with the outer location
added it lies where that comparison is seen to lie.  An overflow is always one. -/
def Failure.ComesFrom (s : Setting) (os : List Occurrence) (outer : Option Location) :
    Failure → Prop
  | rejected e => e.cause.isOfComparison = true →
      ∃ o ∈ os, o.rows s = .error (.rejected ⟨e.cause, none⟩) ∧
        Enclosure.seen o.around = e.location.or outer
  | overflow => ∃ o ∈ os, o.rows s = .error .overflow

namespace Lowered
open Failure
variable {α : Type} {s : Setting} {os os' : List Occurrence} {outer : Option Location}

theorem Fails.of_subset {x : Lowered α} (h : x.Fails (ComesFrom s os outer)) (hsub : os ⊆ os') :
    x.Fails (ComesFrom s os' outer) := by
  refine h.mono fun f hf => ?_
  cases f with
  | overflow =>
    obtain ⟨o, ho, hrows⟩ := hf
    exact ⟨o, hsub ho, hrows⟩
  | rejected e =>
    intro hcause
    obtain ⟨o, ho, hrows, hseen⟩ := hf hcause
    exact ⟨o, hsub ho, hrows, hseen⟩

/-- A refusal that has nothing to do with a comparison. -/
theorem comesFrom_reject {cause : Cause} (h : cause.isOfComparison = false) :
    (reject cause : Lowered α).Fails (ComesFrom s os outer) := by
  rintro f ⟨⟩ hcause
  exact absurd (h.symm.trans hcause) (by decide)

theorem Fails.located {x : Lowered α} {l : Location} (h : x.Fails (ComesFrom s os (some l))) :
    (x.located l).Fails (ComesFrom s os outer) := by
  intro f hf
  cases x with
  | ok a => cases hf
  | error g =>
    cases hf
    have hg := h g rfl
    cases g with
    | overflow => exact hg
    | rejected e =>
      intro hcause
      obtain ⟨o, ho, hrows, hseen⟩ := hg hcause
      refine ⟨o, ho, hrows, hseen.trans ?_⟩
      cases e.location <;> rfl

theorem comesFrom_rows (o : Occurrence) :
    (o.rows s).Fails (ComesFrom s [o] (Enclosure.seen o.around)) := by
  intro f hf
  cases f with
  | overflow => exact ⟨o, List.mem_singleton_self o, hf⟩
  | rejected e =>
    obtain ⟨-, hlocation⟩ := o.fails_rows s _ hf
    obtain ⟨cause, location⟩ := e
    obtain rfl : location = none := hlocation
    exact fun _ => ⟨o, List.mem_singleton_self o, hf, rfl⟩

end Lowered

namespace Link
open Lowered Failure
variable {s : Setting} {os : List Occurrence} {outer : Option Location}

theorem comesFrom_joined {j : Junction} {links : List Link}
    (h : ∀ l ∈ links, l.rows.Fails (ComesFrom s os outer)) :
    (joined j links).Fails (ComesFrom s os outer) := by
  unfold joined
  dsimp only
  split
  · exact comesFrom_reject rfl
  · refine (Fails.mapM fun l hl => h l ?_).bind fun _ => fails_pure _
    rcases List.mem_append.mp hl with hl | hl
    · exact List.mem_of_mem_filter hl
    · exact List.mem_of_mem_filter hl

theorem comesFrom_summed {steps : List (Lowered (List Row))}
    (h : ∀ x ∈ steps, x.Fails (ComesFrom s os outer)) :
    (summed steps).Fails (ComesFrom s os outer) := by
  fun_induction summed steps with
  | case1 => exact fails_ok _
  | case2 last => exact (h last List.mem_cons_self).bind fun _ => fails_pure _
  | case3 first rest _ ih =>
    obtain ⟨hfirst, hrest⟩ := List.forall_mem_cons.mp h
    exact hfirst.bind fun _ => (ih hrest).bind fun _ => fails_pure _

theorem comesFrom_tallied {count : UInt32} {items : List (TallyItem (Lowered (List Row)))}
    (h : ∀ item ∈ items, item.condition.Fails (ComesFrom s os outer)) :
    (tallied count items).Fails (ComesFrom s os outer) := by
  unfold tallied
  split
  · exact comesFrom_reject rfl
  split
  · exact comesFrom_reject rfl
  split
  · exact comesFrom_reject rfl
  · rename_i before last behind hsplit
    obtain ⟨hlast, hothers⟩ := mem_of_splitLast? hsplit
    refine (Fails.mapM fun item hitem => ?_).bind fun _ =>
      (h last hlast).bind fun _ => fails_pure _
    exact (h item (hothers item hitem)).bind fun _ => fails_pure _

end Link

namespace Condition
open Lowered Failure
variable {s : Setting} {os : List Occurrence} {c d : Condition} {around : List Enclosure}

/-! ## Chains -/

/-- Failures of a chain come from the comparisons of its condition, wherever it stands. -/
def ChainFails (s : Setting) (c : Condition) : Prop :=
  ∀ around, (c.chainRows s).Fails (ComesFrom s (c.comparisonsAt .chain around)
    (Enclosure.seen around))

theorem ChainFails.of_liesIn (hd : d.ChainFails s) (h : d.LiesIn .chain around os) :
    (d.chainRows s).Fails (ComesFrom s os (Enclosure.seen around)) := by
  obtain ⟨inner, hseen, hsub⟩ := h
  exact hseen ▸ (hd inner).of_subset hsub

theorem chainFails_joined {j : Junction} {a b : Condition}
    (h : ∀ d ∈ a.operands j ++ b.operands j, d.ChainFails s) :
    (Link.joined j ((a.operands j ++ b.operands j).map fun d => ⟨d.junction?, d.chainRows s⟩)).Fails
      (ComesFrom s (a.comparisonsAt (.run j) around ++ b.comparisonsAt (.run j) around)
        (Enclosure.seen around)) := by
  refine Link.comesFrom_joined (List.forall_mem_map.mpr fun d hd => (h d hd).of_liesIn ?_)
  rcases List.mem_append.mp hd with hd | hd
  · exact (chain_liesIn_of_mem_operands hd around).mono (List.subset_append_left _ _)
  · exact (chain_liesIn_of_mem_operands hd around).mono (List.subset_append_right _ _)

theorem comesFrom_countedRows {parts : List Condition} {body : Condition}
    (hparts : body.countedParts = parts)
    (h : ∀ part ∈ parts, ∀ d : Condition, sizeOf d ≤ sizeOf part → d.ChainFails s) :
    (countedRows s parts).Fails (ComesFrom s
      (body.comparisonsAt (.counted (parts.length == 1)) around) (Enclosure.seen around)) := by
  have hpart {part : Condition} (hmem : part ∈ parts) :
      part ∈ body.operands .and ∧ part.resetBody? = none := by
    rw [← hparts] at hmem
    simpa only [countedParts, List.mem_filter, Option.isNone_iff_eq_none] using hmem
  have hlies {part : Condition} (hmem : part ∈ parts)
      (hor : (parts.length == 1) = true → part.junction? ≠ some .or) :
      part.LiesIn .chain around (body.comparisonsAt (.counted (parts.length == 1)) around) := by
    obtain ⟨hoperand, hreset⟩ := hpart hmem
    obtain ⟨inner, hseen, hsub⟩ := liesIn_of_mem_counted _ hoperand around
    have hsame := comparisonsAt_counted (junction?_ne_of_mem_operands hoperand) hreset hor inner
    exact ⟨inner, hseen, hsame ▸ hsub⟩
  cases parts with
  | nil => exact comesFrom_reject rfl
  | cons part rest =>
    have hmem : part ∈ part :: rest := List.mem_cons_self
    cases rest with
    | nil =>
      rw [countedRows]
      split
      next hor =>
        obtain ⟨middle, hmiddle, hsub⟩ := liesIn_of_mem_counted true (hpart hmem).1 around
        rw [comparisonsAt_counted_or hor] at hsub
        refine Link.comesFrom_summed (List.forall_mem_map.mpr fun d hd => ?_)
        obtain ⟨inner, hinner, hd'⟩ := chain_liesIn_of_mem_operands hd middle
        exact (h part hmem d (sizeOf_le_of_mem_operands hd)).of_liesIn
          ⟨inner, hinner.trans hmiddle, List.Subset.trans hd' hsub⟩
      next hor => exact (h part hmem part (Nat.le_refl _)).of_liesIn (hlies hmem fun _ => hor)
    | cons second others =>
      rw [countedRows]
      · refine Link.comesFrom_joined (List.forall_mem_map.mpr fun part hmem => ?_)
        exact (h part hmem part (Nat.le_refl _)).of_liesIn (hlies hmem (by simp))
      all_goals simp

theorem chainFails (s : Setting) (c : Condition) : c.ChainFails s := by
  -- on size, since operands of a run and items of a tally lie deeper than one constructor
  induction hn : sizeOf c using Nat.strongRecOn generalizing c with
  | ind n ih =>
    subst hn
    intro around
    cases c with
    | located l c =>
      rw [chainRows, comparisonsAt]
      have hc := ih (sizeOf c) (by simp only [located.sizeOf_spec]; omega) c rfl
      exact (hc (⟨l, false⟩ :: around)).located
    | compare left relation right =>
      rw [chainRows, comparisonsAt]
      exact comesFrom_rows ⟨left, relation, right, around⟩
    | literal truth =>
      rw [chainRows]
      exact fails_ok _
    | and a b =>
      rw [chainRows, attach_map_links, comparisonsAt]
      exact chainFails_joined fun d hd => ih (sizeOf d) (sizeOf_lt_of_mem_append hd) d rfl
    | or a b =>
      rw [chainRows, attach_map_links, comparisonsAt]
      exact chainFails_joined fun d hd => ih (sizeOf d) (sizeOf_lt_of_mem_append hd) d rfl
    | repeated count body =>
      have hbody (d : Condition) (hle : sizeOf d ≤ sizeOf body) : d.ChainFails s :=
        ih (sizeOf d) (sizeOf_lt_repeated hle) d rfl
      rw [chainRows_repeated, comparisonsAt]
      split
      · exact comesFrom_reject rfl
      · refine (Fails.mapM fun d hd => ?_).bind fun _ => Fails.bind ?_ fun _ => fails_pure _
        · exact (hbody d (Nat.le_of_lt (sizeOf_lt_of_mem_countedResets hd))).of_liesIn
            (liesIn_of_mem_countedResets _ hd around)
        · exact comesFrom_countedRows rfl fun part hpart d hle =>
            hbody d (Nat.le_trans hle (sizeOf_le_of_mem_countedParts hpart))
    | tally count items =>
      rw [chainRows, attach_map_items, comparisonsAt]
      refine Link.comesFrom_tallied (List.forall_mem_map.mpr fun item hitem => ?_)
      exact (ih _ (sizeOf_lt_tally hitem) item.condition rfl around).of_subset
        (comparisonsAt_subset_itemComparisons hitem around)
    | resetIf body => rw [chainRows]; exact comesFrom_reject rfl
    | pauseIf body => rw [chainRows]; exact comesFrom_reject rfl
    | measured body when? format => rw [chainRows]; exact comesFrom_reject rfl
    | triggerWhen body => rw [chainRows]; exact comesFrom_reject rfl

theorem fails_chain (role : Role) (h : d.LiesIn .chain around os) :
    (d.chain s role).Fails (ComesFrom s os (Enclosure.seen around)) :=
  ((chainFails s d).of_liesIn h).bind fun _ => fails_pure _

theorem fails_chains (role : Role) (j : Junction) (c : Condition) (around : List Enclosure) :
    (chains s role (c.operands j)).Fails
      (ComesFrom s (c.comparisonsAt (.run j) around) (Enclosure.seen around)) :=
  (Fails.mapM fun _ hd => fails_chain role (chain_liesIn_of_mem_operands hd around)).bind
    fun _ => fails_pure _

/-! ## Triggers -/

theorem fails_measuredRows (first : FirstTarget) (body : Condition) (when? : Option Condition)
    (format : Option MeasuredFormat) (around : List Enclosure) :
    (measuredRows s first body when? format).Fails (ComesFrom s
      ((measured body when? format).comparisonsAt .trigger around) (Enclosure.seen around)) := by
  have hmeasure (first : FirstTarget) (target : Option UInt32) :
      (first.measure target).Fails (ComesFrom s
        ((measured body when? format).comparisonsAt .trigger around) (Enclosure.seen around)) := by
    unfold FirstTarget.measure
    split
    · exact fails_ok _
    · exact fails_ok _
    · split
      · exact fails_ok _
      · exact comesFrom_reject rfl
  cases when? with
  | none =>
    rw [comparisonsAt] at hmeasure ⊢
    exact (fails_chain _ ⟨around, rfl, List.Subset.refl _⟩).bind fun _ =>
      (hmeasure _ _).bind fun _ => fails_pure _
  | some guard =>
    rw [comparisonsAt] at hmeasure ⊢
    exact (fails_chain _ ⟨around, rfl, List.subset_append_left _ _⟩).bind fun _ =>
      (hmeasure _ _).bind fun _ =>
        ((fails_chains _ _ guard around).of_subset (List.subset_append_right _ _)).bind fun _ =>
          fails_pure _

/-- **Errors of comparisons lie where they are seen to lie**: lowering fails for the cause of a
comparison only if that comparison fails by itself, and at the innermost location around it that is
not passed over. -/
theorem fails_lower (c : Condition) (first : FirstTarget) (around : List Enclosure) :
    (c.lower s first).Fails
      (ComesFrom s (c.comparisonsAt .trigger around) (Enclosure.seen around)) := by
  fun_induction lower s c first generalizing around with
  | case1 l c first ih =>
    rw [comparisonsAt]
    exact (ih (⟨l, false⟩ :: around)).located
  | case2 a b first iha ihb =>
    rw [comparisonsAt]
    exact ((iha around).of_subset (List.subset_append_left _ _)).bind fun x =>
      ((ihb x.2 around).of_subset (List.subset_append_right _ _)).bind fun _ => fails_pure _
  | case3 a b first iha ihb =>
    rw [comparisonsAt]
    exact ((iha around).of_subset (List.subset_append_left _ _)).bind fun x =>
      ((ihb x.2 around).of_subset (List.subset_append_right _ _)).bind fun _ => fails_pure _
  | case4 c first ih =>
    rw [comparisonsAt]
    exact (ih around).bind fun _ => fails_pure _
  | case5 c first =>
    rw [comparisonsAt]
    exact (fails_chains _ _ c around).bind fun _ => fails_pure _
  | case6 c first =>
    rw [comparisonsAt]
    exact (fails_chains _ _ c around).bind fun _ => fails_pure _
  | case7 body when? format first =>
    exact (fails_measuredRows _ _ _ _ around).bind fun _ => fails_pure _
  | case8 c first hlocated hand hor htrigger hreset hpause hmeasured =>
    have hsame : c.comparisonsAt .trigger around = c.comparisonsAt .chain around := by
      cases c <;> simp_all [comparisonsAt]
    rw [hsame]
    exact (chainFails s c around).bind fun _ => fails_pure _

end Condition

theorem Trigger.fails_compile (s : Setting) (c : Condition) :
    (compile s c).Fails (Failure.ComesFrom s c.comparisons none) := by
  refine (c.fails_lower none []).bind fun x => ?_
  dsimp only
  split
  · exact Lowered.comesFrom_reject rfl
  · exact Lowered.fails_pure _

/-- **Where the error of a comparison lies**: if one comparison of a condition fails by itself and
compiling fails for its cause, then at the innermost location around it that is not passed over.  So
it lies at the nearest location, or at none where there is none, unless that location stands around
a run that is taken apart, or around a reset or a disjunction that is counted. -/
theorem Trigger.location_of_compile {s : Setting} {c : Condition} {o : Occurrence} {cause : Cause}
    {own l : Option Location} (hone : c.comparisons.filter (Occurrence.fails s) = [o])
    (hown : o.rows s = .error (.rejected ⟨cause, own⟩))
    (hcompile : compile s c = .error (.rejected ⟨cause, l⟩)) :
    l = Enclosure.seen o.around ∧
      ((∀ e ∈ o.around.head?, e.passedOver = false) → l = o.nearest) := by
  have hcause : cause.isOfComparison = true := (o.fails_rows s _ hown).1
  obtain ⟨o', ho', hrows, hseen⟩ := fails_compile s c _ hcompile hcause
  -- the comparison that the failure comes from fails, and only one does
  have hfails : o' ∈ c.comparisons.filter (Occurrence.fails s) := by
    refine List.mem_filter.mpr ⟨ho', ?_⟩
    rw [Occurrence.fails, hrows]
    rfl
  obtain rfl : o' = o := List.mem_singleton.mp (hone ▸ hfails)
  have hl : l = Enclosure.seen o'.around := (hseen.trans Option.or_none).symm
  refine ⟨hl, fun hnearest => ?_⟩
  rw [hl, Occurrence.nearest]
  cases haround : o'.around with
  | nil => rfl
  | cons e around => simp [Enclosure.seen, hnearest e (by simp [haround])]

/-- A misspelled accessor in a reset whose disjunction has a location of its own. -/
def Condition.misspelledReset : Condition :=
  let lives : Value := .read "byte" (.constant 0x10)
  .located ⟨0, 40⟩
    (.and (.located ⟨0, 8⟩ (.compare lives .eq (.constant 1)))
      (.resetIf (.located ⟨12, 38⟩
        (.or (.located ⟨13, 20⟩ (.compare lives .eq (.constant 2)))
          (.compare (.read "float" (.constant 1)) .eq (.constant 1))))))

theorem Trigger.location_of_compile_misspelledReset :
    ∃ o l, Condition.misspelledReset.comparisons.filter (Occurrence.fails {}) = [o] ∧
      compile {} Condition.misspelledReset =
        .error (.rejected ⟨.unknownAccessor "float", l⟩) ∧
      o.nearest = some ⟨12, 38⟩ ∧ l = some ⟨0, 40⟩ := by
  let o : Occurrence := ⟨.read "float" (.constant 1), .eq, .constant 1,
    [⟨⟨12, 38⟩, true⟩, ⟨⟨0, 40⟩, false⟩]⟩
  have hone : Condition.misspelledReset.comparisons.filter (Occurrence.fails {}) = [o] := by
    decide +kernel
  have hown : o.rows {} = .error (.rejected ⟨.unknownAccessor "float", none⟩) := by
    decide +kernel
  obtain ⟨l, hcompile⟩ : ∃ l, compile {} Condition.misspelledReset =
      .error (.rejected ⟨.unknownAccessor "float", l⟩) := ⟨some ⟨0, 40⟩, by decide +kernel⟩
  exact ⟨o, l, hone, hcompile, rfl, (location_of_compile hone hown hcompile).1⟩

end MemoryTrigger

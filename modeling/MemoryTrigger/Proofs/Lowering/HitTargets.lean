import MemoryTrigger.Proofs.Lowering.Runs

/-! # What becomes of hit targets

Counting a chain sets the hit target of its last row.  If that row counts already, its target is
written over, and the count that it came from is lost.  `Condition.lastTarget` says what the last
row of a chain counts to, `Condition.lostCounts` lists the counts that are written over, and the
targets of a chain are all counts of its condition but those (`Condition.targets_chain`). -/
namespace MemoryTrigger

/-! ## Counts of a condition -/

/-- A hit target, if it is one: zero means that no hits are counted. -/
def presentTarget (hits : UInt32) : List UInt32 := if hits = 0 then [] else [hits]

namespace Condition

mutual

/-- Whether the condition is made of comparisons and literals that are joined, repeated and
tallied. -/
def isCounting : Condition → Bool
  | compare _ _ _ | literal _ => true
  | and a b | or a b => a.isCounting && b.isCounting
  | located _ c | repeated _ c => c.isCounting
  | tally _ items => itemsCounting items
  | _ => false

/-- Whether all items of a tally are. -/
def itemsCounting : List (TallyItem Condition) → Bool
  | [] => true
  | ⟨c, _⟩ :: rest => c.isCounting && itemsCounting rest

end

mutual

/-- The counts of all repeated conditions and tallies in a condition. -/
def counts : Condition → List UInt32
  | and a b | or a b => a.counts ++ b.counts
  | located _ c => c.counts
  | repeated count body => count :: body.counts
  | tally count items => count :: itemCounts items
  | _ => []

/-- The counts in the items of a tally. -/
def itemCounts : List (TallyItem Condition) → List UInt32
  | [] => []
  | ⟨c, _⟩ :: rest => c.counts ++ itemCounts rest

end

/-- The hit target of the last row of a chain.  That row belongs to the right side of a junction,
unless this is a run of the other junction, whose rows come first. -/
def lastTarget : Condition → UInt32
  | and a b => if b.junction? = some .or then a.lastTarget else b.lastTarget
  | or a b => if b.junction? = some .and then a.lastTarget else b.lastTarget
  | located _ c => c.lastTarget
  | repeated count _ | tally count _ => count
  | _ => 0

/-- The hit target of the last row of what a repeated condition counts.  The parts of a disjunction
are counted one by one and stay in order. -/
def countedTarget (body : Condition) : UInt32 :=
  ((body.operands .or).getLast?.map lastTarget).getD 0

/-- The hit target of the last row of the item that carries the count of a tally. -/
def talliedTarget (items : List (TallyItem Condition)) : UInt32 :=
  ((splitLast? (fun item => !item.deduct) items).map fun found =>
    found.2.1.condition.lastTarget).getD 0

mutual

/-- The counts that are written over where what ends in them is counted itself. -/
def lostCounts : Condition → List UInt32
  | and a b | or a b => a.lostCounts ++ b.lostCounts
  | located _ c => c.lostCounts
  | repeated _ body => presentTarget body.countedTarget ++ body.lostCounts
  | tally _ items => presentTarget (talliedTarget items) ++ itemLostCounts items
  | _ => []

/-- The counts that are written over in the items of a tally. -/
def itemLostCounts : List (TallyItem Condition) → List UInt32
  | [] => []
  | ⟨c, _⟩ :: rest => c.lostCounts ++ itemLostCounts rest

end

theorem itemCounts_eq_flatMap (items : List (TallyItem Condition)) :
    itemCounts items = items.flatMap fun item => item.condition.counts := by
  induction items with
  | nil => rw [itemCounts]; rfl
  | cons item rest ih => rw [itemCounts, ih]; rfl

theorem itemLostCounts_eq_flatMap (items : List (TallyItem Condition)) :
    itemLostCounts items = items.flatMap fun item => item.condition.lostCounts := by
  induction items with
  | nil => rw [itemLostCounts]; rfl
  | cons item rest ih => rw [itemLostCounts, ih]; rfl

theorem isCounting_of_mem_items {items : List (TallyItem Condition)}
    (h : itemsCounting items = true) {item : TallyItem Condition} (hitem : item ∈ items) :
    item.condition.isCounting = true := by
  induction items with
  | nil => cases hitem
  | cons first rest ih =>
    rw [itemsCounting, Bool.and_eq_true] at h
    rcases List.mem_cons.mp hitem with rfl | hitem
    · exact h.1
    · exact ih h.2 hitem

theorem isCounting_of_mem_operands {j : Junction} {c d : Condition} (hc : c.isCounting = true)
    (h : d ∈ c.operands j) : d.isCounting = true :=
  of_mem_operands (P := fun c => c.isCounting = true)
    (fun j a b hjoin => by cases j <;> simpa [Junction.join, isCounting] using hjoin)
    (fun _ _ hlocated => by simpa [isCounting] using hlocated) hc h

/-- What the sides of a junction contribute one after the other, the operands of a run do. -/
theorem flatMap_operands {α : Type} {f : Condition → List α}
    (hjoin : ∀ (j : Junction) a b, f (j.join a b) = f a ++ f b)
    (hlocated : ∀ l c, f (located l c) = f c) (j : Junction) (c : Condition) :
    (c.operands j).flatMap f = f c := by
  fun_induction operands j c with
  | case1 a b hj iha ihb => rw [List.flatMap_append, iha, ihb]; exact (hjoin .and a b).symm
  | case3 a b hj iha ihb => rw [List.flatMap_append, iha, ihb]; exact (hjoin .or a b).symm
  | case5 l c _ ih => rw [ih, hlocated]
  | _ => simp

theorem flatMap_counts_operands (j : Junction) (c : Condition) :
    (c.operands j).flatMap counts = c.counts :=
  flatMap_operands (fun j a b => by cases j <;> rw [Junction.join, counts])
    (fun _ _ => by rw [counts]) j c

theorem flatMap_lostCounts_operands (j : Junction) (c : Condition) :
    (c.operands j).flatMap lostCounts = c.lostCounts :=
  flatMap_operands (fun j a b => by cases j <;> rw [Junction.join, lostCounts])
    (fun _ _ => by rw [lostCounts]) j c

theorem resetBody?_of_isCounting {c : Condition} (hc : c.isCounting = true) :
    c.resetBody? = none := by
  fun_induction resetBody? c with
  | case1 c => simp [isCounting] at hc
  | case2 l c ih => exact ih (by simpa [isCounting] using hc)
  | case3 => rfl

theorem lastTarget_join (j : Junction) (a b : Condition) :
    (j.join a b).lastTarget =
      if b.junction? = some j.opposite then a.lastTarget else b.lastTarget := by
  cases j <;> rfl

theorem compounds_append (j : Junction) (cs ds : List Condition) :
    compounds j (cs ++ ds) = compounds j cs + compounds j ds :=
  List.countP_append

/-- A run of the other junction is one operand. -/
theorem operands_of_opposite {j : Junction} {c : Condition} (h : c.junction? = some j.opposite) :
    c.operands j = [c] ∧ compounds j (c.operands j) = 1 := by
  have hne : c.junction? ≠ some j := by
    rw [h]
    cases j <;> simp [Junction.opposite]
  rw [operands_of_junction?_ne hne]
  exact ⟨rfl, by simp [compounds, h]⟩

/-- Of the operands that are no runs of the other junction, the last one has the last row. -/
theorem lastTarget_simples {j : Junction} {c : Condition}
    (hsimple : compounds j (c.operands j) ≤ 1) (hc : c.junction? ≠ some j.opposite) :
    (simples j (c.operands j)).getLast?.map lastTarget = some c.lastTarget := by
  have hjoin (a b : Condition) (hsimple : compounds j (a.operands j ++ b.operands j) ≤ 1)
      (iha : compounds j (a.operands j) ≤ 1 → a.junction? ≠ some j.opposite →
        (simples j (a.operands j)).getLast?.map lastTarget = some a.lastTarget)
      (ihb : compounds j (b.operands j) ≤ 1 → b.junction? ≠ some j.opposite →
        (simples j (b.operands j)).getLast?.map lastTarget = some b.lastTarget) :
      (simples j (a.operands j ++ b.operands j)).getLast?.map lastTarget =
        some (j.join a b).lastTarget := by
    rw [compounds_append] at hsimple
    rw [lastTarget_join, simples, List.filter_append, List.getLast?_append, ← simples, ← simples]
    by_cases hb : b.junction? = some j.opposite
    · -- the right side moves to the front, so that the left side does not
      obtain ⟨hoperands, hone⟩ := operands_of_opposite hb
      have ha : a.junction? ≠ some j.opposite := by
        intro ha
        have := (operands_of_opposite ha).2
        omega
      have hmoved : simples j (b.operands j) = [] := by simp [hoperands, simples, hb]
      rw [if_pos hb, hmoved]
      exact iha (by omega) ha
    · rw [if_neg hb]
      obtain ⟨d, hd, htarget⟩ := Option.map_eq_some_iff.mp (ihb (by omega) hb)
      rw [hd]
      exact congrArg some htarget
  fun_induction operands j c with
  | case1 a b hj iha ihb =>
    subst hj
    exact hjoin a b hsimple iha ihb
  | case3 a b hj iha ihb =>
    subst hj
    exact hjoin a b hsimple iha ihb
  | case5 l c _ ih => exact ih hsimple hc
  | _ => simp [simples, hc]

theorem lastTarget_linkOrder {j : Junction} {a b : Condition}
    (hsimple : compounds j ((j.join a b).operands j) ≤ 1) :
    (linkOrder j ((j.join a b).operands j)).getLast?.map lastTarget =
      some (j.join a b).lastTarget := by
  have hlast := lastTarget_simples hsimple (by cases j <;> simp [Junction.opposite])
  obtain ⟨d, hd, htarget⟩ := Option.map_eq_some_iff.mp hlast
  rw [linkOrder, List.getLast?_append, hd]
  exact congrArg some htarget

end Condition

/-! ## Targets of a chain -/

namespace Row

/-- The hit targets of some rows. -/
def targets (rows : List Row) : List UInt32 := rows.flatMap fun r => presentTarget r.hits

theorem targets_append (a b : List Row) : targets (a ++ b) = targets a ++ targets b :=
  List.flatMap_append

/-- The targets of the rows are all of `counts` but those that are lost. -/
def Keep (rows : List Row) (lost counts : List UInt32) : Prop :=
  (targets rows ++ lost).Perm counts

theorem Keep.append {rows more : List Row} {lost lost' counts counts' : List UInt32}
    (h : Keep rows lost counts) (h' : Keep more lost' counts') :
    Keep (rows ++ more) (lost ++ lost') (counts ++ counts') := by
  refine List.Perm.trans ?_ (List.Perm.append h h')
  rw [targets_append, List.append_assoc, List.append_assoc]
  refine .append_left _ ?_
  rw [← List.append_assoc, ← List.append_assoc]
  exact List.perm_append_comm.append_right _

/-- Rows that keep their targets, and the last of which counts to `last`. -/
structure Carry (rows : List Row) (last : UInt32) (lost counts : List UInt32) : Prop where
  ends : ∃ front r, rows = front ++ [r] ∧ r.hits = last
  keep : Keep rows lost counts

namespace Carry
variable {rows more : List Row} {last : UInt32} {lost lost' counts counts' : List UInt32}

theorem endingIn (h : Carry rows last lost counts) (role : Role) :
    Carry (endingIn role rows) last lost counts := by
  obtain ⟨⟨front, r, rfl, hlast⟩, hkeep⟩ := h
  rw [Row.endingIn, mapLast_concat]
  refine ⟨⟨front, _, rfl, hlast⟩, ?_⟩
  rwa [Keep, targets_append] at hkeep ⊢

/-- A target that is set writes over the one that was there. -/
theorem countingTo (h : Carry rows last lost counts) {count : UInt32} (hcount : count ≠ 0) :
    Carry (countingTo count rows) count (presentTarget last ++ lost) (count :: counts) := by
  obtain ⟨⟨front, r, rfl, rfl⟩, hkeep⟩ := h
  rw [Row.countingTo, mapLast_concat]
  refine ⟨⟨front, _, rfl, rfl⟩, ?_⟩
  have hnew : targets [{ r with hits := count }] = [count] := by
    simp [targets, presentTarget, hcount]
  have hold : targets [r] = presentTarget r.hits := by simp [targets]
  rw [Keep, targets_append, hold] at hkeep
  rw [Keep, targets_append, hnew, List.append_assoc, List.singleton_append]
  refine List.perm_middle.trans (.cons count ?_)
  rwa [← List.append_assoc]

theorem append (h : Keep rows lost counts) (h' : Carry more last lost' counts') :
    Carry (rows ++ more) last (lost ++ lost') (counts ++ counts') := by
  obtain ⟨front, r, rfl, hlast⟩ := h'.ends
  exact ⟨⟨rows ++ front, r, by rw [List.append_assoc], hlast⟩, h.append h'.keep⟩

/-- Targets and counts in another order. -/
theorem perm (h : Carry rows last lost counts) (hlost : lost.Perm lost')
    (hcounts : counts.Perm counts') : Carry rows last lost' counts' :=
  ⟨h.ends, (hlost.symm.append_left _).trans (h.keep.trans hcounts)⟩

end Carry

theorem carry_of_hits {rows front : List Row} {r : Row} (h : rows = front ++ [r])
    (hhits : ∀ r ∈ rows, r.hits = 0) : Carry rows 0 [] [] := by
  refine ⟨⟨front, r, h, hhits r (by simp [h])⟩, ?_⟩
  have hnone : targets rows = [] := by
    refine List.flatMap_eq_nil_iff.mpr fun r hr => ?_
    simp [presentTarget, hhits r hr]
  rw [Keep, hnone, List.append_nil]

theorem carry_constant (truth : Bool) : Carry [constant truth] 0 [] [] := by
  refine carry_of_hits (List.nil_append _).symm fun r hr => ?_
  obtain rfl := List.mem_singleton.mp hr
  cases truth <;> rfl

end Row

namespace Condition
open Row

/-- The rows of a chain carry what is left of the counts of its condition. -/
def Carries (c : Condition) (rows : List Row) : Prop :=
  Carry rows c.lastTarget c.lostCounts c.counts

theorem keep_flatten {ds : List Condition} {chains : List (List Row)}
    (h : List.Forall₂ Carries ds chains) :
    Keep chains.flatten (ds.flatMap lostCounts) (ds.flatMap counts) := by
  induction h with
  | nil => exact .refl _
  | cons hd hrest ih => exact Carry.keep hd |>.append ih

/-- Chains tied one behind another. -/
theorem carry_tied {ds : List Condition} {chains : List (List Row)}
    (h : List.Forall₂ Carries ds chains) (role : Role) {last : Condition}
    (hlast : ds.getLast? = some last) :
    Carry (tied role chains) last.lastTarget (ds.flatMap lostCounts) (ds.flatMap counts) := by
  induction h with
  | nil => cases hlast
  | cons hd hrest ih =>
    rename_i d rows ds chains
    cases hrest with
    | nil =>
      obtain rfl : d = last := by simpa using hlast
      simpa [tied] using Carry.endingIn hd .plain
    | cons hnext hothers =>
      exact .append (Carry.endingIn hd role).keep (ih (by simpa using hlast))

/-- Chains of conditions that carry their counts where each of them does. -/
theorem forall₂_carries {ds : List Condition} {chains : List (List Row)} {s : Setting}
    (h : List.Forall₂ (fun d rows => d.chainRows s = .ok rows) ds chains)
    (hds : ∀ d ∈ ds, ∀ rows, d.chainRows s = .ok rows → d.Carries rows) :
    List.Forall₂ Carries ds chains :=
  ((List.forall₂_and_left _ _).mpr ⟨hds, h⟩).imp fun _ rows hd => hd.1 rows hd.2

/-- What a tally is made of: the chains of all items but the one that carries the count, then
this. -/
theorem tallied_eq_ok {f : Condition → Lowered (List Row)} {count : UInt32}
    {items : List (TallyItem Condition)} {rows : List Row}
    (h : Link.tallied count (items.map fun item => { item with condition := f item.condition }) =
      .ok rows) :
    count ≠ 0 ∧ ∃ before carrier behind others last,
      splitLast? (fun item => !item.deduct) items = some (before, carrier, behind) ∧
      List.Forall₂ (fun item rows => ∃ role plain, f item.condition = .ok plain ∧
        rows = endingIn role plain) (before ++ behind) others ∧
      f carrier.condition = .ok last ∧
      rows = others.flatten ++ countingTo count (endingIn .plain last) := by
  unfold Link.tallied at h
  rw [splitLast?_map] at h
  split at h
  · simp at h
  rename_i hcount
  split at h
  · simp at h
  cases hsplit : splitLast? (fun item : TallyItem Condition => !item.deduct) items with
  | none => simp [hsplit] at h
  | some found =>
    obtain ⟨before, carrier, behind⟩ := found
    simp only [hsplit, Option.map_some, ← List.map_append, Lowered.bind_eq_ok, Lowered.pure_eq_ok,
      Lowered.mapM_eq_ok, List.forall₂_map_left_iff] at h
    obtain ⟨others, hothers, last, hlast, rfl⟩ := h
    refine ⟨hcount, before, carrier, behind, others, last, rfl, hothers.imp ?_, hlast, rfl⟩
    rintro item rows ⟨plain, hplain, rfl⟩
    exact ⟨_, plain, hplain, rfl⟩

/-- The chain of a tally. -/
theorem carries_tallied {f : Condition → Lowered (List Row)} {count : UInt32}
    {items : List (TallyItem Condition)}
    (hf : ∀ item ∈ items, ∀ rows, f item.condition = .ok rows → item.condition.Carries rows)
    {rows : List Row}
    (h : Link.tallied count (items.map fun item => { item with condition := f item.condition }) =
      .ok rows) : (tally count items).Carries rows := by
  obtain ⟨hcount, before, carrier, behind, others, last, hsplit, hothers, hlast, rfl⟩ :=
    tallied_eq_ok h
  obtain ⟨hcarrier, hbeside⟩ := mem_of_splitLast? hsplit
  obtain ⟨hitems, -⟩ := eq_append_of_splitLast? hsplit
  have hcarries : List.Forall₂ Carries ((before ++ behind).map (·.condition)) others := by
    rw [List.forall₂_map_left_iff]
    have hbeside := fun item hitem => hf item (hbeside item hitem)
    refine ((List.forall₂_and_left _ _).mpr ⟨hbeside, hothers⟩).imp ?_
    rintro item rows ⟨hitem, role, plain, hplain, rfl⟩
    exact (hitem plain hplain).endingIn role
  have hkeep := keep_flatten hcarries
  have hcounted := ((hf carrier hcarrier last hlast).endingIn .plain).countingTo hcount
  have hlast : talliedTarget items = carrier.condition.lastTarget := by
    rw [talliedTarget, hsplit]
    rfl
  rw [Carries, lastTarget, lostCounts, counts, hlast, itemCounts_eq_flatMap,
    itemLostCounts_eq_flatMap]
  refine (Carry.append hkeep hcounted).perm (List.perm_iff_count.mpr fun n => ?_)
    (List.perm_iff_count.mpr fun n => ?_)
  · simp only [hitems, List.map_append, List.flatMap_append, List.flatMap_cons, List.flatMap_map,
      List.count_append]
    omega
  · simp only [hitems, List.map_append, List.flatMap_append, List.flatMap_cons, List.flatMap_map,
      List.count_append, List.count_cons]
    omega

/-- The rows of a comparison do not count. -/
theorem carry_toRows {options : CompileOptions} {comparison : Comparison}
    (hsound : comparison.IsSound) {rows : List Row} (h : comparison.toRows options = .ok rows) :
    Carry rows 0 [] [] := by
  cases comparison with
  | rows rs =>
    cases h
    obtain ⟨c, rfl, hc⟩ := hsound
    refine carry_of_hits rfl fun r hr => ?_
    rcases List.mem_append.mp hr with hr | hr
    · exact (hc.lead r hr).hits
    · obtain rfl := List.mem_singleton.mp hr
      exact hc.joins.hits
  | constant truth =>
    rw [Comparison.toRows] at h
    split at h
    · cases h
      exact carry_constant truth
    · simp at h

variable {s : Setting} {rows : List Row}

/-- The chain of a run. -/
theorem carries_join {j : Junction} {a b : Condition}
    (ih : ∀ d ∈ (j.join a b).operands j, ∀ rows, d.chainRows s = .ok rows → d.Carries rows)
    (h : (j.join a b).chainRows s = .ok rows) : (j.join a b).Carries rows := by
  obtain ⟨hsimple, chains, hchains, rfl⟩ := (chainRows_join_eq_ok s).mp h
  have hperm := linkOrder_perm j ((j.join a b).operands j)
  have hcarries := forall₂_carries hchains fun d hd => ih d (hperm.mem_iff.mp hd)
  obtain ⟨last, hlast, htarget⟩ := Option.map_eq_some_iff.mp (lastTarget_linkOrder hsimple)
  have hcarry := carry_tied hcarries j.link hlast
  rw [htarget] at hcarry
  refine hcarry.perm ?_ ?_
  · exact flatMap_lostCounts_operands j _ ▸ hperm.flatMap_right lostCounts
  · exact flatMap_counts_operands j _ ▸ hperm.flatMap_right counts

/-- The rows that are counted: those of the body, or of the parts of a disjunction. -/
theorem carry_countedChain {body : Condition}
    (ih : ∀ rows, body.chainRows s = .ok rows → body.Carries rows)
    (ihs : ∀ d ∈ body.operands .or, ∀ rows, d.chainRows s = .ok rows → d.Carries rows)
    (h : body.countedChain s = .ok rows) :
    Carry rows body.countedTarget body.lostCounts body.counts := by
  rw [countedChain] at h
  split at h
  · obtain ⟨chains, hchains, rfl⟩ := Link.exists_of_summed h
    obtain ⟨front, last, hoperands⟩ :=
      (List.eq_nil_or_concat' _).resolve_left (operands_ne_nil .or body)
    have hlast : (body.operands .or).getLast? = some last := by simp [hoperands]
    have hcarry := carry_tied (forall₂_carries hchains ihs) .addHits hlast
    rw [flatMap_lostCounts_operands, flatMap_counts_operands] at hcarry
    rwa [countedTarget, hlast]
  · rename_i hor
    rw [countedTarget, operands_of_junction?_ne hor]
    exact ih rows h

/-- **The rows of a chain carry all counts of its condition but those that are written over.** -/
theorem carries_chainRows {c : Condition} (hc : c.isCounting = true)
    (h : c.chainRows s = .ok rows) : c.Carries rows := by
  induction c using chain_induction generalizing rows with
  | compare left relation right =>
    simp only [chainRows, Lowered.bind_eq_ok] at h
    obtain ⟨comparison, hcomparison, h⟩ := h
    simpa [Carries, lastTarget, lostCounts, counts] using
      carry_toRows (Comparison.ofValues_isSound hcomparison) h
  | literal truth =>
    rw [chainRows] at h
    cases h
    simpa [Carries, lastTarget, lostCounts, counts] using carry_constant truth
  | located l c ih =>
    rw [chainRows, Lowered.located_eq_ok] at h
    have hcarries := ih (by simpa [isCounting] using hc) h
    rwa [Carries, lastTarget, lostCounts, counts]
  | join j a b ih =>
    exact carries_join (fun d hd rows => ih d hd (isCounting_of_mem_operands hc hd)) h
  | repeated count body ih ihs =>
    have hbody : body.isCounting = true := by simpa [isCounting] using hc
    have hresets : ∀ d ∈ body.operands .and, d.resetBody? = none := fun d hd =>
      resetBody?_of_isCounting (isCounting_of_mem_operands hbody hd)
    obtain ⟨hcount, counted, hcounted, rfl⟩ := (chainRows_repeated_eq_ok s hresets).mp h
    have hcarry := carry_countedChain (fun rows => ih hbody)
      (fun d hd rows => ihs d hd (isCounting_of_mem_operands hbody hd)) hcounted
    rw [Carries, lastTarget, lostCounts, counts]
    exact (hcarry.endingIn .plain).countingTo hcount
  | tally count items ih =>
    have hitems : itemsCounting items = true := by simpa [isCounting] using hc
    rw [chainRows, attach_map_items] at h
    exact carries_tallied (f := chainRows s) (fun item hitem rows hrows =>
      ih item hitem (isCounting_of_mem_items hitems hitem) hrows) h
  | outermost c houter => exact absurd h (chainRows_of_isOutermost s houter rows)

/-- **The hit targets of a chain** are the counts of its condition without those that are written
over, and all of them only where none is. -/
theorem targets_chain {c : Condition} (hc : c.isCounting = true) {role : Role}
    (h : c.chain s role = .ok rows) :
    (targets rows ++ c.lostCounts).Perm c.counts ∧
      ((targets rows).Perm c.counts ↔ c.lostCounts = []) := by
  simp only [chain, Lowered.bind_eq_ok, Lowered.pure_eq_ok] at h
  obtain ⟨plain, hplain, rfl⟩ := h
  have hkeep : (targets (endingIn role plain) ++ c.lostCounts).Perm c.counts :=
    ((carries_chainRows hc hplain).endingIn role).keep
  refine ⟨hkeep, fun hperm => ?_, fun hnone => ?_⟩
  · have hlength := hkeep.length_eq
    rw [List.length_append, hperm.length_eq] at hlength
    exact List.eq_nil_of_length_eq_zero (by omega)
  · rwa [hnone, List.append_nil] at hkeep

/-- Two bytes together for two frames, the second of which has to be two for three. -/
def countedTwice : Condition :=
  let isByte (n : Int64) : Condition := .compare (.read "byte" (.constant n)) .eq (.constant n)
  .repeated 2 (.and (isByte 1) (.repeated 3 (isByte 2)))

/-- The first count is set on the row that carries the second one. -/
theorem targets_chain_countedTwice :
    countedTwice.isCounting = true ∧ countedTwice.counts = [2, 3] ∧ countedTwice.lostCounts = [3] ∧
      ∃ rows, countedTwice.chain {} .measured = .ok rows ∧ targets rows = [2] ∧
        ¬ (targets rows).Perm countedTwice.counts := by
  have hcounting : countedTwice.isCounting = true := by decide
  have hcounts : countedTwice.counts = [2, 3] := by decide
  have hlost : countedTwice.lostCounts = [3] := by decide +kernel
  have hchain : (countedTwice.chain {} .measured).isOk = true := by decide +kernel
  obtain ⟨rows, hrows⟩ := exists_eq_ok_of_isOk hchain
  obtain ⟨hperm, hall⟩ := targets_chain hcounting hrows
  refine ⟨hcounting, hcounts, hlost, rows, hrows, ?_, ?_⟩
  · rw [hlost, hcounts] at hperm
    exact List.perm_singleton.mp ((List.perm_append_right_iff [3]).mp hperm)
  · rw [hall, hlost]
    simp

end Condition
end MemoryTrigger

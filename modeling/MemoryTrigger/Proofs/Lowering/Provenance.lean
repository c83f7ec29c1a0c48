import MemoryTrigger.Proofs.Lowering.Soundness

/-! # Where lowered rows come from

Lowering makes rows of comparisons and of constants, and of nothing else.  Joining, counting and
guarding only change the role and the hit target of the last row of a chain, which is never a
modifier.  So a property of rows that survives such changes (`Row.Inherited`) holds of all rows of a
chain (`Condition.formChain_chainRows`).

Measuring changes the role of the last row too, after its target was compared with the first one met.
A property that may speak of this first target and survives measuring (`Row.Emitted`) holds of all
rows of a lowered trigger (`Condition.isEmitted_of_lower`), whose groups all end in terminal rows.
One such property is that a row can be written (`Condition.isRepresentable_of_lower`). -/
namespace MemoryTrigger

/-! ## Chains -/

namespace Row

/-- A property of rows that comparisons and constants have as they are made, and that they keep where
chains are joined, counted or made guards. -/
structure Inherited (P : Row → Prop) : Prop where
  linear : ∀ {rows : List Row}, AreLinear rows → ∀ r ∈ rows, P r
  constant : ∀ truth : Bool, P (constant truth)
  ending : ∀ {r : Row} {role : Role}, P r → r.role.isModifier = false → role.isModifier = false →
    role.isMeasured = false → P { r with role }
  counting : ∀ {r : Row} (hits : UInt32), P r → r.role = .plain → P { r with hits }

/-- The rows have a property, and the last of them has the role. -/
structure FormChain (P : Row → Prop) (role : Role) (rows : List Row) : Prop where
  last : ∃ r, rows.getLast? = some r ∧ r.role = role
  rows : ∀ r ∈ rows, P r

namespace FormChain
variable {P : Row → Prop} {role role' : Role} {rows : List Row}

theorem ne_nil (h : FormChain P role rows) : rows ≠ [] := by
  rintro rfl
  obtain ⟨r, hr, -⟩ := h.last
  cases hr

theorem endsClause (h : FormChain P role rows) (hrole : role.isCombining = false) :
    Clause.EndsClause rows := by
  intro r hr
  obtain ⟨last, hlast, rfl⟩ := h.last
  rw [hlast, Option.mem_some_iff] at hr
  rwa [← hr]

theorem singleton {r : Row} (h : P r) : FormChain P r.role [r] :=
  ⟨⟨r, rfl, rfl⟩, List.forall_mem_singleton.mpr h⟩

theorem append_left (h : FormChain P role rows) {front : List Row} (hfront : ∀ r ∈ front, P r) :
    FormChain P role (front ++ rows) := by
  obtain ⟨last, hlast, hrole⟩ := h.last
  refine ⟨⟨last, ?_, hrole⟩, List.forall_mem_append.mpr ⟨hfront, h.rows⟩⟩
  rw [List.getLast?_append_of_ne_nil _ h.ne_nil, hlast]

theorem forall_mem_flatten {rowss : List (List Row)} (h : ∀ rows ∈ rowss, FormChain P role rows) :
    ∀ r ∈ rowss.flatten, P r := by
  intro r hr
  obtain ⟨rows, hrows, hr⟩ := List.mem_flatten.mp hr
  exact (h rows hrows).rows r hr

theorem flatten {rowss : List (List Row)} (hne : rowss ≠ [])
    (h : ∀ rows ∈ rowss, FormChain P role rows) : FormChain P role rowss.flatten := by
  obtain ⟨front, last, rfl⟩ := (List.eq_nil_or_concat' rowss).resolve_left hne
  obtain ⟨hfront, hlast⟩ := List.forall_mem_append.mp h
  rw [List.flatten_append, List.flatten_singleton]
  exact (List.forall_mem_singleton.mp hlast).append_left (forall_mem_flatten hfront)

/-- A chain is some rows of the kind and a last one. -/
theorem exists_concat (h : FormChain P role rows) :
    ∃ front last, rows = front ++ [last] ∧ (∀ r ∈ front, P r) ∧ P last ∧ last.role = role := by
  obtain ⟨front, last, rfl⟩ := (List.eq_nil_or_concat' rows).resolve_left h.ne_nil
  obtain ⟨r, hlast, hrole⟩ := h.last
  obtain rfl : last = r := by simpa using hlast
  obtain ⟨hfront, hrow⟩ := List.forall_mem_append.mp h.rows
  exact ⟨front, last, rfl, hfront, List.forall_mem_singleton.mp hrow, hrole⟩

theorem mapLast (h : FormChain P role rows) {f : Row → Row}
    (hf : ∀ r, P r → r.role = role → P (f r) ∧ (f r).role = role') :
    FormChain P role' (MemoryTrigger.mapLast f rows) := by
  obtain ⟨front, last, rfl, hfront, hlast, hrole⟩ := h.exists_concat
  obtain ⟨hP, hrole'⟩ := hf last hlast hrole
  rw [mapLast_concat]
  exact (hrole' ▸ singleton hP).append_left hfront

theorem endingIn (hP : Inherited P) (h : FormChain P role rows) (role' : Role)
    (hrole : role.isModifier = false) (hrole' : role'.isModifier = false)
    (hmeasured : role'.isMeasured = false) : FormChain P role' (endingIn role' rows) := by
  apply h.mapLast
  rintro r hr rfl
  exact ⟨hP.ending hr hrole hrole' hmeasured, rfl⟩

theorem countingTo (hP : Inherited P) (h : FormChain P .plain rows) (hits : UInt32) :
    FormChain P .plain (countingTo hits rows) := by
  apply h.mapLast
  intro r hr hplain
  exact ⟨hP.counting hits hr hplain, hplain⟩

end FormChain

theorem Inherited.formChain_constant {P : Row → Prop} (hP : Inherited P) (truth : Bool) :
    FormChain P .plain [Row.constant truth] := by
  have hrole : (Row.constant truth).role = .plain := by cases truth <;> rfl
  exact hrole ▸ .singleton (hP.constant truth)

theorem Inherited.formChain_linear {P : Row → Prop} (hP : Inherited P) {rows : List Row}
    (h : AreLinear rows) : FormChain P .plain rows := by
  refine ⟨?_, hP.linear h⟩
  obtain ⟨c, rfl, hc⟩ := h
  obtain ⟨left, relation, right, hterminal, -⟩ := hc.terminal
  exact ⟨c.terminal, by simp [Clause.rows], by rw [hterminal]; rfl⟩

end Row

open Row
variable {P : Row → Prop}

theorem Comparison.formChain_toRows (hP : Inherited P) {options : CompileOptions}
    {comparison : Comparison} (hsound : comparison.IsSound) {rows : List Row}
    (h : comparison.toRows options = .ok rows) : FormChain P .plain rows := by
  cases comparison with
  | rows rs =>
    cases h
    exact hP.formChain_linear hsound
  | constant truth =>
    rw [toRows] at h
    split at h
    · cases h
      exact hP.formChain_constant truth
    · simp at h

namespace Link
variable {f : Condition → Lowered (List Row)} {rows : List Row}

theorem formChain_joined (hP : Inherited P) {j : Junction} {cs : List Condition} (hne : cs ≠ [])
    (hf : ∀ c ∈ cs, ∀ rows, f c = .ok rows → FormChain P .plain rows)
    (h : joined j (cs.map fun c => ⟨c.junction?, f c⟩) = .ok rows) : FormChain P .plain rows := by
  obtain ⟨first, rest, head, chains, hperm, -, hhead, hchains, rfl⟩ := joined_eq_ok hne h
  have hmem {c : Condition} (hc : c ∈ first :: rest) : c ∈ cs := hperm.mem_iff.mp hc
  have hall : ∀ rows ∈ head :: chains, FormChain P .plain rows := by
    refine List.forall_mem_cons.mpr ⟨hf first (hmem List.mem_cons_self) head hhead, ?_⟩
    exact Lowered.forall_mem_of_mapM (Lowered.mapM_eq_ok.mpr hchains) fun c hc =>
      hf c (hmem (List.mem_cons_of_mem _ hc))
  have hlink : j.link.isModifier = false ∧ j.link.isMeasured = false := by
    cases j <;> exact ⟨rfl, rfl⟩
  refine (FormChain.flatten (by simp) ?_).endingIn hP .plain hlink.1 rfl rfl
  exact List.forall_mem_map.mpr fun rows hrows =>
    (hall rows hrows).endingIn hP j.link rfl hlink.1 hlink.2

theorem formChain_summed (hP : Inherited P) {cs : List Condition} (hne : cs ≠ [])
    (hf : ∀ c ∈ cs, ∀ rows, f c = .ok rows → FormChain P .plain rows)
    (h : summed (cs.map f) = .ok rows) : FormChain P .plain rows := by
  induction cs generalizing rows with
  | nil => exact absurd rfl hne
  | cons c rest ih =>
    obtain ⟨hfirst, hrest⟩ := List.forall_mem_cons.mp hf
    cases rest with
    | nil =>
      simp only [List.map_cons, List.map_nil, summed, Lowered.bind_eq_ok, Lowered.pure_eq_ok] at h
      obtain ⟨last, hlast, rfl⟩ := h
      exact (hfirst last hlast).endingIn hP .plain rfl rfl rfl
    | cons next others =>
      simp only [List.map_cons, summed, Lowered.bind_eq_ok, Lowered.pure_eq_ok] at h
      obtain ⟨first, hrows, more, hmore, rfl⟩ := h
      have hadded := (hfirst first hrows).endingIn hP .addHits rfl rfl rfl
      exact (ih (by simp) hrest hmore).append_left hadded.rows

theorem formChain_tallied (hP : Inherited P) {count : UInt32}
    {items : List (TallyItem (Lowered (List Row)))}
    (hitems : ∀ item ∈ items, ∀ rows, item.condition = .ok rows → FormChain P .plain rows)
    (h : tallied count items = .ok rows) : FormChain P .plain rows := by
  unfold tallied at h
  split at h
  · simp at h
  split at h
  · simp at h
  split at h
  · simp at h
  rename_i before last behind hsplit
  obtain ⟨hlast, hothers⟩ := mem_of_splitLast? hsplit
  simp only [Lowered.bind_eq_ok, Lowered.pure_eq_ok] at h
  obtain ⟨others, hmapM, rows, hrows, rfl⟩ := h
  have hended := (hitems last hlast rows hrows).endingIn hP .plain rfl rfl rfl
  have hcounted := hended.countingTo hP count
  refine hcounted.append_left fun r hr => ?_
  obtain ⟨chain, hchain, hr⟩ := List.mem_flatten.mp hr
  refine Lowered.forall_mem_of_mapM (P := fun rows => ∀ r ∈ rows, P r) hmapM
    (fun item hitem rows hrows => ?_) chain hchain r hr
  simp only [Lowered.bind_eq_ok, Lowered.pure_eq_ok] at hrows
  obtain ⟨plain, hplain, rfl⟩ := hrows
  have hitem := hitems item (hothers item hitem) plain hplain
  cases item.deduct
  · exact (hitem.endingIn hP .addHits rfl rfl rfl).rows
  · exact (hitem.endingIn hP .subHits rfl rfl rfl).rows

end Link

namespace Condition
variable {s : Setting} {rows : List Row}

theorem formChain_countedRows (hP : Inherited P) {parts : List Condition}
    (hparts : ∀ part ∈ parts, ∀ c : Condition, sizeOf c ≤ sizeOf part →
      ∀ rows, c.chainRows s = .ok rows → FormChain P .plain rows)
    (h : countedRows s parts = .ok rows) : FormChain P .plain rows := by
  unfold countedRows at h
  split at h
  · simp at h
  · rename_i part
    split at h
    · refine Link.formChain_summed hP (operands_ne_nil .or part) (fun c hc => ?_) h
      exact hparts part List.mem_cons_self c (sizeOf_le_of_mem_operands hc)
    · exact hparts part List.mem_cons_self part (Nat.le_refl _) rows h
  · rename_i hne _
    exact Link.formChain_joined hP hne (fun c hc => hparts c hc c (Nat.le_refl _)) h

theorem formChain_repeated (hP : Inherited P) {count : UInt32} {body : Condition}
    (hbody : ∀ c : Condition, sizeOf c ≤ sizeOf body →
      ∀ rows, c.chainRows s = .ok rows → FormChain P .plain rows)
    (h : (repeated count body).chainRows s = .ok rows) : FormChain P .plain rows := by
  rw [chainRows_repeated] at h
  split at h
  · simp at h
  simp only [Lowered.bind_eq_ok, Lowered.pure_eq_ok] at h
  obtain ⟨resets, hresets, counted, hcounted, rfl⟩ := h
  have hcounted : FormChain P .plain counted :=
    formChain_countedRows hP (fun part hpart d hle =>
      hbody d (Nat.le_trans hle (sizeOf_le_of_mem_countedParts hpart))) hcounted
  have hresets : ∀ rows ∈ resets, FormChain P .plain rows :=
    Lowered.forall_mem_of_mapM hresets fun d hd =>
      hbody d (Nat.le_of_lt (sizeOf_lt_of_mem_countedResets hd))
  have hlast := (hcounted.endingIn hP .plain rfl rfl rfl).countingTo hP count
  have hfront : ∀ rows ∈ resets.map (endingIn .resetNextIf), FormChain P .resetNextIf rows :=
    List.forall_mem_map.mpr fun rows hrows =>
      (hresets rows hrows).endingIn hP .resetNextIf rfl rfl rfl
  exact hlast.append_left (FormChain.forall_mem_flatten hfront)

theorem attach_map_items (s : Setting) (items : List (TallyItem Condition)) :
    (items.attach.map fun ⟨item, _⟩ => { item with condition := item.condition.chainRows s }) =
      items.map fun item => { item with condition := item.condition.chainRows s } :=
  List.attach_map_val (f := fun item : TallyItem Condition =>
    { item with condition := item.condition.chainRows s })

/-- **All rows of a chain have an inherited property**, whatever the condition, and the last one is
plain. -/
theorem formChain_chainRows (hP : Inherited P) {c : Condition} (h : c.chainRows s = .ok rows) :
    FormChain P .plain rows := by
  -- on size, since operands of a run and items of a tally lie deeper than one constructor
  induction hn : sizeOf c using Nat.strongRecOn generalizing c rows with
  | ind n ih =>
    subst hn
    cases c with
    | located l c =>
      rw [chainRows, Lowered.located_eq_ok] at h
      exact ih (sizeOf c) (by simp only [located.sizeOf_spec]; omega) h rfl
    | compare left relation right =>
      simp only [chainRows, Lowered.bind_eq_ok] at h
      obtain ⟨comparison, hcomparison, h⟩ := h
      exact Comparison.formChain_toRows hP (Comparison.ofValues_isSound hcomparison) h
    | literal truth =>
      rw [chainRows] at h
      cases h
      exact hP.formChain_constant truth
    | and a b =>
      rw [chainRows, attach_map_links] at h
      refine Link.formChain_joined hP (operands_ne_nil .and (and a b)) (fun d hd rows hrows => ?_) h
      exact ih (sizeOf d) (sizeOf_lt_of_mem_append hd) hrows rfl
    | or a b =>
      rw [chainRows, attach_map_links] at h
      refine Link.formChain_joined hP (operands_ne_nil .or (or a b)) (fun d hd rows hrows => ?_) h
      exact ih (sizeOf d) (sizeOf_lt_of_mem_append hd) hrows rfl
    | repeated count body =>
      exact formChain_repeated hP
        (fun d hle rows hrows => ih (sizeOf d) (sizeOf_lt_repeated hle) hrows rfl) h
    | tally count items =>
      rw [chainRows, attach_map_items] at h
      refine Link.formChain_tallied hP (List.forall_mem_map.mpr fun item hitem rows hrows => ?_) h
      exact ih (sizeOf item.condition) (sizeOf_lt_tally hitem) hrows rfl
    | _ => simp [chainRows] at h

theorem formChain_chain (hP : Inherited P) {role : Role} (hrole : role.isModifier = false)
    (hmeasured : role.isMeasured = false) {c : Condition} (h : c.chain s role = .ok rows) :
    FormChain P role rows := by
  simp only [chain, Lowered.bind_eq_ok, Lowered.pure_eq_ok] at h
  obtain ⟨plain, hplain, rfl⟩ := h
  exact (formChain_chainRows hP hplain).endingIn hP role rfl hrole hmeasured

/-- The chains of the operands of a run. -/
theorem formChain_chains (hP : Inherited P) {role : Role} (hrole : role.isModifier = false)
    (hmeasured : role.isMeasured = false) {j : Junction} {c : Condition}
    (h : chains s role (c.operands j) = .ok rows) : FormChain P role rows := by
  simp only [chains, Lowered.bind_eq_ok, Lowered.pure_eq_ok] at h
  obtain ⟨rowss, hrowss, rfl⟩ := h
  refine .flatten ?_ (Lowered.forall_mem_of_mapM hrowss fun d _ rows hrows =>
    formChain_chain hP hrole hmeasured hrows)
  rintro rfl
  exact operands_ne_nil j c (List.forall₂_nil_right_iff.mp (Lowered.mapM_eq_ok.mp hrowss))

end Condition

/-! ## Lowered triggers -/

/-- A property of rows, given the first target so far, that measuring keeps as well: a measured row
has it once its target was compared, and the others do not lose it. -/
structure Row.Emitted (P : FirstTarget → Row → Prop) : Prop where
  inherited : ∀ first, Inherited (P first)
  measured : ∀ {first first' : FirstTarget} {r : Row} {role : Role}, P first r → r.role = .plain →
    role.isMeasured = true → first.measure (target? { r with role }) = .ok first' →
      P first' { r with role }
  later : ∀ {first first' : FirstTarget} {target : Option UInt32} {r : Row},
    first.measure target = .ok first' → P first r → P first' r

namespace Trigger

theorem conjunctions_mapRows (f : Row → Row) (t : Trigger) :
    (t.mapRows f).conjunctions = t.conjunctions.map (·.map f) := by
  simp only [Trigger.conjunctions, Trigger.mapRows, List.isEmpty_map]
  split <;> simp

/-- **A trigger as lowering makes it**: all rows are in the core or all are in alternates, they have
the property, and no conjunction is empty or ends in a row that chains on. -/
structure IsEmitted (P : Row → Prop) (t : Trigger) : Prop where
  core : t.alternates ≠ [] → t.core = []
  ne_nil : ∀ rows ∈ t.conjunctions, rows ≠ []
  endsClause : ∀ rows ∈ t.conjunctions, Clause.EndsClause rows
  conjunctions : ∀ rows ∈ t.conjunctions, ∀ r ∈ rows, P r

namespace IsEmitted
variable {Q : Row → Prop} {t a b : Trigger}

theorem imp (h : t.IsEmitted P) (hPQ : ∀ r, P r → Q r) : t.IsEmitted Q :=
  { h with conjunctions := fun rows hrows r hr => hPQ r (h.conjunctions rows hrows r hr) }

theorem of_formChain {role : Role} {core : List Row} (h : FormChain P role core)
    (hrole : role.isCombining = false) : IsEmitted P { core } where
  core hne := absurd rfl hne
  ne_nil := List.forall_mem_singleton.mpr h.ne_nil
  endsClause := List.forall_mem_singleton.mpr (h.endsClause hrole)
  conjunctions := List.forall_mem_singleton.mpr h.rows

theorem and (ha : a.IsEmitted P) (hb : b.IsEmitted P) : (a.and b).IsEmitted P := by
  have hsplit := (mem_conjunctions_and (a := a) (b := b)).1
  refine ⟨and_core a b, fun rows hrows => ?_, fun rows hrows => ?_, fun rows hrows => ?_⟩
  · obtain ⟨x, hx, y, hy, rfl | rfl⟩ := hsplit rows hrows
    · exact List.append_ne_nil_of_left_ne_nil (ha.ne_nil x hx) y
    · exact List.append_ne_nil_of_left_ne_nil (hb.ne_nil y hy) x
  · obtain ⟨x, hx, y, hy, rfl | rfl⟩ := hsplit rows hrows
    · exact (ha.endsClause x hx).append (hb.endsClause y hy)
    · exact (hb.endsClause y hy).append (ha.endsClause x hx)
  · obtain ⟨x, hx, y, hy, rfl | rfl⟩ := hsplit rows hrows
    · exact List.forall_mem_append.mpr ⟨ha.conjunctions x hx, hb.conjunctions y hy⟩
    · exact List.forall_mem_append.mpr ⟨hb.conjunctions y hy, ha.conjunctions x hx⟩

theorem or (ha : a.IsEmitted P) (hb : b.IsEmitted P) : (a.or b).IsEmitted P := by
  refine ⟨fun _ => rfl, ?_, ?_, ?_⟩ <;> rw [conjunctions_or]
  · exact List.forall_mem_append.mpr ⟨ha.ne_nil, hb.ne_nil⟩
  · exact List.forall_mem_append.mpr ⟨ha.endsClause, hb.endsClause⟩
  · exact List.forall_mem_append.mpr ⟨ha.conjunctions, hb.conjunctions⟩

/-- A change to all rows that makes no terminal row chain on. -/
theorem mapRows (h : t.IsEmitted P) {f : Row → Row} (hf : ∀ r : Row, P r → P (f r))
    (hends : ∀ r : Row, r.role.isCombining = false → (f r).role.isCombining = false) :
    (t.mapRows f).IsEmitted P := by
  refine ⟨fun hne => ?_, ?_, ?_, ?_⟩
  · have hne : t.alternates ≠ [] := fun hnil => hne (by simp [Trigger.mapRows, hnil])
    simp [Trigger.mapRows, h.core hne]
  all_goals
    rw [conjunctions_mapRows, List.forall_mem_map]
    intro rows hrows
  · simpa using h.ne_nil rows hrows
  · intro r hr
    rw [List.getLast?_map, Option.mem_def, Option.map_eq_some_iff] at hr
    obtain ⟨last, hlast, rfl⟩ := hr
    exact hends last (h.endsClause rows hrows last hlast)
  · exact List.forall_mem_map.mpr fun r hr => hf r (h.conjunctions rows hrows r hr)

theorem conjunctions_eq (h : t.IsEmitted P) (hne : t.alternates ≠ []) :
    t.conjunctions = t.alternates := by
  simp [Trigger.conjunctions, hne, h.core hne]

/-- Groups are conjunctions, up to a core that is empty. -/
theorem eq_nil_or_mem_conjunctions (h : t.IsEmitted P) :
    ∀ group ∈ t.groups, group = [] ∨ group ∈ t.conjunctions := by
  by_cases hempty : t.alternates = []
  · simp [groups, Trigger.conjunctions, hempty]
  · rw [h.conjunctions_eq hempty]
    simp [groups, h.core hempty]

theorem ends (h : t.IsEmitted P) : ∀ group ∈ t.groups, Clause.EndsClause group := by
  intro group hgroup
  rcases h.eq_nil_or_mem_conjunctions group hgroup with rfl | hmem
  · simp [Clause.EndsClause]
  · exact h.endsClause group hmem

theorem rows (h : t.IsEmitted P) : ∀ r ∈ t.rows, P r := by
  intro r hr
  obtain ⟨group, hgroup, hr⟩ := List.mem_flatten.mp hr
  rcases h.eq_nil_or_mem_conjunctions group hgroup with rfl | hmem
  · cases hr
  · exact h.conjunctions group hmem r hr

end IsEmitted
end Trigger

namespace Condition
variable {s : Setting} {rows : List Row} {P : FirstTarget → Row → Prop}

/-- What the measurement of a condition leaves: the chain with its target compared, and guards behind
it. -/
theorem formChain_measuredRows (hP : Emitted P) {first first' : FirstTarget} {body : Condition}
    {when? : Option Condition} {format : Option MeasuredFormat}
    (h : measuredRows s first body when? format = .ok (rows, first')) :
    (∀ r, P first r → P first' r) ∧
      ∃ role, role.isCombining = false ∧ FormChain (P first') role rows := by
  have hrole : ∀ f : MeasuredFormat, f.role.isMeasured = true ∧ f.role.isCombining = false := by
    intro f
    cases f <;> exact ⟨rfl, rfl⟩
  obtain ⟨hmeasured, hends⟩ := hrole (format.getD s.options.measuredFormat)
  unfold measuredRows at h
  obtain ⟨chained, hchained, h⟩ := Lowered.bind_eq_ok.mp h
  obtain ⟨target, htarget, h⟩ := Lowered.bind_eq_ok.mp h
  simp only [chain, Lowered.bind_eq_ok, Lowered.pure_eq_ok] at hchained
  obtain ⟨plain, hplain, rfl⟩ := hchained
  obtain ⟨front, last, rfl, hfront, hlast, hplain⟩ :=
    (formChain_chainRows (hP.inherited first) hplain).exists_concat
  rw [endingIn, mapLast_concat] at h htarget
  rw [List.getLast?_concat, Option.bind_some] at htarget
  have hchain : FormChain (P target) (format.getD s.options.measuredFormat).role
      (front ++ [{ last with role := (format.getD s.options.measuredFormat).role }]) :=
    .append_left (.singleton (hP.measured hlast hplain hmeasured htarget)) fun r hr =>
      hP.later htarget (hfront r hr)
  cases when? with
  | none =>
    simp only [Lowered.bind_eq_ok, Lowered.pure_eq_ok, Prod.mk.injEq] at h
    obtain ⟨guards, rfl, rfl, rfl⟩ := h
    rw [List.append_nil]
    exact ⟨fun r => hP.later htarget, _, hends, hchain⟩
  | some guard =>
    simp only [Lowered.bind_eq_ok, Lowered.pure_eq_ok, Prod.mk.injEq] at h
    obtain ⟨guards, hguards, rfl, rfl⟩ := h
    have hguards := formChain_chains (hP.inherited target) rfl rfl hguards
    exact ⟨fun r => hP.later htarget, _, rfl, hguards.append_left hchain.rows⟩

/-- **All rows of a lowered trigger have a property that lowering keeps**, and what had it before
still does. -/
theorem isEmitted_of_lower (hP : Emitted P) {c : Condition} {first first' : FirstTarget}
    {t : Trigger} (h : c.lower s first = .ok (t, first')) :
    (∀ r, P first r → P first' r) ∧ t.IsEmitted (P first') := by
  fun_induction lower s c first generalizing first' t with
  | case1 first l c ih => exact ih (Lowered.located_eq_ok.mp h)
  | case2 first a b iha ihb =>
    simp only [Lowered.bind_eq_ok, Lowered.pure_eq_ok, Prod.mk.injEq, Prod.exists] at h
    obtain ⟨ta, f, hta, tb, f', htb, rfl, rfl⟩ := h
    obtain ⟨hfirst, ha⟩ := iha hta
    obtain ⟨hsecond, hb⟩ := ihb f htb
    exact ⟨fun r hr => hsecond r (hfirst r hr), (ha.imp hsecond).and hb⟩
  | case3 first a b iha ihb =>
    simp only [Lowered.bind_eq_ok, Lowered.pure_eq_ok, Prod.mk.injEq, Prod.exists] at h
    obtain ⟨ta, f, hta, tb, f', htb, rfl, rfl⟩ := h
    obtain ⟨hfirst, ha⟩ := iha hta
    obtain ⟨hsecond, hb⟩ := ihb f htb
    exact ⟨fun r hr => hsecond r (hfirst r hr), (ha.imp hsecond).or hb⟩
  | case4 first c ih =>
    simp only [Lowered.bind_eq_ok, Lowered.pure_eq_ok, Prod.mk.injEq, Prod.exists] at h
    obtain ⟨t, f, ht, rfl, rfl⟩ := h
    obtain ⟨hfirst, ht⟩ := ih ht
    refine ⟨hfirst, ht.mapRows (fun r hr => ?_) fun r hr => ?_⟩
    · split
      · rename_i hplain
        exact (hP.inherited f).ending hr (by rw [hplain]; rfl) rfl rfl
      · exact hr
    · split
      · rfl
      · exact hr
  | case5 =>
    simp only [Lowered.bind_eq_ok, Lowered.pure_eq_ok, Prod.mk.injEq] at h
    obtain ⟨core, hcore, rfl, rfl⟩ := h
    exact ⟨fun _ hr => hr, .of_formChain (formChain_chains (hP.inherited _) rfl rfl hcore) rfl⟩
  | case6 =>
    simp only [Lowered.bind_eq_ok, Lowered.pure_eq_ok, Prod.mk.injEq] at h
    obtain ⟨core, hcore, rfl, rfl⟩ := h
    exact ⟨fun _ hr => hr, .of_formChain (formChain_chains (hP.inherited _) rfl rfl hcore) rfl⟩
  | case7 =>
    simp only [Lowered.bind_eq_ok, Lowered.pure_eq_ok, Prod.mk.injEq, Prod.exists] at h
    obtain ⟨core, f, hcore, rfl, rfl⟩ := h
    obtain ⟨hlater, role, hrole, hchain⟩ := formChain_measuredRows hP hcore
    exact ⟨hlater, .of_formChain hchain hrole⟩
  | case8 =>
    simp only [Lowered.bind_eq_ok, Lowered.pure_eq_ok, Prod.mk.injEq] at h
    obtain ⟨core, hcore, rfl, rfl⟩ := h
    exact ⟨fun _ hr => hr, .of_formChain (formChain_chainRows (hP.inherited _) hcore) rfl⟩

/-- A property that does not speak of targets. -/
theorem isEmitted_of_lower_of_inherited {Q : Row → Prop} (hQ : Inherited Q)
    (hmeasured : ∀ {r : Row} {role : Role}, Q r → r.role = .plain → role.isMeasured = true →
      Q { r with role }) {c : Condition} {first first' : FirstTarget} {t : Trigger}
    (h : c.lower s first = .ok (t, first')) : t.IsEmitted Q :=
  (isEmitted_of_lower (P := fun _ => Q) ⟨fun _ => hQ, fun hr hplain hrole _ =>
    hmeasured hr hplain hrole, fun _ hr => hr⟩ h).2

/-- **Every group of a lowered trigger ends in a terminal row.** -/
theorem ends_of_lower {c : Condition} {first first' : FirstTarget} {t : Trigger}
    (h : c.lower s first = .ok (t, first')) : ∀ group ∈ t.groups, Clause.EndsClause group := by
  have hany : Inherited fun _ => True :=
    ⟨fun _ _ _ => trivial, fun _ => trivial, fun _ _ _ _ => trivial, fun _ _ _ => trivial⟩
  exact (isEmitted_of_lower_of_inherited hany (fun _ _ _ => trivial) h).ends

theorem all_isTerminated_of_lower {c : Condition} {first first' : FirstTarget} {t : Trigger}
    (h : c.lower s first = .ok (t, first')) :
    (ClauseGroups.ofTrigger t).All Clause.IsTerminated :=
  ClauseGroups.all_isTerminated_ofTrigger (ends_of_lower h)

end Condition

/-- A compiled trigger is what its condition was lowered to, or that simplified. -/
theorem Trigger.exists_lower_of_compile {s : Setting} {c : Condition} {t : Trigger}
    (h : compile s c = .ok t) :
    ∃ u first, c.lower s none = .ok (u, first) ∧ (t = u.simplify ∨ t = u) := by
  simp only [compile, Lowered.bind_eq_ok, Prod.exists] at h
  obtain ⟨u, first, hlower, h⟩ := h
  refine ⟨u, first, hlower, ?_⟩
  split at h
  · simp at h
  split at h
  · cases h
    exact .inl rfl
  · cases h
    exact .inr rfl

/-! ## Written rows

Comparisons and constants can be written as they are made, and the role and the hit target of a row
do not matter to that.  So all lowered rows can be written, and since no conjunction is empty and no
core is left in front of alternates, so can the whole trigger. -/

theorem Row.inherited_isRepresentable : Inherited IsRepresentable where
  linear := by
    rintro _ ⟨c, rfl, hc⟩
    obtain ⟨left, relation, right, hterminal, hleft, hright⟩ := hc.terminal
    refine List.forall_mem_append.mpr ⟨fun r hr => (hc.lead r hr).written, ?_⟩
    rw [List.forall_mem_singleton, hterminal]
    exact isRepresentable_comparing hleft relation hright
  constant := isRepresentable_constant
  ending hr _ _ _ := hr.of_eq rfl rfl rfl
  counting _ hr _ := hr.of_eq rfl rfl rfl

theorem Trigger.IsEmitted.isRepresentable {t : Trigger} (h : t.IsEmitted Row.IsRepresentable) :
    t.IsRepresentable where
  rows := h.rows
  alternates rows hrows := by
    apply h.ne_nil
    rwa [h.conjunctions_eq (List.ne_nil_of_mem hrows)]
  core hne := by simp [h.core hne]

/-- **Whatever a condition is lowered to can be written.** -/
theorem Condition.isRepresentable_of_lower {s : Setting} {c : Condition}
    {first first' : FirstTarget} {t : Trigger} (h : c.lower s first = .ok (t, first')) :
    t.IsRepresentable :=
  (isEmitted_of_lower_of_inherited Row.inherited_isRepresentable
    (fun hr _ _ => hr.of_eq rfl rfl rfl) h).isRepresentable

end MemoryTrigger

import MemoryTrigger.Proofs.GroupMeaning
import MemoryTrigger.Proofs.Numerals
import MemoryTrigger.Script.Phrase

/-! # The wording of conditions

Two facts about the conjuncts of a trigger (`Trigger.segments`) that the layout of lines rests on.
None of them holds a line break, whatever the rows are.  And each of them starts with a character
that is seen, where no clause dangles and no operand is missing that is written.  Both are kept row
by row while a clause is read (`ClauseReading.IsOneLine`, `ClauseReading.IsVisible`), and carry over
from clauses to conjuncts for one reason (`Phrase.Inherited`). -/
namespace MemoryTrigger

/-! ## Texts without line breaks -/

/-- A text without line breaks. -/
def IsOneLine (text : String) : Prop := '\n' ∉ text.toList

instance : DecidablePred IsOneLine := fun text =>
  inferInstanceAs (Decidable ('\n' ∉ text.toList))

@[simp] theorem isOneLine_append (s t : String) :
    IsOneLine (s ++ t) ↔ IsOneLine s ∧ IsOneLine t := by
  simp [IsOneLine, not_or]

theorem isOneLine_join {texts : List String} (h : ∀ text ∈ texts, IsOneLine text) :
    IsOneLine (String.join texts) := by
  rw [IsOneLine, String.toList_join, List.mem_flatMap]
  rintro ⟨text, htext, hbreak⟩
  exact h text htext hbreak

theorem isOneLine_intercalate {separator : String} {texts : List String}
    (hseparator : IsOneLine separator) (h : ∀ text ∈ texts, IsOneLine text) :
    IsOneLine (separator.intercalate texts) := by
  induction texts with
  | nil => simp [IsOneLine]
  | cons first rest ih =>
    obtain ⟨hfirst, hrest⟩ := List.forall_mem_cons.mp h
    cases rest with
    | nil => simpa using hfirst
    | cons second rest =>
      rw [String.intercalate_cons_cons, isOneLine_append, isOneLine_append]
      exact ⟨⟨hfirst, hseparator⟩, ih hrest⟩

theorem isOneLine_decimal (n : Nat) : IsOneLine (Numeral.decimal n) := fun h =>
  absurd (Numeral.isDigit_of_mem_decimal h) (by decide)

theorem isOneLine_hexUpper (width n : Nat) : IsOneLine (Numeral.hexUpper width n) := fun h =>
  absurd (Numeral.isAlphanum_of_mem_hexUpper h) (by decide)

theorem NumberFormat.isOneLine_text (format : NumberFormat) (n : UInt32) :
    IsOneLine (format.text n) := by
  cases format with
  | decimal => exact isOneLine_decimal _
  | hex => exact (isOneLine_append _ _).mpr ⟨by decide, isOneLine_hexUpper _ _⟩

theorem Size.isOneLine_accessor (size : Size) : IsOneLine size.accessor := by
  cases size with
  | bit i => exact (isOneLine_append _ _).mpr ⟨by decide, isOneLine_decimal _⟩
  | _ => decide

namespace Operand
variable {pointer : Option String} (hpointer : ∀ base ∈ pointer, IsOneLine base) (o : Operand)
include hpointer

theorem isOneLine_addressScript : IsOneLine (o.addressScript pointer) := by
  have hplace : IsOneLine ("0x" ++ Numeral.hexUpper 6 o.value.toNat) :=
    (isOneLine_append _ _).mpr ⟨by decide, isOneLine_hexUpper _ _⟩
  unfold addressScript
  cases pointer with
  | none => exact hplace
  | some base =>
    have hbase := hpointer base rfl
    dsimp only
    split
    · exact hbase
    · simp +decide only [isOneLine_append, hbase, isOneLine_hexUpper]

theorem isOneLine_script (format : NumberFormat) : IsOneLine (o.script format pointer) := by
  have haccessor := o.size.isOneLine_accessor
  have haddress := o.isOneLine_addressScript hpointer
  unfold script
  cases o.kind with
  | unused => exact (by decide : IsOneLine "")
  | literal => exact format.isOneLine_text _
  | _ => simp +decide only [isOneLine_append, haccessor, haddress]

end Operand

namespace Row
variable (format : NumberFormat) {pointer : Option String}
  (hpointer : ∀ base ∈ pointer, IsOneLine base) (r : Row)
include hpointer

theorem isOneLine_valueScript : IsOneLine (r.valueScript format pointer) := by
  have hleft := r.left.isOneLine_script hpointer format
  have hright := r.right.isOneLine_script hpointer format
  unfold valueScript
  cases r.operator with
  | arith a => cases a <;> simp +decide only [isOneLine_append, hleft, hright]
  | _ => exact hleft

omit hpointer in
theorem isOneLine_sumScript {terms : List (Bool × String)}
    (hterms : ∀ term ∈ terms, IsOneLine term.2) : IsOneLine (sumScript terms) := by
  cases terms with
  | nil => decide
  | cons term rest =>
    obtain ⟨subtract, first⟩ := term
    obtain ⟨hfirst, hrest⟩ := List.forall_mem_cons.mp hterms
    refine (isOneLine_append _ _).mpr ⟨?_, isOneLine_join (List.forall_mem_map.mpr ?_)⟩
    · cases subtract <;> simp +decide only [isOneLine_append, hfirst]
    · rintro ⟨subtract, term⟩ hmem
      have hterm : IsOneLine term := hrest _ hmem
      cases subtract <;> simp +decide only [isOneLine_append, hterm]

theorem isOneLine_testScript {terms : List (Bool × String)}
    (hterms : ∀ term ∈ terms, IsOneLine term.2) :
    IsOneLine (r.testScript format pointer terms) := by
  have hleft := r.left.isOneLine_script hpointer format
  have hright := r.right.isOneLine_script hpointer format
  have hsum := isOneLine_sumScript hterms
  unfold testScript
  cases r.operator with
  | compare relation =>
    have hsymbol : IsOneLine relation.symbol := by cases relation <;> decide
    dsimp only
    unfold comparisonScript
    split
    · decide
    · split
      · decide
      · dsimp only
        split <;> simp +decide only [isOneLine_append, hsum, hleft, hsymbol, hright]
  | _ => exact r.isOneLine_valueScript format hpointer

end Row

namespace Phrase

theorem isOneLine_operand {p : Phrase} (h : IsOneLine p.text) (j : Junction) :
    IsOneLine (p.operand j) := by
  unfold operand
  split
  · split
    · exact h
    · simp +decide only [isOneLine_append, h]
  · exact h

theorem isOneLine_join {p q : Phrase} (hp : IsOneLine p.text) (hq : IsOneLine q.text)
    (j : Junction) : IsOneLine (p.join j q).text := by
  have hsymbol : IsOneLine j.symbol := by cases j <;> decide
  simp only [join, isOneLine_append, isOneLine_operand hp, isOneLine_operand hq, hsymbol, and_self]

end Phrase

namespace ClauseReading

/-- No text that is kept while a clause is read holds a line break. -/
structure IsOneLine (s : ClauseReading) : Prop where
  pointer : ∀ base ∈ s.pointer, MemoryTrigger.IsOneLine base
  terms : ∀ term ∈ s.terms, MemoryTrigger.IsOneLine term.2
  chain : ∀ link ∈ s.chain, MemoryTrigger.IsOneLine link.1.text
  tally : ∀ text ∈ s.tally, MemoryTrigger.IsOneLine text
  reset : ∀ text ∈ s.reset, MemoryTrigger.IsOneLine text
  result : MemoryTrigger.IsOneLine s.result.text

namespace IsOneLine
variable {s : ClauseReading} {p : Phrase}

theorem joined (h : s.IsOneLine) (hp : MemoryTrigger.IsOneLine p.text) :
    MemoryTrigger.IsOneLine (s.joined p).text := by
  unfold ClauseReading.joined
  split
  · rename_i previous j hchain
    exact Phrase.isOneLine_join (h.chain _ hchain) hp j
  · exact hp

theorem withReset (h : s.IsOneLine) (hp : MemoryTrigger.IsOneLine p.text) :
    MemoryTrigger.IsOneLine (s.withReset p).text := by
  unfold ClauseReading.withReset
  split
  · rename_i reset hreset
    refine Phrase.isOneLine_join hp ?_ .and
    simp +decide only [isOneLine_append, h.reset reset hreset]
  · exact hp

theorem counted (h : s.IsOneLine) (hp : MemoryTrigger.IsOneLine p.text) (hits : UInt32) :
    MemoryTrigger.IsOneLine (s.counted hits p).text := by
  have hitems : MemoryTrigger.IsOneLine (", ".intercalate (s.tally ++ [p.text])) :=
    isOneLine_intercalate (by decide)
      (List.forall_mem_append.mpr ⟨h.tally, List.forall_mem_singleton.mpr hp⟩)
  have hdecimal := isOneLine_decimal hits.toNat
  unfold ClauseReading.counted
  split
  · simp +decide only [isOneLine_append, hdecimal, hitems]
  · split
    · simp +decide only [isOneLine_append, hp]
    · split
      · simp +decide only [isOneLine_append, hdecimal, hp]
      · exact hp

theorem step (h : s.IsOneLine) (format : NumberFormat) (r : Row) : (s.step format r).IsOneLine := by
  have hvalue := r.isOneLine_valueScript format h.pointer
  have htest := r.isOneLine_testScript format h.pointer h.terms
  have hplain : IsOneLine { s with pointer := none, terms := [] } :=
    { h with pointer := nofun, terms := by simp }
  have hended : IsOneLine { s with pointer := none, terms := [], chain := none, reset := none } :=
    { hplain with chain := nofun, reset := nofun }
  have hterms (subtract : Bool) : ∀ term ∈ s.terms ++ [(subtract, r.valueScript format s.pointer)],
      MemoryTrigger.IsOneLine term.2 :=
    List.forall_mem_append.mpr ⟨h.terms, List.forall_mem_singleton.mpr hvalue⟩
  have hjoined := hplain.joined (p := { text := r.testScript format s.pointer s.terms }) htest
  have hcondition := hplain.withReset hjoined
  have hdeduct := (isOneLine_append _ ")").mpr
    ⟨(isOneLine_append "deduct(" _).mpr ⟨by decide, hcondition⟩, by decide⟩
  have htally (text : String) (htext : MemoryTrigger.IsOneLine text) :
      ∀ text' ∈ s.tally ++ [text], MemoryTrigger.IsOneLine text' :=
    List.forall_mem_append.mpr ⟨h.tally, List.forall_mem_singleton.mpr htext⟩
  unfold ClauseReading.step
  dsimp only
  split
  · exact { h with pointer := by rintro _ ⟨⟩; exact hvalue }
  · exact { h with pointer := nofun, terms := hterms false }
  · exact { h with pointer := nofun, terms := hterms true }
  · split
    · exact { hplain with reset := by rintro _ ⟨⟩; exact htest }
    · exact { hplain with chain := by rintro _ ⟨⟩; exact hjoined }
    · exact { hplain with chain := by rintro _ ⟨⟩; exact hjoined }
    · split
      · exact { hended with tally := htally _ hcondition }
      · exact { hended with tally := htally _ hdeduct }
      · exact { hended with result := hended.counted hcondition r.hits }

end IsOneLine
end ClauseReading

theorem Clause.isOneLine_bodyPhrase (format : NumberFormat) (c : Clause) :
    IsOneLine (c.bodyPhrase format).text := by
  have hread (rows : List Row) (s : ClauseReading) (hs : s.IsOneLine) :
      (rows.foldl (ClauseReading.step format) s).IsOneLine := by
    induction rows generalizing s with
    | nil => exact hs
    | cons r rows ih => exact ih _ (hs.step format r)
  have hstart : ClauseReading.IsOneLine {} := ⟨nofun, nofun, nofun, nofun, nofun, by decide⟩
  have hall := hread c.rows {} hstart
  unfold bodyPhrase ClauseReading.finish
  split
  · rename_i dangling j hchain
    exact hall.chain _ hchain
  · exact hall.result

/-! ## Texts that start with a character -/

/-- A text whose first character is not a blank. -/
def IsVisible (text : String) : Prop := text.toList.head?.any (· != ' ') = true

instance : DecidablePred IsVisible := fun text =>
  inferInstanceAs (Decidable (text.toList.head?.any (· != ' ') = true))

theorem isVisible_iff {text : String} :
    IsVisible text ↔ ∃ c, text.toList.head? = some c ∧ c ≠ ' ' := by
  simp [IsVisible, Option.any_eq_true]

theorem IsVisible.append {s : String} (h : IsVisible s) (t : String) : IsVisible (s ++ t) := by
  obtain ⟨c, hc, hblank⟩ := isVisible_iff.mp h
  refine isVisible_iff.mpr ⟨c, ?_, hblank⟩
  rw [String.toList_append, List.head?_append, hc]
  rfl

theorem IsVisible.ne_empty {text : String} (h : IsVisible text) : text ≠ "" := by
  rintro rfl
  exact absurd h (by decide)

theorem isVisible_intercalate (separator : String) {texts : List String} (hne : texts ≠ [])
    (h : ∀ text ∈ texts, IsVisible text) : IsVisible (separator.intercalate texts) := by
  obtain ⟨first, rest, rfl⟩ := List.exists_cons_of_ne_nil hne
  have hfirst := h first List.mem_cons_self
  cases rest with
  | nil => simpa using hfirst
  | cons second rest =>
    rw [String.intercalate_cons_cons]
    exact (hfirst.append _).append _

theorem NumberFormat.isVisible_text (format : NumberFormat) (n : UInt32) :
    IsVisible (format.text n) := by
  cases format with
  | decimal =>
    obtain ⟨c, rest, hdigits⟩ := List.exists_cons_of_ne_nil (Nat.toDigits_ne_nil (n := n.toNat))
    have hlist : (Numeral.decimal n.toNat).toList = c :: rest := by
      rw [Numeral.toList_decimal, hdigits]
    refine isVisible_iff.mpr ⟨c, by rw [NumberFormat.text, hlist]; rfl, ?_⟩
    rintro rfl
    exact absurd (Numeral.isDigit_of_mem_decimal (hlist ▸ List.mem_cons_self)) (by decide)
  | hex => exact IsVisible.append (by decide) _

theorem Size.isVisible_accessor (size : Size) : IsVisible size.accessor := by
  cases size with
  | bit i => exact IsVisible.append (by decide) _
  | _ => decide

theorem Operand.isVisible_script (format : NumberFormat) (pointer : Option String) {o : Operand}
    (h : o.kind ≠ .unused) : IsVisible (o.script format pointer) := by
  have haccessor := o.size.isVisible_accessor
  unfold script
  cases hkind : o.kind with
  | unused => exact absurd hkind h
  | literal => exact format.isVisible_text _
  | current => exact ((haccessor.append _).append _).append _
  | _ => exact (IsVisible.append (by decide) _).append _

namespace Row
variable (format : NumberFormat) (pointer : Option String) {r : Row}

/-- The operands of a row that its text shows.  A row that feeds a value into the next one shows its
left side, and the right side only where that is part of the value. -/
def written (r : Row) : List Operand :=
  match r.operator with
  | .absent => [r.left]
  | .compare _ => if r.role.isModifier then [r.left] else [r.left, r.right]
  | .arith _ => [r.left, r.right]

theorem left_mem_written (r : Row) : r.left ∈ r.written := by
  unfold written
  split
  · exact List.mem_cons_self
  · split <;> exact List.mem_cons_self
  · exact List.mem_cons_self

theorem isVisible_valueScript (h : r.left.kind ≠ .unused) :
    IsVisible (r.valueScript format pointer) := by
  have hleft := Operand.isVisible_script format pointer h
  unfold valueScript
  cases r.operator with
  | arith a => exact (((hleft.append _).append _).append _).append _
  | _ => exact hleft

theorem isVisible_sumScript {terms : List (Bool × String)} (hne : terms ≠ [])
    (h : ∀ term ∈ terms, IsVisible term.2) : IsVisible (sumScript terms) := by
  obtain ⟨⟨subtract, first⟩, rest, rfl⟩ := List.exists_cons_of_ne_nil hne
  have hfirst : IsVisible first := h (subtract, first) List.mem_cons_self
  have hsigned : IsVisible ((if subtract then "0 - " else "") ++ first) := by
    cases subtract with
    | false => simpa using hfirst
    | true => exact IsVisible.append (by decide) _
  exact hsigned.append _

theorem isVisible_testScript {terms : List (Bool × String)} (h : r.left.kind ≠ .unused)
    (hterms : ∀ term ∈ terms, IsVisible term.2) :
    IsVisible (r.testScript format pointer terms) := by
  have hleft := Operand.isVisible_script format pointer h
  have hsum (hempty : (sumScript terms).isEmpty = false) : IsVisible (sumScript terms) := by
    refine isVisible_sumScript (fun hnil => ?_) hterms
    rw [hnil] at hempty
    exact absurd hempty (by decide)
  unfold testScript
  cases r.operator with
  | compare relation =>
    dsimp only
    unfold comparisonScript
    split
    · decide
    · split
      · decide
      · dsimp only
        refine (((IsVisible.append ?_ _).append _).append _).append _
        split
        · exact hleft
        · rename_i hempty
          exact ((hsum (by simpa using hempty)).append _).append _
  | _ => exact isVisible_valueScript format pointer h

end Row

theorem Phrase.isVisible_operand {p : Phrase} (h : IsVisible p.text) (j : Junction) :
    IsVisible (p.operand j) := by
  unfold operand
  split
  · split
    · exact h
    · exact (IsVisible.append (by decide) _).append _
  · exact h

theorem Phrase.isVisible_join {p : Phrase} (h : IsVisible p.text) (j : Junction) (q : Phrase) :
    IsVisible (p.join j q).text :=
  ((isVisible_operand h j).append _).append _

namespace ClauseReading

/-- The texts that the text of the next row may start with can be seen. -/
structure IsVisible (s : ClauseReading) : Prop where
  terms : ∀ term ∈ s.terms, MemoryTrigger.IsVisible term.2
  chain : ∀ link ∈ s.chain, MemoryTrigger.IsVisible link.1.text

namespace IsVisible
variable {s : ClauseReading} {p : Phrase} {r : Row}

theorem joined (h : s.IsVisible) (hp : MemoryTrigger.IsVisible p.text) :
    MemoryTrigger.IsVisible (s.joined p).text := by
  unfold ClauseReading.joined
  split
  · rename_i previous j hchain
    exact Phrase.isVisible_join (h.chain _ hchain) j p
  · exact hp

theorem withReset (hp : MemoryTrigger.IsVisible p.text) :
    MemoryTrigger.IsVisible (s.withReset p).text := by
  unfold ClauseReading.withReset
  split
  · exact Phrase.isVisible_join hp .and _
  · exact hp

theorem counted (hp : MemoryTrigger.IsVisible p.text) (hits : UInt32) :
    MemoryTrigger.IsVisible (s.counted hits p).text := by
  unfold ClauseReading.counted
  split
  · exact (((MemoryTrigger.IsVisible.append (by decide) _).append _).append _).append _
  · split
    · exact (MemoryTrigger.IsVisible.append (by decide) _).append _
    · split
      · exact (((MemoryTrigger.IsVisible.append (by decide) _).append _).append _).append _
      · exact hp

theorem step (h : s.IsVisible) (format : NumberFormat) (hr : r.left.kind ≠ .unused) :
    (s.step format r).IsVisible := by
  have hvalue := Row.isVisible_valueScript format s.pointer hr
  have htest := Row.isVisible_testScript format s.pointer hr h.terms
  have hplain : IsVisible { s with pointer := none, terms := [] } := ⟨by simp, h.chain⟩
  have hterms (subtract : Bool) : ∀ term ∈ s.terms ++ [(subtract, r.valueScript format s.pointer)],
      MemoryTrigger.IsVisible term.2 :=
    List.forall_mem_append.mpr ⟨h.terms, List.forall_mem_singleton.mpr hvalue⟩
  have hjoined := hplain.joined (p := { text := r.testScript format s.pointer s.terms }) htest
  unfold ClauseReading.step
  dsimp only
  split
  · exact ⟨h.terms, h.chain⟩
  · exact ⟨hterms false, h.chain⟩
  · exact ⟨hterms true, h.chain⟩
  · split
    · exact ⟨by simp, h.chain⟩
    · exact ⟨by simp, by rintro _ ⟨⟩; exact hjoined⟩
    · exact ⟨by simp, by rintro _ ⟨⟩; exact hjoined⟩
    · split <;> exact ⟨by simp, nofun⟩

/-- The row that ends a clause gives it a text that can be seen. -/
theorem finish_step (h : s.IsVisible) (format : NumberFormat) (hr : r.left.kind ≠ .unused)
    (hrole : r.role.isCombining = false) :
    MemoryTrigger.IsVisible (s.step format r).finish.text := by
  have htest := Row.isVisible_testScript format s.pointer hr h.terms
  have hplain : IsVisible { s with pointer := none, terms := [] } := ⟨by simp, h.chain⟩
  have hjoined := hplain.joined (p := { text := r.testScript format s.pointer s.terms }) htest
  have hcondition := withReset (s := { s with pointer := none, terms := [] }) hjoined
  have hcounted := counted
    (s := { s with pointer := none, terms := [], chain := none, reset := none })
    hcondition r.hits
  unfold ClauseReading.step
  cases hkind : r.role <;> simp only [hkind, Role.isCombining, Bool.true_eq_false] at hrole
  all_goals exact hcounted

end IsVisible
end ClauseReading

theorem Clause.isVisible_bodyPhrase (format : NumberFormat) {c : Clause} (hc : c.IsTerminated)
    (h : ∀ r ∈ c.rows, r.left.kind ≠ .unused) : IsVisible (c.bodyPhrase format).text := by
  have hread (rows : List Row) (s : ClauseReading) (hs : s.IsVisible)
      (hrows : ∀ r ∈ rows, r.left.kind ≠ .unused) :
      (rows.foldl (ClauseReading.step format) s).IsVisible := by
    induction rows generalizing s with
    | nil => exact hs
    | cons r rows ih =>
      obtain ⟨hr, hrows⟩ := List.forall_mem_cons.mp hrows
      exact ih _ (hs.step format hr) hrows
  obtain ⟨hlead, hterminal⟩ := List.forall_mem_append.mp h
  have hstart : ClauseReading.IsVisible {} := ⟨nofun, nofun⟩
  rw [bodyPhrase, Clause.rows, List.foldl_append]
  exact (hread c.lead {} hstart hlead).finish_step format
    (hterminal _ List.mem_cons_self) hc.terminal

/-! ## From clauses to conjuncts -/

/-- A property of texts that the conjuncts of a trigger take over from the conditions of its
clauses. -/
structure Phrase.Inherited (P : String → Prop) : Prop where
  alwaysTrue : P "always_true()"
  enclosed : ∀ {opening text : String},
    opening ∈ ["(", "never(", "unless(", "trigger_when(", "measured_if("] → P text →
      P (opening ++ text ++ ")")
  measured : ∀ {guards : List String} {body : String} (percent : Bool),
    (∀ guard ∈ guards, P guard) → P body → P (Clause.measuredPhrase guards percent body).text
  intercalated : ∀ {separator : String} {texts : List String},
    separator ∈ [" && ", " || "] → texts ≠ [] → (∀ text ∈ texts, P text) →
      P (separator.intercalate texts)

theorem Phrase.inherited_isOneLine : Inherited IsOneLine where
  alwaysTrue := by decide
  enclosed := by
    intro opening text hopening htext
    have hall : ∀ opening ∈ ["(", "never(", "unless(", "trigger_when(", "measured_if("],
        IsOneLine opening := by decide
    simp +decide only [isOneLine_append, hall opening hopening, htext]
  measured := by
    intro guards body percent hguards hbody
    have hjoined : IsOneLine (" && ".intercalate guards) :=
      isOneLine_intercalate (by decide) hguards
    unfold Clause.measuredPhrase
    cases guards.isEmpty <;> cases percent <;>
      simp +decide only [isOneLine_append, hbody, hjoined, if_true, if_false]
  intercalated := by
    intro separator texts hseparator _ htexts
    have hall : ∀ separator ∈ [" && ", " || "], IsOneLine separator := by decide
    exact isOneLine_intercalate (hall separator hseparator) htexts

theorem Phrase.inherited_isVisible : Inherited IsVisible where
  alwaysTrue := by decide
  enclosed := by
    intro opening text hopening _
    have hall : ∀ opening ∈ ["(", "never(", "unless(", "trigger_when(", "measured_if("],
        IsVisible opening := by decide
    exact ((hall opening hopening).append _).append _
  measured := by
    intro guards body percent _ _
    exact (((IsVisible.append (by decide) _).append _).append _).append _
  intercalated := fun _ hne htexts => isVisible_intercalate _ hne htexts

namespace Phrase.Inherited
variable {P : String → Prop} (hP : Inherited P) (format : NumberFormat)
include hP

theorem operand {p : Phrase} (h : P p.text) (j : Junction) : P (p.operand j) := by
  unfold Phrase.operand
  split
  · split
    · exact h
    · exact hP.enclosed (by simp) h
  · exact h

theorem phrase {c : Clause} (h : P (c.bodyPhrase format).text) : P (c.phrase format).text := by
  unfold Clause.phrase
  dsimp only
  split
  · exact hP.enclosed (by simp) h
  · exact hP.enclosed (by simp) h
  · exact hP.enclosed (by simp) h
  · exact h

theorem groupPhrases {rows : List Row} (h : ∀ c ∈ Clause.split rows, P (c.bodyPhrase format).text) :
    ∀ p ∈ Clause.groupPhrases format rows, P p.text := by
  have hguards : ∀ guard ∈ ((Clause.split rows).filter fun c => c.role == .measuredIf).map
      fun c => (c.phrase format).operand .and, P guard :=
    List.forall_mem_map.mpr fun c hc =>
      hP.operand (hP.phrase format (h c (List.mem_filter.mp hc).1)) .and
  intro p hp
  obtain ⟨c, hc, hshown⟩ := List.mem_filterMap.mp hp
  have htext := hP.phrase format (h c hc)
  revert hshown
  dsimp only
  split
  · rintro ⟨⟩
    exact hP.measured false hguards htext
  · rintro ⟨⟩
    exact hP.measured true hguards htext
  · split
    · nofun
    · rintro ⟨⟩
      exact hP.enclosed (by simp) htext
  · rintro ⟨⟩
    exact htext

theorem operands {rows : List Row} (h : ∀ c ∈ Clause.split rows, P (c.bodyPhrase format).text) :
    ∀ text ∈ (Clause.groupPhrases format rows).map (·.operand .and), P text :=
  List.forall_mem_map.mpr fun p hp => hP.operand (hP.groupPhrases format h p hp) .and

theorem alternateScript {rows : List Row}
    (h : ∀ c ∈ Clause.split rows, P (c.bodyPhrase format).text) :
    P (Trigger.alternateScript format rows) := by
  have hall := hP.operands format h
  unfold Trigger.alternateScript
  split
  · exact hP.alwaysTrue
  · rename_i single hsingle
    exact hall single (hsingle ▸ List.mem_cons_self)
  · rename_i conditions hnil _
    exact hP.enclosed (by simp) (hP.intercalated (by simp) hnil hall)

theorem segments {t : Trigger}
    (h : ∀ rows ∈ t.groups, ∀ c ∈ Clause.split rows, P (c.bodyPhrase format).text) :
    ∀ segment ∈ t.segments format, P segment := by
  obtain ⟨hcore, halternates⟩ := List.forall_mem_cons.mp h
  have hcore := hP.operands format hcore
  have halternation (hne : t.alternates.isEmpty = false) :
      P (" || ".intercalate (t.alternates.map (Trigger.alternateScript format))) := by
    refine hP.intercalated (by simp) (by simpa using hne)
      (List.forall_mem_map.mpr fun rows hrows => ?_)
    exact hP.alternateScript format (halternates rows hrows)
  unfold Trigger.segments
  dsimp only
  split
  · split
    · exact List.forall_mem_singleton.mpr hP.alwaysTrue
    · exact hcore
  · rename_i hne
    have halternation := halternation (by simpa using hne)
    split
    · exact List.forall_mem_singleton.mpr halternation
    · refine List.forall_mem_append.mpr ⟨hcore, List.forall_mem_singleton.mpr ?_⟩
      exact hP.enclosed (by simp) halternation

end Phrase.Inherited

namespace Trigger

theorem segments_ne_nil (format : NumberFormat) (t : Trigger) : t.segments format ≠ [] := by
  unfold segments
  dsimp only
  split
  · split
    · simp
    · rename_i hcore
      simpa using hcore
  · split <;> simp

/-- **No conjunct of a trigger holds a line break.** -/
theorem isOneLine_of_mem_segments (format : NumberFormat) (t : Trigger) :
    ∀ segment ∈ t.segments format, IsOneLine segment :=
  Phrase.inherited_isOneLine.segments format fun _ _ c _ => c.isOneLine_bodyPhrase format

/-- **Every conjunct of a trigger starts with a character that is seen**, where no clause dangles and
no operand is missing that is written. -/
theorem isVisible_of_mem_segments (format : NumberFormat) {t : Trigger}
    (hends : ∀ rows ∈ t.groups, Clause.EndsClause rows)
    (hwritten : ∀ r ∈ t.rows, ∀ o ∈ r.written, o.kind ≠ .unused) :
    ∀ segment ∈ t.segments format, IsVisible segment := by
  refine Phrase.inherited_isVisible.segments format fun rows hrows c hc => ?_
  refine c.isVisible_bodyPhrase format (Clause.isTerminated_of_mem_split (hends rows hrows) c hc)
    fun r hr => hwritten r ?_ _ r.left_mem_written
  rw [← Clause.join_split rows] at hrows
  exact List.mem_flatten.mpr ⟨_, hrows, List.mem_flatMap.mpr ⟨c, hc, hr⟩⟩

end Trigger
end MemoryTrigger

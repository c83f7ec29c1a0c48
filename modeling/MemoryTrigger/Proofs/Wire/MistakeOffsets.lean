import MemoryTrigger.Proofs.Wire.Acceptance
import Mathlib.Data.List.Basic

/-! # Where reading stops

A text is refused in one of two ways.  Either the reader was committed to something that is not there,
and says what; or a whole trigger was read and the text goes on behind it.  In the second case nothing
is said, and the mistake is where the longest trigger in front of the text ends: whatever phrase a text
begins with, the reader takes at least that much off it, unless a commitment fails behind it
(`Scanner.Reaches`). -/
namespace MemoryTrigger

namespace Scanner

/-! ## How far scanners get -/

section Reaches
variable {α β : Type} {p q : Scanner α} {f : α → Scanner β} {text mid rest : List Char} {a : α}

/-- The scanner fails for good, or takes so much that no more than the rest is left. -/
def Reaches (p : Scanner α) (text rest : List Char) : Prop :=
  (∃ expected left, p text = .fatal expected left) ∨
    ∃ a left, p text = .ok a left ∧ left.length ≤ rest.length

/-- The scanner gives up on no text. -/
def Persists (p : Scanner α) : Prop := ∀ text, Reaches p text text

namespace Reaches

theorem of_ok (h : p text = .ok a rest) : Reaches p text rest :=
  .inr ⟨a, rest, h, Nat.le_refl _⟩

theorem of_eq {text' : List Char} (h : p text = q text')
    (hq : Reaches q text' rest) : Reaches p text rest := by
  unfold Reaches
  rwa [h]

theorem bind (h : Reaches p text rest) (hf : ∀ a, Persists (f a)) : Reaches (p >>= f) text rest := by
  rcases h with ⟨expected, left, h⟩ | ⟨a, left, h, hle⟩
  · exact .inl ⟨expected, left, bind_of_fatal h⟩
  · rcases hf a left with ⟨expected, left', hf⟩ | ⟨b, left', hf, hle'⟩
    · exact .inl ⟨expected, left', (Scanner.bind_of_ok h).trans hf⟩
    · exact .inr ⟨b, left', (Scanner.bind_of_ok h).trans hf, Nat.le_trans hle' hle⟩

theorem length_le (h : Reaches p text rest) {left : List Char} (hok : p text = .ok a left) :
    left.length ≤ rest.length := by
  rcases h with ⟨expected, left', h⟩ | ⟨a', left', h, hle⟩
  · cases hok.symm.trans h
  · cases hok.symm.trans h
    exact hle

theorem not_refuses (h : Reaches p text rest) : ¬ Refuses p text := by
  rintro ⟨expected, left, hretry⟩
  rcases h with ⟨expected', left', h⟩ | ⟨a, left', h, -⟩
  · cases hretry.symm.trans h
  · cases hretry.symm.trans h

theorem bind_of_ok (h : p text = .ok a mid) (hf : Reaches (f a) mid rest) :
    Reaches (p >>= f) text rest :=
  .of_eq (Scanner.bind_of_ok h) hf

theorem or (h : Reaches p text rest) : Reaches (p.or q) text rest := by
  rcases h with ⟨expected, left, h⟩ | ⟨a, left, h, hle⟩
  · exact .inl ⟨expected, left, by rw [Scanner.or, h]⟩
  · exact .inr ⟨a, left, or_of_ok h, hle⟩

theorem or_of_refuses (h : Refuses p text) (hq : Reaches q text rest) :
    Reaches (p.or q) text rest :=
  .of_eq (Scanner.or_of_refuses h) hq

theorem required (h : Reaches p text rest) : Reaches p.required text rest := by
  rcases h with ⟨expected, left, h⟩ | ⟨a, left, h, hle⟩
  · exact .inl ⟨expected, left, by rw [Scanner.required, h]⟩
  · exact .inr ⟨a, left, required_of_ok h, hle⟩

theorem labelled (label : String) (h : Reaches p text rest) :
    Reaches (p.labelled label) text rest := by
  rcases h with ⟨expected, left, h⟩ | ⟨a, left, h, hle⟩
  · exact .inl ⟨{ expected with labels := expected.labels ++ [label] }, left,
      by rw [Scanner.labelled, h]⟩
  · exact .inr ⟨a, left, labelled_of_ok label h, hle⟩

theorem optional (h : Reaches p text rest) : Reaches p.optional text rest := by
  rcases h with ⟨expected, left, h⟩ | ⟨a, left, h, hle⟩
  · exact .inl ⟨expected, left, by rw [Scanner.optional, h]⟩
  · exact .inr ⟨some a, left, optional_of_ok h, hle⟩

end Reaches

namespace Persists

theorem pure (a : α) : Persists (pure a : Scanner α) := fun _ => .of_ok rfl

theorem bind (h : Persists p) (hf : ∀ a, Persists (f a)) : Persists (p >>= f) :=
  fun text => (h text).bind hf

theorem labelled (label : String) (h : Persists p) : Persists (p.labelled label) :=
  fun text => (h text).labelled label

theorem optional (h : Shrinks p) : Persists p.optional := by
  intro text
  unfold Reaches Scanner.optional
  cases houtcome : p text with
  | ok a left => exact .inr ⟨some a, left, rfl, (h.suffix_of_eq houtcome).length_le⟩
  | retry expected left => exact .inr ⟨none, text, rfl, Nat.le_refl _⟩
  | fatal expected left => exact .inl ⟨expected, left, rfl⟩

theorem required (h : Shrinks p) : Persists p.required := by
  intro text
  unfold Reaches Scanner.required
  cases houtcome : p text with
  | ok a left => exact .inr ⟨a, left, rfl, (h.suffix_of_eq houtcome).length_le⟩
  | retry expected left => exact .inl ⟨expected, left, rfl⟩
  | fatal expected left => exact .inl ⟨expected, left, rfl⟩

end Persists
end Reaches

/-! ## Operands -/

theorem reaches_hexWord (n : HexPhrase) (rest : List Char) :
    Reaches hexWord (n.text ++ rest) rest := by
  have hsuffix := takeHex_suffix (8 - n.digits.length) rest
  unfold Reaches
  rw [hexWord, HexPhrase.text, takeHex_append n.length_le]
  split
  · rename_i hnil
    have hvalues := (List.append_eq_nil_iff.mp (congrArg Prod.fst hnil)).1
    exact absurd (List.map_eq_nil_iff.mp hvalues) n.ne_nil
  · rename_i heq
    cases heq
    exact .inr ⟨_, _, rfl, hsuffix.length_le⟩

theorem reaches_digits (n : DecimalPhrase) (rest : List Char) :
    Reaches digits (n.text ++ rest) rest := by
  unfold Reaches digits
  rw [List.takeWhile_append_of_pos n.isDigit, List.dropWhile_append_of_pos n.isDigit]
  split
  · rename_i hnil
    exact absurd (List.append_eq_nil_iff.mp hnil).1 n.ne_nil
  · exact .inr ⟨_, _, rfl, (List.dropWhile_suffix _).length_le⟩

theorem reaches_memory_read (mark : Option (Letter OperandKind.marks)) (x : OneOf ['x', 'X'])
    (size : Option (Letter Size.letters)) (address : HexPhrase) (rest : List Char) :
    Reaches memory ((OperandPhrase.read mark x size address).text ++ rest) rest := by
  have haddress := (reaches_hexWord address rest).required.labelled "hex address"
  have hsize := takes_size size (address.text ++ rest) (address.head?_text rest)
  rw [OperandPhrase.text, List.append_assoc, List.cons_append, List.cons_append, List.append_assoc]
  exact .bind_of_ok (takes_mark mark _ ⟨_, rfl⟩) <|
    .bind_of_ok (oneOf_cons (List.mem_singleton_self '0')) <| .bind_of_ok (oneOf_cons x.property) <|
      .bind_of_ok hsize <| haddress.bind fun _ => .pure _

/-- Behind `0x` a read is committed to its address. -/
theorem reaches_memory_zero {x : Char} (hx : x ∈ ['x', 'X']) (rest : List Char) :
    Reaches memory ('0' :: x :: rest) (x :: rest) := by
  have haddress : Persists (hexWord.required.labelled "hex address") :=
    (Persists.required Shrinks.hexWord).labelled _
  have hrest := ((Persists.optional (.letter Size.ofLetter?)).bind fun size =>
    haddress.bind fun address => .pure (⟨.current, size.getD .word, address⟩ : Operand)) rest
  have hread : Reaches memory ('0' :: x :: rest) rest :=
    .bind_of_ok (takes_mark none _ ⟨_, rfl⟩) <|
      .bind_of_ok (oneOf_cons (List.mem_singleton_self '0')) <| .bind_of_ok (oneOf_cons hx) hrest
  exact hread.imp_right fun ⟨a, left, hok, hle⟩ => ⟨a, left, hok, Nat.le_succ_of_le hle⟩

/-- Digits are taken for a read only where they are a zero in front of an `x`. -/
theorem refuses_memory_digits_or (n : DecimalPhrase) (rest : List Char) :
    Refuses memory (n.text ++ rest) ∨
      n.text = ['0'] ∧ ∃ x rest', rest = x :: rest' ∧ x ∈ ['x', 'X'] := by
  obtain ⟨c, ds, hcons, hc, hds⟩ := n.exists_cons
  cases ds with
  | cons d ds =>
    -- the second digit tells already that there is no `0x`
    have hsecond : ∀ x ∈ (d :: (ds ++ rest)).head?, x ∉ ['x', 'X'] := by
      rintro _ ⟨⟩
      exact forall_digit (P := (· ∉ ['x', 'X'])) (by decide) (hds d List.mem_cons_self)
    rw [hcons]
    exact .inl (refuses_memory_digits ⟨[c], List.cons_ne_nil _ _, by simpa using hc⟩ hsecond)
  | nil =>
    cases rest with
    | nil => exact .inl (refuses_memory_digits n nofun)
    | cons x rest =>
      by_cases hx : x ∈ ['x', 'X']
      · by_cases hzero : c ∈ ['0']
        · rw [hcons, List.mem_singleton.mp hzero]
          exact .inr ⟨rfl, x, rest, rfl, hx⟩
        · have hmark := forall_digit (P := fun c => OperandKind.ofMark? c = none) (by decide) hc
          rw [hcons]
          exact .inl (refuses_memory_cons hmark hzero _)
      · exact .inl (refuses_memory_digits n (by rintro _ ⟨⟩; exact hx))

theorem persists_literalOf (n : Int) : Persists (literalOf n) := by
  intro text
  unfold Reaches literalOf
  split
  · exact .inr ⟨_, text, rfl, Nat.le_refl _⟩
  · exact .inl ⟨{}, text, rfl⟩

theorem reaches_decimalLiteral (minus : Bool) (n : DecimalPhrase) (hrange : n.IsLiteral minus)
    (rest : List Char) :
    Reaches decimalLiteral ((OperandPhrase.decimal minus n hrange).text ++ rest) rest := by
  obtain ⟨found, -, hminus⟩ := optional_minus minus n rest
  exact .bind_of_ok hminus ((reaches_digits n rest).bind fun _ => persists_literalOf _)

/-- **An operand is taken whole, whatever follows it**: the operand gets longer, or fails for good. -/
theorem reaches_operand (d : OperandPhrase) (rest : List Char) :
    Reaches operand (d.text ++ rest) rest := by
  refine Reaches.labelled _ ?_
  cases d with
  | read mark x size address => exact (reaches_memory_read mark x size address rest).or
  | hexadecimal h value =>
    refine .or_of_refuses (refuses_memory_hexadecimal h value rest) (Reaches.or ?_)
    exact .bind_of_ok (oneOf_cons h.property)
      ((reaches_hexWord value rest).required.bind fun _ => .pure _)
  | decimal minus n hrange =>
    have hdecimal : Reaches (hexLiteral.or decimalLiteral) _ rest :=
      .or_of_refuses (refuses_hexLiteral_decimal minus n hrange rest)
        (reaches_decimalLiteral minus n hrange rest)
    cases minus with
    | true => exact .or_of_refuses (refuses_memory_cons rfl (by decide) _) hdecimal
    | false =>
      rcases refuses_memory_digits_or n rest with hrefuses | ⟨hzero, x, rest, rfl, hx⟩
      · exact .or_of_refuses hrefuses hdecimal
      · -- what looked like the literal zero begins a read
        show Reaches _ (n.text ++ x :: rest) _
        rw [hzero]
        exact (reaches_memory_zero hx rest).or

/-! ## Rows -/

theorem reaches_leftSide (flagged : Bool) (d : OperandPhrase) (rest : List Char) :
    Reaches (leftSide flagged) (d.text ++ rest) rest := by
  cases flagged
  · exact reaches_operand d rest
  · exact (reaches_operand d rest).required

theorem reaches_rightSide (s : SidePhrase) (rest : List Char) :
    Reaches rightSide (s.text ++ rest) rest := by
  rw [SidePhrase.text, List.append_assoc]
  exact .bind_of_ok (takes_operator s.operator _ (head?_operandText s.right rest))
    ((reaches_operand s.right rest).required.bind fun _ => .pure _)

/-- A row is taken whole, whatever follows it. -/
theorem reaches_row (r : RowPhrase) (rest : List Char) : Reaches row (r.text ++ rest) rest := by
  obtain ⟨flag, left, side, hits⟩ := r
  have hhits : Persists Scanner.hits.optional := .optional Shrinks.hits
  have hside : Persists rightSide.optional := .optional Shrinks.rightSide
  rw [RowPhrase.text, List.append_assoc, List.append_assoc, List.append_assoc]
  refine .bind_of_ok (takes_flag flag _ ⟨_, _, rfl⟩) ?_
  -- All parts but the last are taken exactly, since what ends them stands behind them.
  cases hits with
  | some hits =>
    have hends := goesOn_hits hits rest
    exact .bind_of_ok (takes_leftSide _ left _ (goesOn_sideText side hends)) <|
      .bind_of_ok (takes_side side _ hends) <|
        .bind_of_ok (optional_of_ok (hits_text hits rest)) <| .of_ok rfl
  | none =>
    cases side with
    | some side =>
      exact .bind_of_ok (takes_leftSide _ left _ (goesOn_side side rest)) <|
        (reaches_rightSide side rest).optional.bind fun _ => hhits.bind fun _ => .pure _
    | none =>
      exact (reaches_leftSide _ left rest).bind fun _ =>
        hside.bind fun _ => hhits.bind fun _ => .pure _

/-! ## Groups -/

/-- Behind an underscore the rows of a group follow, unless there is none. -/
theorem moreRows_underscore {text : List Char} (h : ¬ Refuses row text) :
    moreRows ('_' :: text) = group text := by
  rw [moreRows, group]
  split
  · rename_i r left hrow
    rw [bind_of_ok hrow]
    cases hmore : moreRows left with
    | ok rs left' =>
      rw [bind_of_ok hmore]
      rfl
    | retry expected left' => rw [bind_of_retry hmore]
    | fatal expected left' => rw [bind_of_fatal hmore]
  · rename_i hrow
    exact absurd ⟨_, _, hrow⟩ h
  · rename_i hrow
    rw [bind_of_fatal hrow]

theorem persists_moreRows : Persists moreRows := by
  intro text
  unfold Reaches
  fun_induction Scanner.moreRows text with
  | case1 rest r left h rs left' hrec ih =>
    have hle := (Shrinks.moreRows.suffix_of_eq hrec).length_le
    have hle' := (Shrinks.row.suffix_of_eq h).length_le
    exact .inr ⟨_, _, rfl, Nat.le_succ_of_le (Nat.le_trans hle hle')⟩
  | case2 rest r left h hfail ih =>
    rcases ih with ⟨expected, left', hfatal⟩ | ⟨rs, left', hok, -⟩
    · exact .inl ⟨expected, left', hfatal⟩
    · exact absurd hok (hfail rs left')
  | case3 => exact .inr ⟨_, _, rfl, Nat.le_refl _⟩
  | case4 => exact .inl ⟨_, _, rfl⟩
  | case5 => exact .inr ⟨_, _, rfl, Nat.le_refl _⟩

theorem reaches_moreRows_underscore {text rest : List Char} (h : Reaches group text rest) :
    Reaches moreRows ('_' :: text) rest := by
  have hrow : ¬ Refuses row text := fun hrefuses => h.not_refuses hrefuses.bind
  exact .of_eq (moreRows_underscore hrow) h

/-- A group is taken whole, whatever follows it. -/
theorem reaches_group (g : GroupPhrase) (rest : List Char) : Reaches group (g.text ++ rest) rest := by
  obtain ⟨first, more⟩ := g
  induction more generalizing first with
  | nil =>
    rw [GroupPhrase.text, List.flatMap_nil, List.append_nil]
    exact (reaches_row first rest).bind fun _ => persists_moreRows.bind fun _ => .pure _
  | cons r rs ih =>
    have hmore := reaches_moreRows_underscore (ih r)
    rw [GroupPhrase.text, List.append_assoc] at hmore ⊢
    rw [List.flatMap_cons, RowPhrase.behindUnderscore, List.append_assoc, List.cons_append]
    exact .bind_of_ok (takes_row first _ (goesOn_cons (by decide))) (hmore.bind fun _ => .pure _)

/-! ## Triggers -/

/-- Behind an `S` a group must follow, and then the other alternates. -/
theorem alternates_mark {c : Char} (hc : c = 'S' ∨ c = 's') (text : List Char) :
    alternates (c :: text) =
      (do let rows ← alternate; let more ← alternates; pure (rows :: more) :
        Scanner (List (List Row))) text := by
  rw [alternates, if_pos hc]
  split
  · rename_i rows left hrows
    rw [bind_of_ok hrows]
    cases hmore : alternates left with
    | ok more left' =>
      rw [bind_of_ok hmore]
      rfl
    | retry expected left' => rw [bind_of_retry hmore]
    | fatal expected left' => rw [bind_of_fatal hmore]
  · rename_i hrows
    rw [bind_of_retry hrows]
  · rename_i hrows
    rw [bind_of_fatal hrows]

theorem Shrinks.alternates : Shrinks alternates := by
  intro text
  fun_induction Scanner.alternates text with
  | case1 => exact List.suffix_refl _
  | case2 c rest hc rows left h more left' hrec ih =>
    rw [hrec] at ih
    exact ih.trans ((Shrinks.alternate.suffix_of_eq h).trans (List.suffix_cons c rest))
  | case3 c rest hc rows left h hfail ih =>
    exact ih.trans ((Shrinks.alternate.suffix_of_eq h).trans (List.suffix_cons c rest))
  | case4 c rest hc expected left h =>
    exact (Shrinks.alternate.suffix_of_eq h).trans (List.suffix_cons c rest)
  | case5 c rest hc expected left h =>
    exact (Shrinks.alternate.suffix_of_eq h).trans (List.suffix_cons c rest)
  | case6 => exact List.suffix_refl _

theorem Shrinks.trigger : Shrinks trigger :=
  Shrinks.group.optional.bind fun _ => Shrinks.alternates.bind fun _ => .pure _

theorem persists_alternate : Persists alternate := (Persists.required Shrinks.group).labelled _

theorem persists_alternates : Persists alternates := by
  intro text
  unfold Reaches
  fun_induction Scanner.alternates text with
  | case1 => exact .inr ⟨_, _, rfl, Nat.le_refl _⟩
  | case2 c rest hc rows left h more left' hrec ih =>
    have hle := (Shrinks.alternates.suffix_of_eq hrec).length_le
    have hle' := (Shrinks.alternate.suffix_of_eq h).length_le
    exact .inr ⟨_, _, rfl, Nat.le_succ_of_le (Nat.le_trans hle hle')⟩
  | case3 c rest hc rows left h hfail ih =>
    rcases ih with ⟨expected, left', hfatal⟩ | ⟨more, left', hok, -⟩
    · exact .inl ⟨expected, left', hfatal⟩
    · exact absurd hok (hfail more left')
  | case4 c rest hc expected left h =>
    exact absurd ⟨_, _, h⟩ (persists_alternate rest).not_refuses
  | case5 => exact .inl ⟨_, _, rfl⟩
  | case6 => exact .inr ⟨_, _, rfl, Nat.le_refl _⟩

theorem reaches_alternates (as : List AlternatePhrase) (rest : List Char) :
    Reaches alternates (as.flatMap AlternatePhrase.text ++ rest) rest := by
  induction as with
  | nil => exact persists_alternates rest
  | cons a as ih =>
    have hmark : a.mark.val = 'S' ∨ a.mark.val = 's' := by simpa using a.mark.property
    rw [List.flatMap_cons, List.append_assoc, AlternatePhrase.text, List.cons_append]
    refine .of_eq (alternates_mark hmark _) ?_
    cases as with
    | nil =>
      exact ((reaches_group a.group rest).required.labelled _).bind fun _ =>
        persists_alternates.bind fun _ => .pure _
    | cons b bs =>
      have hgroup := takes_group.required.labelled "alternate group" a.group
        ((b :: bs).flatMap AlternatePhrase.text ++ rest) (goesOn_cons b.mark.property)
      exact .bind_of_ok hgroup (ih.bind fun _ => .pure _)

/-- **A trigger is taken whole, whatever follows it.** -/
theorem reaches_trigger (t : TriggerPhrase) (rest : List Char) :
    Reaches trigger (t.text ++ rest) rest := by
  obtain ⟨core, alternates⟩ := t
  have halternates := reaches_alternates alternates rest
  rw [TriggerPhrase.text, List.append_assoc]
  cases alternates with
  | cons a as =>
    exact .bind_of_ok (takes_core core _ (goesOn_cons a.mark.property))
      (halternates.bind fun _ => .pure _)
  | nil =>
    have hpersists := persists_alternates
    cases core with
    | some core =>
      exact (reaches_group core rest).optional.bind fun _ => hpersists.bind fun _ => .pure _
    | none =>
      exact (Persists.optional Shrinks.group rest).bind fun _ => hpersists.bind fun _ => .pure _

/-! ## What is said of a mistake -/

section Explains
variable {α β : Type} {p q : Scanner α} {f : α → Scanner β}

/-- Where the scanner fails for good, it says what it expected. -/
def Explains (p : Scanner α) : Prop :=
  ∀ text expected rest, p text = .fatal expected rest → expected.labels ≠ []

namespace Explains

theorem pure (a : α) : Explains (pure a : Scanner α) := by
  rintro text expected rest ⟨⟩

theorem bind (hp : Explains p) (hf : ∀ a, Explains (f a)) : Explains (p >>= f) := by
  intro text expected rest h
  change Scanner.bind p f text = _ at h
  unfold Scanner.bind at h
  split at h
  · exact hf _ _ _ _ h
  · cases h
  · rename_i hfatal
    cases h
    exact hp _ _ _ hfatal

theorem or (hp : Explains p) (hq : Explains q) : Explains (p.or q) := by
  intro text expected rest h
  unfold Scanner.or at h
  split at h
  · exact hq _ _ _ h
  · exact hp _ _ _ h

theorem optional (hp : Explains p) : Explains p.optional := by
  intro text expected rest h
  unfold Scanner.optional at h
  split at h
  · cases h
  · cases h
  · rename_i hfatal
    cases h
    exact hp _ _ _ hfatal

/-- A label is enough, also where the failure becomes fatal only later. -/
theorem labelled (label : String) (p : Scanner α) : Explains (p.labelled label) := by
  intro text expected rest h
  unfold Scanner.labelled at h
  split at h <;> cases h
  simp

theorem required_labelled (label : String) (p : Scanner α) :
    Explains (p.labelled label).required := by
  intro text expected rest h
  unfold Scanner.required Scanner.labelled at h
  cases houtcome : p text <;> rw [houtcome] at h <;> cases h <;> simp

theorem letter (g : Char → Option α) : Explains (letter g) := by
  intro text expected rest h
  unfold Scanner.letter at h
  split at h
  · cases h
  · split at h <;> cases h

end Explains
end Explains

theorem explains_oneOf (cs : List Char) : Explains (oneOf cs) := .letter _

theorem explains_relationOr (first second : Char) (both alone : Relation) :
    Explains (relationOr first second both alone) :=
  (explains_oneOf _).bind fun _ => (explains_oneOf _).optional.bind fun _ => .pure _

theorem explains_operator : Explains operator :=
  (explains_relationOr _ _ _ _).or <|
    Explains.or ((explains_oneOf _).bind fun _ => (explains_oneOf _).bind fun _ => .pure _) <|
      (explains_relationOr _ _ _ _).or <| (explains_relationOr _ _ _ _).or (.letter _)

theorem explains_leftSide (flagged : Bool) : Explains (leftSide flagged) := by
  cases flagged
  · exact .labelled _ _
  · exact .required_labelled _ _

theorem explains_row : Explains row := by
  have hflag : Explains flag := (Explains.letter _).bind fun _ => (explains_oneOf _).bind fun _ => .pure _
  have hright : Explains rightSide :=
    explains_operator.bind fun _ => (Explains.required_labelled _ _).bind fun _ => .pure _
  exact hflag.optional.bind fun _ => (explains_leftSide _).bind fun _ => hright.optional.bind fun _ =>
    (Explains.labelled _ _).optional.bind fun _ => .pure _

theorem explains_moreRows : Explains moreRows := by
  intro text
  fun_induction Scanner.moreRows text with
  | case1 => rintro expected rest ⟨⟩
  | case2 rest r left h hfail ih => exact ih
  | case3 => rintro expected rest ⟨⟩
  | case4 rest expected left h =>
    rintro _ _ ⟨⟩
    exact explains_row _ _ _ h
  | case5 => rintro expected rest ⟨⟩

theorem explains_alternates : Explains alternates := by
  intro text
  fun_induction Scanner.alternates text with
  | case1 => rintro expected rest ⟨⟩
  | case2 => rintro expected rest ⟨⟩
  | case3 c rest hc rows left h hfail ih => exact ih
  | case4 => rintro expected rest ⟨⟩
  | case5 c rest hc expected left h =>
    rintro _ _ ⟨⟩
    exact Explains.labelled _ _ _ _ _ h
  | case6 => rintro expected rest ⟨⟩

theorem explains_trigger : Explains trigger := by
  have hgroup : Explains group := explains_row.bind fun _ => explains_moreRows.bind fun _ => .pure _
  exact hgroup.optional.bind fun _ => explains_alternates.bind fun _ => .pure _

end Scanner

theorem ReadError.labels_of_detail_eq_empty {e : ReadError} (h : e.detail = "") :
    e.expected.labels = [] := by
  cases hlabels : e.expected.labels with
  | nil => rfl
  | cons label labels =>
    -- the detail begins with a word of its own
    cases hlarge : e.expected.tooLarge <;> simp [detail, hlabels, hlarge] at h

/-! ## Offsets -/

theorem byteLength_append (front rest : List Char) :
    byteLength (front ++ rest) = byteLength front + byteLength rest := by
  induction front with
  | nil => exact (Nat.zero_add _).symm
  | cons c front ih =>
    have hcons (cs : List Char) : byteLength (c :: cs) = c.utf8Size + byteLength cs := rfl
    rw [List.cons_append, hcons, hcons, ih, Nat.add_assoc]

theorem utf8ByteSize_ofList (cs : List Char) : (String.ofList cs).utf8ByteSize = byteLength cs := by
  induction cs with
  | nil => rfl
  | cons c cs ih =>
    have hsplit : String.ofList (c :: cs) = String.singleton c ++ String.ofList cs := by
      rw [String.singleton_eq_ofList, ← String.ofList_append]
      rfl
    rw [hsplit, String.utf8ByteSize_append, String.utf8ByteSize_singleton, ih]
    rfl

namespace Trigger
open Scanner

/-- A text is refused behind a whole trigger, or with a word on what was expected. -/
theorem read_eq_error_cases {text : String} {e : ReadError} (h : Trigger.read text = .error e) :
    ∃ front rest, text.toList = front ++ rest ∧ e.offset = byteLength front ∧
      ((∃ t, trigger text.toList = .ok t rest) ∨ e.expected.labels ≠ []) := by
  have hoffset {outcome : Outcome Trigger} (heq : trigger text.toList = outcome) :
      ∃ front, text.toList = front ++ outcome.rest ∧
        byteLength text.toList - byteLength outcome.rest = byteLength front := by
    obtain ⟨front, hfront⟩ := Shrinks.trigger.suffix_of_eq heq
    refine ⟨front, hfront.symm, ?_⟩
    rw [← hfront, byteLength_append, Nat.add_sub_cancel]
  unfold Trigger.read at h
  dsimp only at h
  split at h
  · cases h
  · rename_i t rest hread heq
    cases h
    obtain ⟨front, hfront, hlength⟩ := hoffset heq
    exact ⟨front, rest, hfront, hlength, .inl ⟨t, heq⟩⟩
  · rename_i heq
    exact absurd ⟨_, _, heq⟩ (reaches_trigger ⟨none, []⟩ text.toList).not_refuses
  · rename_i expected rest heq
    cases h
    obtain ⟨front, hfront, hlength⟩ := hoffset heq
    exact ⟨front, rest, hfront, hlength, .inr (explains_trigger _ _ _ heq)⟩

/-- The reader gets at least as far as any trigger that the text begins with. -/
theorem byteLength_le_of_read {front rest : List Char} {t t' : Trigger} {front' rest' : String}
    (hok : trigger (front ++ rest) = .ok t rest) (htext : (front' ++ rest').toList = front ++ rest)
    (hread : Trigger.read front' = .ok t') : byteLength front'.toList ≤ byteLength front := by
  obtain ⟨d, hd, -⟩ := gives_trigger _ _ _ ((read_eq_ok_iff front' t').mp hread)
  rw [List.append_nil] at hd
  rw [String.toList_append] at htext
  have hreaches := reaches_trigger d rest'.toList
  rw [hd, htext] at hreaches
  have hle := hreaches.length_le hok
  have hlength := congrArg List.length htext
  rw [List.length_append, List.length_append] at hlength
  obtain ⟨more, rfl⟩ : front'.toList <+: front :=
    List.prefix_of_prefix_length_le (htext ▸ List.prefix_append _ _) (List.prefix_append _ _)
      (by omega)
  rw [byteLength_append]
  exact Nat.le_add_right _ _

/-- **A mistake of which nothing is said is where the longest trigger ends**: the text in front of it
is read, and no longer beginning of the text is.  Every mistake lies within the text, at the boundary
of two characters. -/
theorem read_error_offset {text : String} {e : ReadError} (h : Trigger.read text = .error e) :
    (e.detail = "" →
      (∃ front rest t, front ++ rest = text ∧ Trigger.read front = .ok t ∧
        front.utf8ByteSize = e.offset) ∧
      ∀ front rest t, front ++ rest = text → Trigger.read front = .ok t →
        front.utf8ByteSize ≤ e.offset) ∧
    e.offset ≤ text.utf8ByteSize ∧ String.Pos.Raw.IsValid text ⟨e.offset⟩ := by
  obtain ⟨front, rest, htext, hoffset, hcause⟩ := read_eq_error_cases h
  have hsplit : String.ofList front ++ String.ofList rest = text := by
    rw [← String.ofList_append, ← htext, String.ofList_toList]
  have hsize : (String.ofList front).utf8ByteSize = e.offset := by
    rw [utf8ByteSize_ofList, hoffset]
  refine ⟨fun hdetail => ?_, ?_, ?_⟩
  · obtain ⟨t, hok⟩ := hcause.resolve_right fun hne => hne (e.labels_of_detail_eq_empty hdetail)
    rw [htext] at hok
    constructor
    · obtain ⟨d, hd, -⟩ := gives_trigger _ _ _ hok
      have hfront : d.text = front := List.append_cancel_right hd
      refine ⟨_, _, d.trigger, hsplit, (read_eq_ok_iff _ _).mpr ?_, hsize⟩
      rw [String.toList_ofList, ← hfront]
      exact trigger_text d
    · rintro front' rest' t' rfl hread
      rw [← String.ofList_toList (s := front'), utf8ByteSize_ofList, hoffset]
      exact byteLength_le_of_read hok htext hread
  · rw [← hsplit, String.utf8ByteSize_append, hsize]
    exact Nat.le_add_right _ _
  · refine String.Pos.Raw.isValid_iff_exists_append.mpr ⟨_, _, hsplit.symm, ?_⟩
    rw [← hsize]
    rfl

/-- The underscore commits to nothing, and the text ends in front of it; a dot commits to a hit target,
which is missed behind it. -/
theorem read_error_offset_accented :
    (Trigger.read "1=1_é" = .error ⟨{}, 3⟩ ∧
      (∃ front rest t, front ++ rest = "1=1_é" ∧ Trigger.read front = .ok t ∧
        front.utf8ByteSize = 3) ∧
      ∀ front rest t, front ++ rest = "1=1_é" → Trigger.read front = .ok t →
        front.utf8ByteSize ≤ 3) ∧
    Trigger.read "1=1.é" = .error ⟨⟨["hit count"], false⟩, 4⟩ ∧
      4 ≤ "1=1.é".utf8ByteSize ∧ String.Pos.Raw.IsValid "1=1.é" ⟨4⟩ := by
  have hbehind : Trigger.read "1=1_é" = .error ⟨{}, 3⟩ := by decide +kernel
  have hmissed : Trigger.read "1=1.é" = .error ⟨⟨["hit count"], false⟩, 4⟩ := by decide +kernel
  exact ⟨⟨hbehind, (read_error_offset hbehind).1 rfl⟩, hmissed, (read_error_offset hmissed).2⟩

end Trigger
end MemoryTrigger

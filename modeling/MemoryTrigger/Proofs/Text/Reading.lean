import MemoryTrigger.Proofs.Numerals
import MemoryTrigger.Proofs.Text.Regrouping

/-! # What the text of a value says

A reader of the text of a value sees words and brackets (`Token.lex`), and groups what it reads from
the left, with products before sums (`ReadingLevel.step`).  From the text of any value it gets the
value grouped from the left (`Value.read?_text`).  So two values have the same text exactly where
they are the same up to regrouping, and then the same number in every memory, if both are well
grouped (`Value.text_eq_iff`). -/
namespace MemoryTrigger

/-! ## Words and brackets -/

/-- A piece of the text of a value. -/
inductive Token where
  /-- An opening bracket, with the name in front of it if there is one. -/
  | opening (name : List Char)
  | closing
  | sign (minus : Bool)
  | factor (o : Arithmetic)
  | number (n : Int64)
  deriving DecidableEq, Repr

namespace Token

/-- What a word stands for; a numeral may be decimal or hexadecimal. -/
def ofWord : List Char → Token
  | ['+'] => sign false
  | ['-'] => sign true
  | ['*'] => factor .mul
  | ['/'] => factor .div
  | ['&'] => factor .mask
  | '0' :: 'x' :: digits => number (Int64.ofInt (Numeral.ofHex digits))
  | word => number (Int64.ofInt (Numeral.ofSigned word))

/-- The word so far, if there is one. -/
def pending (word : List Char) : List Token := if word.isEmpty then [] else [ofWord word]

/-- The pieces of a text behind the beginning of a word. -/
def lex (word : List Char) : List Char → List Token
  | [] => pending word
  | '(' :: rest => opening word :: lex [] rest
  | ')' :: rest => pending word ++ closing :: lex [] rest
  | ' ' :: rest => pending word ++ lex [] rest
  | c :: rest => lex (word ++ [c]) rest

/-- Whether a character can stand in a word. -/
def inWord (c : Char) : Bool := c != '(' && c != ')' && c != ' '

theorem lex_append_word {text : List Char} (h : ∀ c ∈ text, inWord c = true)
    (word rest : List Char) : lex word (text ++ rest) = lex (word ++ text) rest := by
  induction text generalizing word with
  | nil => simp
  | cons c text ih =>
    obtain ⟨hc, htext⟩ := List.forall_mem_cons.mp h
    have hstep : lex word (c :: (text ++ rest)) = lex (word ++ [c]) (text ++ rest) := by
      rw [lex]
      · rintro rfl; exact absurd hc (by decide)
      · rintro rfl; exact absurd hc (by decide)
      · rintro rfl; exact absurd hc (by decide)
    rw [List.cons_append, hstep, ih htext, List.append_assoc, List.singleton_append]

/-- What stands behind a word: nothing, a blank or a closing bracket. -/
def IsEnd (rest : List Char) : Prop := ∀ c ∈ rest.head?, c = ' ' ∨ c = ')'

theorem lex_of_isEnd {rest : List Char} (h : IsEnd rest) (word : List Char) :
    lex word rest = pending word ++ lex [] rest := by
  cases rest with
  | nil => simp [lex, pending]
  | cons c rest =>
    rcases h c rfl with rfl | rfl <;> rfl

/-- A word is one piece. -/
theorem lex_word {word rest : List Char} (hne : word ≠ []) (h : ∀ c ∈ word, inWord c = true)
    (hrest : IsEnd rest) : lex [] (word ++ rest) = ofWord word :: lex [] rest := by
  rw [lex_append_word h, List.nil_append, lex_of_isEnd hrest]
  simp [pending, hne]

/-! ### Numerals as words -/

theorem inWord_of_isAlphanum {c : Char} (h : c.isAlphanum = true) : inWord c = true := by
  have hne (d : Char) (hd : d.isAlphanum = false) : c ≠ d := by
    rintro rfl
    exact absurd h (by simp [hd])
  simp [inWord, hne '(' (by decide), hne ')' (by decide), hne ' ' (by decide)]

theorem inWord_of_isDigit {c : Char} (h : c.isDigit = true) : inWord c = true :=
  inWord_of_isAlphanum (by simp [Char.isAlphanum, h])

/-- A word that starts with a digit and is not hexadecimal is a decimal numeral. -/
theorem ofWord_of_isDigit {c : Char} {rest : List Char} (hc : c.isDigit = true)
    (hx : 'x' ∉ rest) :
    ofWord (c :: rest) = number (Int64.ofInt (Numeral.ofSigned (c :: rest))) := by
  have hsymbol (d : Char) (hd : d.isDigit = false) : c :: rest ≠ [d] := by
    rintro ⟨⟩
    exact absurd hc (by simp [hd])
  rw [ofWord]
  · exact hsymbol '+' (by decide)
  · exact hsymbol '-' (by decide)
  · exact hsymbol '*' (by decide)
  · exact hsymbol '/' (by decide)
  · exact hsymbol '&' (by decide)
  · rintro digits ⟨⟩
    exact hx List.mem_cons_self

end Token

namespace Numeral

theorem exists_decimal_eq_cons (n : Nat) :
    ∃ c rest, (decimal n).toList = c :: rest ∧ c.isDigit = true ∧ 'x' ∉ rest := by
  obtain ⟨c, rest, hdigits⟩ := List.exists_cons_of_ne_nil (Nat.toDigits_ne_nil (n := n))
  rw [← toList_decimal] at hdigits
  refine ⟨c, rest, hdigits, isDigit_of_mem_decimal (hdigits ▸ List.mem_cons_self), fun hx => ?_⟩
  have hdigit := isDigit_of_mem_decimal (n := n) (hdigits ▸ List.mem_cons_of_mem c hx)
  exact absurd hdigit (by decide)

theorem inWord_of_mem_signed {n : Int} {c : Char} (h : c ∈ (signed n).toList) :
    Token.inWord c = true := by
  unfold signed at h
  split at h
  · rw [String.toList_append, List.mem_append] at h
    rcases h with hminus | hdigit
    · rw [List.mem_singleton.mp hminus]
      decide
    · exact Token.inWord_of_isDigit (isDigit_of_mem_decimal hdigit)
  · exact Token.inWord_of_isDigit (isDigit_of_mem_decimal h)

theorem signed_ne_nil (n : Int) : (signed n).toList ≠ [] := by
  obtain ⟨c, rest, hlist, -⟩ := exists_decimal_eq_cons n.natAbs
  unfold signed
  split <;> simp [hlist]

/-- A numeral is read as its number. -/
theorem ofWord_signed (n : Int64) : Token.ofWord (signed n.toInt).toList = .number n := by
  have hvalue : Int64.ofInt (ofSigned (signed n.toInt).toList) = n := by
    rw [ofSigned_signed, Int64.ofInt_toInt]
  obtain ⟨c, rest, hlist, hc, hx⟩ := exists_decimal_eq_cons n.toInt.natAbs
  by_cases hn : n.toInt < 0
  · have hsigned : (signed n.toInt).toList = '-' :: c :: rest := by
      rw [signed, if_pos hn, String.toList_append, hlist]
      rfl
    rw [hsigned] at hvalue ⊢
    rw [← hvalue]
    rfl
  · have hsigned : (signed n.toInt).toList = c :: rest := by
      rw [signed, if_neg hn, hlist]
    rw [hsigned] at hvalue ⊢
    rw [Token.ofWord_of_isDigit hc hx, hvalue]

theorem ofWord_hexUpper (width : Nat) {n : Int64} (h : 0 ≤ n.toInt) :
    Token.ofWord ('0' :: 'x' :: (hexUpper width n.toInt.toNat).toList) = .number n := by
  have hvalue : (ofHex (hexUpper width n.toInt.toNat).toList : Int) = n.toInt := by
    rw [ofHex_hexUpper, Int.toNat_of_nonneg h]
  show Token.number (Int64.ofInt (ofHex (hexUpper width n.toInt.toNat).toList)) = _
  rw [hvalue, Int64.ofInt_toInt]

end Numeral

/-! ## The words of a value -/

namespace Value

/-- Whether every accessor is one of the standard ones. -/
def hasStandardReads : Value → Bool
  | constant _ => true
  | read accessor address => (Size.ofAccessor? accessor).isSome && address.hasStandardReads
  | viewed _ v => v.hasStandardReads
  | add a b | sub a b | mul a b | div a b | mask a b => a.hasStandardReads && b.hasStandardReads

/-- The pieces of a factor. -/
def factorTokens (v : Value) (tokens : List Token) : List Token :=
  if v.isSum then .opening [] :: tokens ++ [.closing] else tokens

/-- The pieces of the text of a value. -/
def tokens : Value → List Token
  | constant n => [.number n]
  | read accessor address => .opening accessor.toList :: address.tokens ++ [.closing]
  | viewed view v => .opening view.name.toList :: v.tokens ++ [.closing]
  | add a b => a.tokens ++ .sign false :: b.tokens
  | sub a b => a.tokens ++ .sign true :: b.factorTokens b.tokens
  | mul a b => a.factorTokens a.tokens ++ .factor .mul :: b.factorTokens b.tokens
  | div a b => a.factorTokens a.tokens ++ .factor .div :: b.factorTokens b.tokens
  | mask a b => a.factorTokens a.tokens ++ .factor .mask :: b.factorTokens b.tokens

end Value

theorem Size.exists_accessor_of_isSome {name : String} (h : (Size.ofAccessor? name).isSome = true) :
    ∃ size : Size, name = size.accessor := by
  obtain ⟨size, hsize⟩ := Option.isSome_iff_exists.mp h
  have hname := List.find?_some hsize
  exact ⟨size, (by simpa using hname : size.accessor = name).symm⟩

/-- A standard accessor is a word, and not that of a view. -/
theorem Size.accessor_isName (size : Size) :
    size.accessor.toList ≠ [] ∧ (∀ c ∈ size.accessor.toList, Token.inWord c = true) ∧
      ∀ view : View, view.name ≠ size.accessor := by
  have hviews (name : String) (h : name ≠ "prev" ∧ name ≠ "prior" ∧ name ≠ "bcd") (view : View) :
      view.name ≠ name := by
    cases view with
    | prev => exact h.1.symm
    | prior => exact h.2.1.symm
    | bcd => exact h.2.2.symm
  suffices hall : size.accessor.toList ≠ [] ∧ size.accessor.toList.all Token.inWord = true ∧
      size.accessor ≠ "prev" ∧ size.accessor ≠ "prior" ∧ size.accessor ≠ "bcd" from
    ⟨hall.1, List.all_eq_true.mp hall.2.1, hviews _ hall.2.2⟩
  cases size with
  | bit i => revert i; decide
  | _ => decide

namespace Token

/-- A call is a name with a bracket, what is inside it, and a closing bracket. -/
theorem lex_call (name : List Char) {inner rest : List Char} {tokens : List Token}
    (hname : ∀ c ∈ name, inWord c = true)
    (hinner : lex [] (inner ++ ')' :: rest) = tokens ++ lex [] (')' :: rest)) :
    lex [] (name ++ '(' :: (inner ++ ')' :: rest)) =
      opening name :: tokens ++ [closing] ++ lex [] rest := by
  rw [lex_append_word hname, List.nil_append, lex, hinner]
  simp [lex, pending]

/-- An operator is a word between blanks. -/
theorem lex_operator {o : Char} (ho : inWord o = true) (rest : List Char) :
    lex [] (' ' :: o :: ' ' :: rest) = ofWord [o] :: lex [] rest := by
  have hword : lex [] ([o] ++ ' ' :: rest) = ofWord [o] :: lex [] (' ' :: rest) :=
    lex_word (List.cons_ne_nil o []) (List.forall_mem_singleton.mpr ho)
      (by rintro _ ⟨⟩; exact .inl rfl)
  simpa [lex, pending] using hword

end Token

namespace Value
open Token

/-- The pieces of a text are those of the value, whatever stands behind it. -/
def IsLexed (text : String) (tokens : List Token) : Prop :=
  ∀ rest, IsEnd rest → lex [] (text.toList ++ rest) = tokens ++ lex [] rest

theorem IsLexed.factor {v : Value} {tokens : List Token} (h : IsLexed v.text tokens) :
    IsLexed v.factorText (v.factorTokens tokens) := by
  unfold factorText factorTokens bracketed
  cases v.isSum with
  | false => exact h
  | true =>
    intro rest _
    have hinner := h (')' :: rest) (by rintro _ ⟨⟩; exact .inr rfl)
    simpa using lex_call [] (by simp) hinner

theorem IsLexed.call {name text : String} {tokens : List Token}
    (hname : ∀ c ∈ name.toList, inWord c = true) (h : IsLexed text tokens) :
    IsLexed (name ++ "(" ++ text ++ ")") (opening name.toList :: tokens ++ [closing]) := by
  intro rest _
  have hinner := h (')' :: rest) (by rintro _ ⟨⟩; exact .inr rfl)
  simpa using lex_call name.toList hname hinner

theorem IsLexed.operator {left right symbol : String} {lefts rights : List Token} {o : Char}
    (hleft : IsLexed left lefts) (hright : IsLexed right rights) (ho : inWord o = true)
    (hsymbol : symbol.toList = [' ', o, ' ']) :
    IsLexed (left ++ symbol ++ right) (lefts ++ ofWord [o] :: rights) := by
  intro rest hrest
  have hbehind : lex [] (' ' :: o :: ' ' :: (right.toList ++ rest)) =
      ofWord [o] :: (rights ++ lex [] rest) := by
    rw [lex_operator ho, hright rest hrest]
  have hend : IsEnd (' ' :: o :: ' ' :: (right.toList ++ rest)) := by
    rintro _ ⟨⟩
    exact .inl rfl
  have hall := hleft _ hend
  rw [hbehind] at hall
  simpa [hsymbol] using hall

theorem isLexed_addressText {v : Value} (h : IsLexed v.text v.tokens) :
    IsLexed (v.addressText v.text) v.tokens := by
  unfold addressText
  split
  · rename_i n
    split
    · rename_i hn
      intro rest hrest
      have hword : ∀ c ∈ '0' :: 'x' :: (Numeral.hexUpper 6 n.toInt.toNat).toList,
          inWord c = true := by
        refine List.forall_mem_cons.mpr ⟨by decide, List.forall_mem_cons.mpr ⟨by decide, ?_⟩⟩
        exact fun c hc => inWord_of_isAlphanum (Numeral.isAlphanum_of_mem_hexUpper hc)
      have hlex := lex_word (List.cons_ne_nil _ _) hword hrest
      rw [Numeral.ofWord_hexUpper 6 hn] at hlex
      simpa [tokens] using hlex
    · exact h
  · exact h

/-- **The text of a value falls into its words and brackets.** -/
theorem isLexed_text {v : Value} (h : v.hasStandardReads = true) : IsLexed v.text v.tokens := by
  have hview (view : View) : ∀ c ∈ view.name.toList, inWord c = true := by
    refine List.all_eq_true.mp ?_
    cases view <;> decide
  induction v with
  | constant n =>
    intro rest hrest
    have hlex := lex_word (Numeral.signed_ne_nil n.toInt)
      (fun c hc => Numeral.inWord_of_mem_signed hc) hrest
    rwa [Numeral.ofWord_signed] at hlex
  | read accessor address ih =>
    obtain ⟨hname, haddress⟩ := Bool.and_eq_true_iff.mp h
    obtain ⟨size, rfl⟩ := Size.exists_accessor_of_isSome hname
    exact IsLexed.call size.accessor_isName.2.1 (isLexed_addressText (ih haddress))
  | viewed view v ih => exact IsLexed.call (hview view) (ih h)
  | add a b iha ihb =>
    obtain ⟨ha, hb⟩ := Bool.and_eq_true_iff.mp h
    exact (iha ha).operator (ihb hb) (o := '+') (by decide) rfl
  | sub a b iha ihb =>
    obtain ⟨ha, hb⟩ := Bool.and_eq_true_iff.mp h
    exact (iha ha).operator (ihb hb).factor (o := '-') (by decide) rfl
  | mul a b iha ihb =>
    obtain ⟨ha, hb⟩ := Bool.and_eq_true_iff.mp h
    exact (iha ha).factor.operator (ihb hb).factor (o := '*') (by decide) rfl
  | div a b iha ihb =>
    obtain ⟨ha, hb⟩ := Bool.and_eq_true_iff.mp h
    exact (iha ha).factor.operator (ihb hb).factor (o := '/') (by decide) rfl
  | mask a b iha ihb =>
    obtain ⟨ha, hb⟩ := Bool.and_eq_true_iff.mp h
    exact (iha ha).factor.operator (ihb hb).factor (o := '&') (by decide) rfl

end Value

/-! ## Grouping what is read -/

/-- What has been read between two brackets.  `sum` is what stands in front of the last term, with
whether that is subtracted. -/
inductive ReadingPart where
  | start
  /-- A sign waits for its term. -/
  | term (sum : Value) (minus : Bool)
  /-- An operation waits for its factor. -/
  | factor (sum : Option (Value × Bool)) (last : Value) (o : Arithmetic)
  | complete (sum : Option (Value × Bool)) (last : Value)
  deriving DecidableEq, Repr

namespace ReadingPart

/-- The sum with its last term. -/
def total : Option (Value × Bool) → Value → Value
  | none, last => last
  | some (sum, false), last => .add sum last
  | some (sum, true), last => .sub sum last

/-- Put an operand where one is awaited. -/
def put (v : Value) : ReadingPart → Option ReadingPart
  | start => some (complete none v)
  | term sum minus => some (complete (some (sum, minus)) v)
  | factor sum last o => some (complete sum (.arith o last v))
  | complete _ _ => none

end ReadingPart

/-- What a name in front of a bracket makes of the value inside. -/
def Value.called (name : List Char) (v : Value) : Value :=
  if name.isEmpty then v
  else match [View.prev, .prior, .bcd].find? fun view => view.name.toList == name with
    | some view => .viewed view v
    | none => .read (String.ofList name) v

/-- An open bracket: the name in front of it, and what has been read behind it. -/
structure ReadingLevel where
  name : List Char
  part : ReadingPart
  deriving DecidableEq, Repr

namespace ReadingLevel

/-- Read one piece; the innermost bracket is the first of the list. -/
def step (levels : List ReadingLevel) (token : Token) : Option (List ReadingLevel) :=
  match token, levels with
  | .opening name, levels => some (⟨name, .start⟩ :: levels)
  | .closing, ⟨name, .complete sum last⟩ :: ⟨outer, part⟩ :: rest =>
      (part.put (.called name (ReadingPart.total sum last))).map (⟨outer, ·⟩ :: rest)
  | .sign minus, ⟨name, .complete sum last⟩ :: rest =>
      some (⟨name, .term (ReadingPart.total sum last) minus⟩ :: rest)
  | .factor o, ⟨name, .complete sum last⟩ :: rest => some (⟨name, .factor sum last o⟩ :: rest)
  | .number n, ⟨name, part⟩ :: rest => (part.put (.constant n)).map (⟨name, ·⟩ :: rest)
  | _, _ => none

/-- Read some pieces. -/
def run (tokens : List Token) (levels : List ReadingLevel) : Option (List ReadingLevel) :=
  tokens.foldlM step levels

end ReadingLevel

/-- The value that a text says. -/
def Value.read? (text : String) : Option Value :=
  match ReadingLevel.run (Token.lex [] text.toList) [⟨[], .start⟩] with
  | some [⟨_, .complete sum last⟩] => some (ReadingPart.total sum last)
  | _ => none

/-! ### Parts -/

namespace ReadingPart
open Value (joinSum joinProduct)

/-- Put a chain of factors where an operand is awaited. -/
def attach (v : Value) : ReadingPart → Option ReadingPart
  | factor sum last o => some (complete sum (joinProduct o last v))
  | part => part.put v

theorem attach_eq_put {v : Value} (h : v.isProduct = false) (part : ReadingPart) :
    part.attach v = part.put v := by
  cases part with
  | factor sum last o => rw [attach, put, Value.joinProduct_of_not_isProduct h]
  | _ => rfl

/-- The factors of a chain are attached one after another. -/
theorem exists_attach_of_attach_joinProduct {o : Arithmetic} {a b : Value}
    {part part' : ReadingPart} (h : part.attach (joinProduct o a b) = some part') :
    ∃ sum last, part.attach a = some (complete sum last) ∧
      (factor sum last o).attach b = some part' := by
  cases part with
  | start => exact ⟨none, a, rfl, h⟩
  | term sum minus => exact ⟨some (sum, minus), a, rfl, h⟩
  | factor sum last p =>
    refine ⟨sum, joinProduct p last a, rfl, ?_⟩
    rw [← h, attach, attach, Value.joinProduct_assoc]
  | complete => cases h

/-- A whole sum that has been read. -/
def ofSum : Value → ReadingPart
  | .add sum last => complete (some (sum, false)) last
  | .sub sum last => complete (some (sum, true)) last
  | v => complete none v

theorem ofSum_of_not_isSum {v : Value} (h : v.isSum = false) : ofSum v = complete none v := by
  cases v with
  | add | sub => cases h
  | _ => rfl

/-- Where a sum can be written without brackets: at the start, or behind a plus sign. -/
def behind : Option Value → ReadingPart
  | none => start
  | some sum => term sum false

/-- A sum that goes on from another, if there is one. -/
def joined : Option Value → Value → Value
  | none, v => v
  | some sum, v => joinSum sum v

theorem joined_joinSum (sum? : Option Value) (a b : Value) :
    joined sum? (joinSum a b) = joinSum (joined sum? a) b := by
  cases sum? with
  | none => rfl
  | some sum => exact Value.joinSum_assoc sum a b

theorem joined_sub (sum? : Option Value) (a b : Value) :
    joined sum? (.sub a b) = .sub (joined sum? a) b := by
  cases sum? <;> rfl

theorem put_behind {v : Value} (h : v.isSum = false) (sum? : Option Value) :
    (behind sum?).put v = some (ofSum (joined sum? v)) := by
  cases sum? with
  | none => rw [joined, ofSum_of_not_isSum h]; rfl
  | some sum => rw [joined, Value.joinSum_of_not_isSum h]; rfl

theorem attach_behind {v : Value} (h : v.isSum = false) (sum? : Option Value) :
    (behind sum?).attach v = some (ofSum (joined sum? v)) := by
  rw [← put_behind h]
  cases sum? <;> rfl

end ReadingPart

/-! ### Runs -/

namespace ReadingLevel
open ReadingPart

theorem run_append (before behind : List Token) (levels : List ReadingLevel) :
    run (before ++ behind) levels = (run before levels).bind (run behind) :=
  List.foldlM_append

theorem run_cons (token : Token) (behind : List Token) (levels : List ReadingLevel) :
    run (token :: behind) levels = (step levels token).bind (run behind) :=
  List.foldlM_cons

theorem step_sign_ofSum (v : Value) (minus : Bool) (name : List Char) (rest : List ReadingLevel) :
    step (⟨name, ofSum v⟩ :: rest) (.sign minus) = some (⟨name, .term v minus⟩ :: rest) := by
  cases v <;> rfl

theorem step_closing_ofSum (v : Value) (name outer : List Char) (part : ReadingPart)
    (rest : List ReadingLevel) :
    step (⟨name, ofSum v⟩ :: ⟨outer, part⟩ :: rest) .closing =
      (part.put (.called name v)).map (⟨outer, ·⟩ :: rest) := by
  cases v <;> rfl

end ReadingLevel

namespace Value
open ReadingLevel ReadingPart

theorem called_view (view : View) (v : Value) : called view.name.toList v = viewed view v := by
  cases view <;> rfl

theorem called_accessor (size : Size) (v : Value) :
    called size.accessor.toList v = .read size.accessor v := by
  obtain ⟨hne, -, hview⟩ := size.accessor_isName
  have hnone : [View.prev, .prior, .bcd].find?
      (fun view => view.name.toList == size.accessor.toList) = none := by
    refine List.find?_eq_none.mpr fun view _ => ?_
    simpa [String.toList_inj] using hview view
  rw [called, if_neg (by simpa using hne), hnone, String.ofList_toList]

/-- Where a sum can stand without brackets, it is read as one. -/
def IsReadAsSum (v : Value) : Prop :=
  ∀ sum? name rest, run v.tokens (⟨name, behind sum?⟩ :: rest) =
    some (⟨name, ofSum (joined sum? v.regrouped)⟩ :: rest)

/-- Wherever an operand is awaited, the pieces attach the value. -/
def IsReadAsFactor (v : Value) (tokens : List Token) : Prop :=
  ∀ {part part' : ReadingPart}, part.attach v.regrouped = some part' →
    ∀ name rest, run tokens (⟨name, part⟩ :: rest) = some (⟨name, part'⟩ :: rest)

/-- A call puts one operand. -/
theorem IsReadAsSum.call {v : Value} (h : v.IsReadAsSum) (inner : List Char)
    {part part' : ReadingPart} (hput : part.put (.called inner v.regrouped) = some part')
    (name : List Char) (rest : List ReadingLevel) :
    run (.opening inner :: v.tokens ++ [.closing]) (⟨name, part⟩ :: rest) =
      some (⟨name, part'⟩ :: rest) := by
  have hinner : run v.tokens (⟨inner, .start⟩ :: ⟨name, part⟩ :: rest) =
      some (⟨inner, ofSum v.regrouped⟩ :: ⟨name, part⟩ :: rest) := h none inner _
  rw [List.cons_append, run_cons, step, Option.bind_some, run_append, hinner, Option.bind_some,
    run_cons, step_closing_ofSum, hput]
  rfl

/-- How a value is read: as a sum, and as a factor. -/
structure IsRead (v : Value) : Prop where
  sum : v.IsReadAsSum
  factor : v.IsReadAsFactor (v.factorTokens v.tokens)

/-- A sum is read as a factor from within brackets. -/
theorem IsRead.of_isSum {v : Value} (hv : v.isSum = true) (hsum : v.IsReadAsSum) : v.IsRead where
  sum := hsum
  factor {part part'} hattach := by
    have hproduct : v.isProduct = false := by
      cases v with
      | mul | div | mask => cases hv
      | _ => rfl
    rw [attach_eq_put (isProduct_regrouped hproduct)] at hattach
    rw [factorTokens, hv]
    exact hsum.call [] hattach

/-- What is no sum is a sum of one term. -/
theorem IsRead.of_not_isSum {v : Value} (hv : v.isSum = false)
    (hfactor : v.IsReadAsFactor v.tokens) : v.IsRead where
  sum sum? := hfactor (attach_behind ((isSum_regrouped v).trans hv) sum?)
  factor := by
    rw [factorTokens, hv]
    exact hfactor

/-- The factors of a chain are read one after another. -/
theorem IsRead.product {a b : Value} (ha : a.IsRead) (hb : b.IsRead) (o : Arithmetic)
    {part part' : ReadingPart}
    (hattach : part.attach (joinProduct o a.regrouped b.regrouped) = some part')
    (name : List Char) (rest : List ReadingLevel) :
    run (a.factorTokens a.tokens ++ .factor o :: b.factorTokens b.tokens) (⟨name, part⟩ :: rest) =
      some (⟨name, part'⟩ :: rest) := by
  obtain ⟨sum, last, hleft, hright⟩ := exists_attach_of_attach_joinProduct hattach
  rw [run_append, ha.factor hleft, Option.bind_some, run_cons, step, Option.bind_some]
  exact hb.factor hright name rest

/-- **The pieces of a value are read as the value grouped from the left.** -/
theorem isRead {v : Value} (h : v.hasStandardReads = true) : v.IsRead := by
  -- what stands in front of an operand changes how it is grouped, so both parts of `IsRead` are over
  -- everything that can stand there
  induction v with
  | constant n =>
    refine .of_not_isSum rfl fun {part part'} hattach name rest => ?_
    rw [attach_eq_put rfl, regrouped] at hattach
    rw [tokens, run_cons, step, hattach]
    rfl
  | read accessor address ih =>
    obtain ⟨hname, haddress⟩ := Bool.and_eq_true_iff.mp h
    obtain ⟨size, rfl⟩ := Size.exists_accessor_of_isSome hname
    refine .of_not_isSum rfl fun {part part'} hattach => ?_
    rw [attach_eq_put rfl, regrouped, ← called_accessor] at hattach
    exact (ih haddress).sum.call _ hattach
  | viewed view v ih =>
    refine .of_not_isSum rfl fun {part part'} hattach => ?_
    rw [attach_eq_put rfl, regrouped, ← called_view] at hattach
    exact (ih h).sum.call _ hattach
  | add a b iha ihb =>
    obtain ⟨ha, hb⟩ := Bool.and_eq_true_iff.mp h
    refine .of_isSum rfl fun sum? name rest => ?_
    rw [tokens, run_append, (iha ha).sum, Option.bind_some, run_cons, step_sign_ofSum,
      Option.bind_some, regrouped, joined_joinSum]
    -- behind a plus sign the terms of `b` go on from the sum so far
    exact (ihb hb).sum (some (joined sum? a.regrouped)) name rest
  | sub a b iha ihb =>
    obtain ⟨ha, hb⟩ := Bool.and_eq_true_iff.mp h
    refine .of_isSum rfl fun sum? name rest => ?_
    rw [tokens, run_append, (iha ha).sum, Option.bind_some, run_cons, step_sign_ofSum,
      Option.bind_some, regrouped, joined_sub]
    -- behind a minus sign a sum has brackets, and so is one operand
    exact (ihb hb).factor rfl name rest
  | mul a b iha ihb =>
    obtain ⟨ha, hb⟩ := Bool.and_eq_true_iff.mp h
    exact .of_not_isSum rfl ((iha ha).product (ihb hb) .mul)
  | div a b iha ihb =>
    obtain ⟨ha, hb⟩ := Bool.and_eq_true_iff.mp h
    exact .of_not_isSum rfl ((iha ha).product (ihb hb) .div)
  | mask a b iha ihb =>
    obtain ⟨ha, hb⟩ := Bool.and_eq_true_iff.mp h
    exact .of_not_isSum rfl ((iha ha).product (ihb hb) .mask)

/-- **A reader gets the value grouped from the left.** -/
theorem read?_text {v : Value} (h : v.hasStandardReads = true) :
    read? v.text = some v.regrouped := by
  have hlex : Token.lex [] v.text.toList = v.tokens := by
    simpa [Token.lex, Token.pending] using isLexed_text h [] (by rintro _ ⟨⟩)
  have hrun : run v.tokens [⟨[], .start⟩] = some [⟨[], ofSum v.regrouped⟩] :=
    (isRead h).sum none [] []
  rw [read?, hlex, hrun]
  cases v.regrouped <;> rfl

/-- **Two values have the same text exactly where they are the same up to regrouping.**  If both are
well grouped, they then have the same number in every memory. -/
theorem text_eq_iff {a b : Value} (ha : a.hasStandardReads = true)
    (hb : b.hasStandardReads = true) :
    (a.text = b.text ↔ a.regrouped = b.regrouped) ∧
      (a.isWellGrouped = true → b.isWellGrouped = true → a.text = b.text →
        ∀ m, a.valueIn Size.ofAccessor? m = b.valueIn Size.ofAccessor? m) := by
  have hiff : a.text = b.text ↔ a.regrouped = b.regrouped := by
    constructor
    · intro htext
      have hread := read?_text ha
      rw [htext, read?_text hb] at hread
      exact (Option.some.inj hread).symm
    · intro hregrouped
      rw [← text_regrouped a, ← text_regrouped b, hregrouped]
  refine ⟨hiff, fun hga hgb htext m => ?_⟩
  calc a.valueIn Size.ofAccessor? m
      = a.regrouped.valueIn Size.ofAccessor? m := (valueAs_regrouped _ m none hga).symm
    _ = b.regrouped.valueIn Size.ofAccessor? m := by rw [hiff.mp htext]
    _ = b.valueIn Size.ofAccessor? m := valueAs_regrouped _ m none hgb

/-- `byte(1) + (2 - word(2) * (3 * 4))`. -/
def groupedFromRight : Value :=
  .add (.read "byte" (.constant 1))
    (.sub (.constant 2) (.mul (.read "word" (.constant 2)) (.mul (.constant 3) (.constant 4))))

/-- `(byte(1) + 2) - (word(2) * 3) * 4`. -/
def groupedFromLeft : Value :=
  .sub (.add (.read "byte" (.constant 1)) (.constant 2))
    (.mul (.mul (.read "word" (.constant 2)) (.constant 3)) (.constant 4))

theorem text_eq_iff_groupedFromRight :
    groupedFromRight ≠ groupedFromLeft ∧
      groupedFromRight.text = "byte(0x000001) + 2 - word(0x000002) * 3 * 4" ∧
      groupedFromRight.text = groupedFromLeft.text ∧
      ∀ m, groupedFromRight.valueIn Size.ofAccessor? m =
        groupedFromLeft.valueIn Size.ofAccessor? m := by
  obtain ⟨hiff, hvalue⟩ :=
    text_eq_iff (a := groupedFromRight) (b := groupedFromLeft) (by decide) (by decide)
  have htext : groupedFromRight.text = groupedFromLeft.text := hiff.mpr (by decide)
  exact ⟨by decide, by decide, htext, hvalue (by decide) (by decide) htext⟩

/-- A quotient of a quotient has the text of another one, and not its number. -/
theorem exists_text_eq_and_valueIn_ne :
    ∃ a b : Value, a.hasStandardReads = true ∧ b.hasStandardReads = true ∧ a.text = b.text ∧
      ∀ m, a.valueIn Size.ofAccessor? m ≠ b.valueIn Size.ofAccessor? m := by
  refine ⟨.div (.constant 8) (.div (.constant 4) (.constant 2)),
    .div (.div (.constant 8) (.constant 4)) (.constant 2), rfl, rfl, rfl, fun m => ?_⟩
  have hvalues : (8 : Int).tdiv ((4 : Int).tdiv 2) ≠ ((8 : Int).tdiv 4).tdiv 2 := by decide
  exact hvalues

end Value
end MemoryTrigger

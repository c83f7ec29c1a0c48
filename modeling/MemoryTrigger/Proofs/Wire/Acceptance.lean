import MemoryTrigger.Proofs.Wire.Completeness

/-! # The reader accepts exactly the grammar

What a scanner has taken off a text is the text of a phrase, and the value that it gave is what the
phrase stands for (`Scanner.Gives`).  With completeness this settles what is read from every text.  It
also settles that the grammar is unambiguous: a scanner that takes two phrases off one text leaves the
same rest behind both, so that a text falls into parts in one way only. -/
namespace MemoryTrigger

namespace Scanner

/-! ## Texts have one derivation -/

section Injective
variable {α σ : Type} {p : Scanner α} {text : σ → List Char} {value : σ → α}
  {follow : List Char → Prop}

/-- Of two phrases in front of what may follow them, a text holds one only. -/
theorem Takes.append_inj (h : Takes p text value follow) {d d' : σ} {rest rest' : List Char}
    (hrest : follow rest) (hrest' : follow rest') (heq : text d ++ rest = text d' ++ rest') :
    text d = text d' ∧ rest = rest' := by
  have hread := h d rest hrest
  rw [heq, h d' rest' hrest'] at hread
  injection hread with _ hrests
  subst hrests
  exact ⟨List.append_cancel_right heq, rfl⟩

theorem optionalText_injective (hinj : Function.Injective text) (hne : ∀ d, text d ≠ []) :
    Function.Injective (optionalText text) := by
  rintro (_ | d) (_ | d') h
  · rfl
  · exact absurd h.symm (hne d')
  · exact absurd h (hne d)
  · rw [hinj h]

theorem flatMap_injective (hne : ∀ d, text d ≠ [])
    (hsplit : ∀ (d d' : σ) (ds ds' : List σ), text d ++ ds.flatMap text = text d' ++ ds'.flatMap text →
      d = d' ∧ ds.flatMap text = ds'.flatMap text) : Function.Injective (List.flatMap text) := by
  intro ds
  induction ds with
  | nil =>
    rintro (_ | ⟨d', ds'⟩) h
    · rfl
    · exact absurd (List.append_eq_nil_iff.mp h.symm).1 (hne d')
  | cons d ds ih =>
    rintro (_ | ⟨d', ds'⟩) h
    · exact absurd (List.append_eq_nil_iff.mp h).1 (hne d)
    · obtain ⟨rfl, hds⟩ := hsplit d d' ds ds' h
      rw [ih hds]

end Injective
end Scanner

open Scanner

theorem DecimalPhrase.text_injective : Function.Injective DecimalPhrase.text := by
  rintro ⟨cs, _, _⟩ ⟨cs', _, _⟩ (rfl : cs = cs')
  rfl

theorem HexPhrase.text_injective : Function.Injective HexPhrase.text := by
  rintro ⟨ds, _, _⟩ ⟨ds', _, _⟩ h
  obtain rfl : ds = ds' := (List.map_inj_right spells_hexDigit?.char_injective).mp h
  rfl

theorem Spells.singleton_injective {α : Type} {f : Char → Option α} {table : List (Char × α)}
    (hf : Spells f table) : Function.Injective fun l : Letter table => [l.char] :=
  fun _ _ h => hf.char_injective (List.singleton_inj.mp h)

namespace OperandPhrase

/-- Phrases differ where a scanner takes one and refuses the other. -/
theorem text_ne {p : Scanner Operand} {d d' : OperandPhrase} {o : Operand} {rest : List Char}
    (hok : p (d.text ++ []) = .ok o rest) (hrefuses : Refuses p (d'.text ++ [])) :
    d.text ≠ d'.text := by
  intro h
  rw [← h] at hrefuses
  exact hrefuses.not_ok hok

theorem read_inj {mark mark' : Option (Letter OperandKind.marks)} {x x' : OneOf ['x', 'X']}
    {size size' : Option (Letter Size.letters)} {address address' : HexPhrase}
    (h : (read mark x size address).text = (read mark' x' size' address').text) :
    read mark x size address = read mark' x' size' address' := by
  have hdigits (n : HexPhrase) : ∀ c ∈ n.text.head?, ∃ d, (c, d) ∈ inEitherCase hexDigits := by
    simpa using n.head?_text []
  obtain ⟨hmark, h⟩ := takes_mark.append_inj ⟨_, rfl⟩ ⟨_, rfl⟩ h
  obtain ⟨hx, h⟩ := List.cons.inj (List.cons.inj h).2
  obtain ⟨hsize, haddress⟩ := takes_size.append_inj (hdigits address) (hdigits address') h
  obtain rfl := optionalText_injective OperandKind.spells_ofMark?.singleton_injective
    (fun _ => List.cons_ne_nil _ _) hmark
  obtain rfl := optionalText_injective Size.spells_ofLetter?.singleton_injective
    (fun _ => List.cons_ne_nil _ _) hsize
  obtain rfl := Subtype.ext hx
  obtain rfl := HexPhrase.text_injective haddress
  rfl

theorem decimal_inj {minus minus' : Bool} {n n' : DecimalPhrase}
    {hrange : n.IsLiteral minus} {hrange' : n'.IsLiteral minus'}
    (h : (decimal minus n hrange).text = (decimal minus' n' hrange').text) :
    decimal minus n hrange = decimal minus' n' hrange' := by
  -- A minus sign is no digit.
  have hminus (n : DecimalPhrase) (cs : List Char) : n.text ≠ '-' :: cs := fun hcons =>
    absurd (n.isDigit '-' (hcons ▸ List.mem_cons_self)) (by decide)
  cases minus <;> cases minus'
  · obtain rfl := DecimalPhrase.text_injective h
    rfl
  · exact absurd h (hminus n _)
  · exact absurd h.symm (hminus n' _)
  · obtain rfl := DecimalPhrase.text_injective (List.cons.inj h).2
    rfl

theorem text_injective : Function.Injective text := by
  intro d d' h
  have hends : GoesOn operandEnds [] := .nil _
  -- Of phrases by different rules, the scanner of the first rule takes one and refuses the other.
  cases d with
  | read mark x size address =>
    have hread := memory_read mark x size address hends
    cases d' with
    | read => exact read_inj h
    | hexadecimal h' value =>
      exact absurd h (text_ne hread (refuses_memory_hexadecimal h' value []))
    | decimal minus n hrange =>
      exact absurd h (text_ne hread (refuses_memory_decimal minus n hrange hends))
  | hexadecimal m value =>
    have hrefuses := refuses_memory_hexadecimal m value []
    cases d' with
    | read mark x size address =>
      exact absurd h.symm (text_ne (memory_read mark x size address hends) hrefuses)
    | hexadecimal m' value' =>
      obtain ⟨hm, hvalue⟩ := List.cons.inj h
      obtain rfl := Subtype.ext hm
      rw [HexPhrase.text_injective hvalue]
    | decimal minus n hrange =>
      exact absurd h (text_ne (hexLiteral_hexadecimal m value hends)
        (refuses_hexLiteral_decimal minus n hrange []))
  | decimal minus n hrange =>
    have hrefuses := refuses_memory_decimal minus n hrange hends
    cases d' with
    | read mark x size address =>
      exact absurd h.symm (text_ne (memory_read mark x size address hends) hrefuses)
    | hexadecimal m value =>
      exact absurd h.symm (text_ne (hexLiteral_hexadecimal m value hends)
        (refuses_hexLiteral_decimal minus n hrange []))
    | decimal => exact decimal_inj h

end OperandPhrase

theorem OperatorPhrase.text_injective : Function.Injective OperatorPhrase.text := by
  intro op op' h
  cases op <;> cases op' <;> first | rfl | (simp [text] at h)

theorem OperatorPhrase.text_ne_nil (op : OperatorPhrase) : op.text ≠ [] := by
  cases op <;> exact List.cons_ne_nil _ _

theorem SidePhrase.text_injective : Function.Injective SidePhrase.text := by
  rintro ⟨op, right⟩ ⟨op', right'⟩ h
  have hstart (d : OperandPhrase) : ∀ c ∈ d.text.head?, c ∉ ['='] := by
    simpa using head?_operandText d []
  obtain ⟨hop, hright⟩ := takes_operator.append_inj (hstart right) (hstart right') h
  obtain rfl : op = op' := OperatorPhrase.text_injective hop
  obtain rfl := OperandPhrase.text_injective hright
  rfl

theorem HitsPhrase.text_injective : Function.Injective HitsPhrase.text := by
  rintro ⟨⟨start, stop⟩, _, n, _⟩ ⟨⟨start', stop'⟩, _, n', _⟩ h
  obtain ⟨hstart, h⟩ := List.cons.inj h
  obtain ⟨hcount, hstop⟩ := List.append_inj' h rfl
  obtain rfl : start = start' := hstart
  obtain rfl : stop = stop' := List.singleton_inj.mp hstop
  obtain rfl := DecimalPhrase.text_injective hcount
  rfl

namespace RowPhrase

theorem text_ne_nil (r : RowPhrase) : r.text ≠ [] := by
  obtain ⟨c, cs, hcons, -⟩ := exists_operandStart r.left
  simp [text, hcons]

theorem text_injective : Function.Injective text := by
  rintro ⟨flag, left, side, hits⟩ ⟨flag', left', side', hits'⟩ h
  have hsideEnds (o : Option HitsPhrase) : GoesOn sideEnds (optionalText HitsPhrase.text o) := by
    simpa using goesOn_hitsText o (.nil _)
  obtain ⟨hflag, h⟩ := takes_flag.append_inj ⟨_, _, rfl⟩ ⟨_, _, rfl⟩ h
  obtain ⟨hleft, h⟩ := takes_operand.append_inj (goesOn_sideText side (hsideEnds hits))
    (goesOn_sideText side' (hsideEnds hits')) h
  obtain ⟨hside, hhits⟩ := takes_side.append_inj (hsideEnds hits) (hsideEnds hits') h
  obtain rfl : flag = flag' := optionalText_injective
    (fun _ _ h => Role.spells_ofFlag?.char_injective (List.cons.inj h).1)
    (fun _ => List.cons_ne_nil _ _) hflag
  obtain rfl : left = left' := OperandPhrase.text_injective hleft
  obtain rfl := optionalText_injective SidePhrase.text_injective
    (fun side => List.append_ne_nil_of_left_ne_nil side.operator.text_ne_nil _) hside
  obtain rfl := optionalText_injective HitsPhrase.text_injective
    (fun _ => List.cons_ne_nil _ _) hhits
  rfl

theorem goesOn_more (rs : List RowPhrase) : GoesOn rowEnds (rs.flatMap behindUnderscore) := by
  simpa using goesOn_moreText rs (.nil _)

theorem behindUnderscore_injective : Function.Injective (List.flatMap behindUnderscore) := by
  refine flatMap_injective (fun _ => List.cons_ne_nil _ _) fun r r' rs rs' h => ?_
  obtain ⟨hrow, hmore⟩ := takes_row.append_inj (goesOn_more rs) (goesOn_more rs') (List.cons.inj h).2
  exact ⟨text_injective hrow, hmore⟩

end RowPhrase

theorem GroupPhrase.text_injective : Function.Injective GroupPhrase.text := by
  rintro ⟨first, more⟩ ⟨first', more'⟩ h
  obtain ⟨hfirst, hmore⟩ :=
    takes_row.append_inj (RowPhrase.goesOn_more more) (RowPhrase.goesOn_more more') h
  obtain rfl : first = first' := RowPhrase.text_injective hfirst
  obtain rfl := RowPhrase.behindUnderscore_injective hmore
  rfl

theorem AlternatePhrase.flatMap_text_injective :
    Function.Injective (List.flatMap AlternatePhrase.text) := by
  refine flatMap_injective (fun _ => List.cons_ne_nil _ _) ?_
  rintro ⟨mark, group⟩ ⟨mark', group'⟩ as as' h
  obtain ⟨hmark, h⟩ := List.cons.inj h
  obtain ⟨hgroup, hmore⟩ :=
    takes_group.append_inj (goesOn_alternatesText as) (goesOn_alternatesText as') h
  obtain rfl : mark = mark' := Subtype.ext hmark
  obtain rfl : group = group' := GroupPhrase.text_injective hgroup
  exact ⟨rfl, hmore⟩

/-- **The grammar is unambiguous.** -/
theorem TriggerPhrase.text_injective : Function.Injective TriggerPhrase.text := by
  rintro ⟨core, alternates⟩ ⟨core', alternates'⟩ h
  obtain ⟨hcore, halternates⟩ := takes_core.append_inj (goesOn_alternatesText alternates)
    (goesOn_alternatesText alternates') h
  obtain rfl : core = core' := optionalText_injective GroupPhrase.text_injective
    (fun g => List.append_ne_nil_of_left_ne_nil g.first.text_ne_nil _) hcore
  obtain rfl := AlternatePhrase.flatMap_text_injective halternates
  rfl

/-! ## What is read is a phrase -/

namespace Scanner
section Gives
variable {α σ : Type} {p q : Scanner α} {text : σ → List Char} {value : σ → α}

/-- Whatever the scanner takes off a text is the text of a phrase, and it gives what the phrase stands
for. -/
def Gives (p : Scanner α) (text : σ → List Char) (value : σ → α) : Prop :=
  ∀ input a rest, p input = .ok a rest → ∃ d, text d ++ rest = input ∧ value d = a

namespace Gives

theorem or (hp : Gives p text value) (hq : Gives q text value) : Gives (p.or q) text value := by
  intro input a rest h
  unfold Scanner.or at h
  split at h
  · exact hq input a rest h
  · exact hp input a rest h

theorem optional (hp : Gives p text value) :
    Gives p.optional (optionalText text) (Option.map value) := by
  intro input a rest h
  unfold Scanner.optional at h
  split at h
  · rename_i b mid hmid
    cases h
    obtain ⟨d, hd, rfl⟩ := hp input b _ hmid
    exact ⟨some d, hd, rfl⟩
  · cases h
    exact ⟨none, rfl, rfl⟩
  · cases h

theorem required (hp : Gives p text value) : Gives p.required text value :=
  fun input a rest h => hp input a rest (ok_of_required h)

theorem labelled (label : String) (hp : Gives p text value) :
    Gives (p.labelled label) text value := by
  intro input a rest h
  unfold Scanner.labelled at h
  split at h
  · rename_i b mid hmid
    cases h
    exact hp input _ _ hmid
  · cases h
  · cases h

theorem letter {f : Char → Option α} {table : List (Char × α)} (hf : Spells f table) :
    Gives (Scanner.letter f) (fun l : Letter table => [l.char]) Letter.value := by
  intro input a rest h
  obtain ⟨c, rfl, hc⟩ := letter_eq_ok h
  exact ⟨⟨c, a, (hf c a).mp hc⟩, rfl, rfl⟩

theorem oneOf (cs : List Char) :
    Gives (Scanner.oneOf cs) (fun c : OneOf cs => [c.val]) Subtype.val := by
  intro input a rest h
  obtain ⟨c, rfl, hc⟩ := letter_eq_ok h
  obtain ⟨hmem, heq⟩ := Option.ite_none_right_eq_some.mp hc
  exact ⟨⟨c, hmem⟩, rfl, Option.some.inj heq⟩

end Gives
end Gives

theorem oneOf_singleton_eq_ok {c found : Char} {input rest : List Char}
    (h : oneOf [c] input = .ok found rest) : found = c ∧ input = c :: rest := by
  obtain ⟨⟨c', hc'⟩, rfl, rfl⟩ := Gives.oneOf _ _ _ _ h
  obtain rfl := List.mem_singleton.mp hc'
  exact ⟨rfl, rfl⟩

theorem optional_oneOf_eq_ok {c : Char} {found : Option Char} {input rest : List Char}
    (h : (oneOf [c]).optional input = .ok found rest) :
    (found = some c ∧ input = c :: rest) ∨ (found = none ∧ input = rest) := by
  obtain ⟨_ | ⟨c', hc'⟩, rfl, rfl⟩ := (Gives.oneOf _).optional _ _ _ h
  · exact .inr ⟨rfl, rfl⟩
  · obtain rfl := List.mem_singleton.mp hc'
    exact .inl ⟨rfl, rfl⟩

theorem gives_digits : Gives digits DecimalPhrase.text DecimalPhrase.text := by
  intro input ds rest h
  unfold digits at h
  split at h
  · cases h
  · rename_i hne
    cases h
    exact ⟨⟨input.takeWhile Char.isDigit, hne, List.all_eq_true.mp List.all_takeWhile⟩,
      List.takeWhile_append_dropWhile, rfl⟩

theorem exists_of_word {input : List Char} {n : UInt32} {rest : List Char}
    (h : word input = .ok n rest) :
    ∃ d : DecimalPhrase, d.value < UInt32.size ∧ d.text ++ rest = input ∧ d.value.toUInt32 = n := by
  unfold word at h
  split at h
  · rename_i ds mid hds
    obtain ⟨d, hd, rfl⟩ := gives_digits input ds mid hds
    simp only at h
    split at h
    · rename_i hfits
      cases h
      exact ⟨d, hfits, hd, rfl⟩
    · cases h
  · cases h
  · cases h

theorem exists_of_takeHex (limit : Nat) (input : List Char) :
    ∃ ds : List (Letter hexDigits), ds.length ≤ limit ∧
      ds.map Letter.char ++ (takeHex limit input).2 = input ∧
      ds.map Letter.value = (takeHex limit input).1 := by
  fun_induction takeHex limit input with
  | case1 limit c rest d hd ds rest' hrec ih =>
    obtain ⟨letters, hlength, htext, hvalue⟩ := ih
    rw [hrec] at htext hvalue
    refine ⟨⟨c, d, (spells_hexDigit? c d).mp hd⟩ :: letters, Nat.succ_le_succ hlength, ?_, ?_⟩
    · rw [List.map_cons, List.cons_append, htext]
    · rw [List.map_cons, hvalue]
  | case2 => exact ⟨[], Nat.zero_le _, rfl, rfl⟩
  | case3 => exact ⟨[], Nat.zero_le _, rfl, rfl⟩

theorem gives_hexWord : Gives hexWord HexPhrase.text HexPhrase.value := by
  intro input a rest h
  obtain ⟨ds, hlength, htext, hvalue⟩ := exists_of_takeHex 8 input
  unfold hexWord at h
  split at h
  · cases h
  · rename_i values mid hne hmid
    cases h
    rw [hmid] at htext hvalue
    have hds : ds ≠ [] := by
      rintro rfl
      exact hne hvalue.symm
    exact ⟨⟨ds, hds, hlength⟩, htext, by rw [HexPhrase.value, hvalue]⟩

theorem gives_memory : Gives memory OperandPhrase.text OperandPhrase.operand := by
  intro input o rest h
  obtain ⟨kind, text₁, hmark, h⟩ := exists_of_bind h
  obtain ⟨zero, text₂, hzero, h⟩ := exists_of_bind h
  obtain ⟨x, text₃, hx, h⟩ := exists_of_bind h
  obtain ⟨size, text₄, hsize, h⟩ := exists_of_bind h
  obtain ⟨address, text₅, haddress, ⟨⟩⟩ := exists_of_bind h
  obtain ⟨mark, rfl, rfl⟩ := (Gives.letter OperandKind.spells_ofMark?).optional _ _ _ hmark
  obtain ⟨-, rfl⟩ := oneOf_singleton_eq_ok hzero
  obtain ⟨x, rfl, rfl⟩ := Gives.oneOf _ _ _ _ hx
  obtain ⟨size, rfl, rfl⟩ := (Gives.letter Size.spells_ofLetter?).optional _ _ _ hsize
  obtain ⟨address, rfl, rfl⟩ := gives_hexWord.required.labelled _ _ _ _ haddress
  exact ⟨.read mark x size address, by simp [OperandPhrase.text], rfl⟩

theorem gives_hexLiteral : Gives hexLiteral OperandPhrase.text OperandPhrase.operand := by
  intro input o rest h
  obtain ⟨c, text₁, hc, h⟩ := exists_of_bind h
  obtain ⟨value, text₂, hvalue, ⟨⟩⟩ := exists_of_bind h
  obtain ⟨c, rfl, rfl⟩ := Gives.oneOf _ _ _ _ hc
  obtain ⟨value, rfl, rfl⟩ := gives_hexWord.required _ _ _ hvalue
  exact ⟨.hexadecimal c value, rfl, rfl⟩

theorem gives_decimalLiteral : Gives decimalLiteral OperandPhrase.text OperandPhrase.operand := by
  intro input o rest h
  obtain ⟨minus, text₁, hminus, h⟩ := exists_of_bind h
  obtain ⟨ds, text₂, hds, h⟩ := exists_of_bind h
  obtain ⟨n, rfl, rfl⟩ := gives_digits _ _ _ hds
  unfold literalOf at h
  split at h
  · rename_i hrange
    cases h
    obtain ⟨rfl, rfl⟩ | ⟨rfl, rfl⟩ := optional_oneOf_eq_ok hminus
    · exact ⟨.decimal true n hrange, rfl, rfl⟩
    · exact ⟨.decimal false n hrange, rfl, rfl⟩
  · cases h

theorem gives_operand : Gives operand OperandPhrase.text OperandPhrase.operand :=
  (gives_memory.or (gives_hexLiteral.or gives_decimalLiteral)).labelled _

theorem gives_leftSide (flagged : Bool) :
    Gives (leftSide flagged) OperandPhrase.text OperandPhrase.operand := by
  cases flagged
  · exact gives_operand
  · exact gives_operand.required

theorem gives_relationOr {first second : Char} {both alone : Relation} (two one : OperatorPhrase)
    (htwo : two.text = [first, second] ∧ two.operator = .compare both)
    (hone : one.text = [first] ∧ one.operator = .compare alone) :
    Gives (relationOr first second both alone) OperatorPhrase.text OperatorPhrase.operator := by
  intro input op rest h
  obtain ⟨c, text₁, hc, h⟩ := exists_of_bind h
  obtain ⟨more, text₂, hmore, ⟨⟩⟩ := exists_of_bind h
  obtain ⟨-, rfl⟩ := oneOf_singleton_eq_ok hc
  obtain ⟨rfl, rfl⟩ | ⟨rfl, rfl⟩ := optional_oneOf_eq_ok hmore
  · exact ⟨two, by rw [htwo.1]; rfl, htwo.2⟩
  · exact ⟨one, by rw [hone.1]; rfl, hone.2⟩

theorem gives_notEqual : Gives notEqual OperatorPhrase.text OperatorPhrase.operator := by
  intro input op rest h
  obtain ⟨c, text₁, hc, h⟩ := exists_of_bind h
  obtain ⟨c', text₂, hc', ⟨⟩⟩ := exists_of_bind h
  obtain ⟨-, rfl⟩ := oneOf_singleton_eq_ok hc
  obtain ⟨-, rfl⟩ := oneOf_singleton_eq_ok hc'
  exact ⟨.notEqual, rfl, rfl⟩

theorem gives_arithmetic : Gives arithmetic OperatorPhrase.text OperatorPhrase.operator := by
  intro input op rest h
  obtain ⟨c, rfl, hc⟩ := letter_eq_ok h
  split at hc <;> cases hc
  · exact ⟨.times, rfl, rfl⟩
  · exact ⟨.divide, rfl, rfl⟩
  · exact ⟨.mask, rfl, rfl⟩

theorem gives_operator : Gives operator OperatorPhrase.text OperatorPhrase.operator :=
  (gives_relationOr .doubleEqual .equal ⟨rfl, rfl⟩ ⟨rfl, rfl⟩).or <| gives_notEqual.or <|
    (gives_relationOr .lessEqual .less ⟨rfl, rfl⟩ ⟨rfl, rfl⟩).or <|
      (gives_relationOr .greaterEqual .greater ⟨rfl, rfl⟩ ⟨rfl, rfl⟩).or gives_arithmetic

theorem gives_rightSide : Gives rightSide SidePhrase.text SidePhrase.side := by
  intro input side rest h
  obtain ⟨op, text₁, hop, h⟩ := exists_of_bind h
  obtain ⟨right, text₂, hright, ⟨⟩⟩ := exists_of_bind h
  obtain ⟨op, rfl, rfl⟩ := gives_operator _ _ _ hop
  obtain ⟨right, rfl, rfl⟩ := gives_operand.required _ _ _ hright
  exact ⟨⟨op, right⟩, List.append_assoc _ _ _, rfl⟩

theorem gives_flag :
    Gives flag (fun f : Letter Role.flags => [f.char, ':']) Letter.value := by
  intro input role rest h
  obtain ⟨role, text₁, hrole, h⟩ := exists_of_bind h
  obtain ⟨c, text₂, hc, ⟨⟩⟩ := exists_of_bind h
  obtain ⟨f, rfl, rfl⟩ := Gives.letter Role.spells_ofFlag? _ _ _ hrole
  obtain ⟨-, rfl⟩ := oneOf_singleton_eq_ok hc
  exact ⟨f, rfl, rfl⟩

theorem gives_hitsBetween {start stop : Char} (hlisted : (start, stop) ∈ [('.', '.'), ('(', ')')]) :
    Gives (hitsBetween start stop) HitsPhrase.text HitsPhrase.hits := by
  intro input n rest h
  obtain ⟨c, text₁, hstart, h⟩ := exists_of_bind h
  obtain ⟨count, text₂, hcount, h⟩ := exists_of_bind h
  obtain ⟨c', text₃, hstop, ⟨⟩⟩ := exists_of_bind h
  obtain ⟨-, rfl⟩ := oneOf_singleton_eq_ok hstart
  obtain ⟨⟨c', hc'⟩, rfl, rfl⟩ := (Gives.oneOf _).required _ _ _ hstop
  obtain rfl := List.mem_singleton.mp hc'
  obtain ⟨count, hfits, rfl, rfl⟩ := exists_of_word (ok_of_required hcount)
  exact ⟨⟨(start, c'), hlisted, count, hfits⟩, by simp [HitsPhrase.text], rfl⟩

theorem gives_hits : Gives hits HitsPhrase.text HitsPhrase.hits :=
  ((gives_hitsBetween (by decide)).or (gives_hitsBetween (by decide))).labelled _

theorem gives_row : Gives row RowPhrase.text RowPhrase.row := by
  intro input r rest h
  obtain ⟨role, text₁, hflag, h⟩ := exists_of_bind h
  obtain ⟨left, text₂, hleft, h⟩ := exists_of_bind h
  obtain ⟨side, text₃, hside, h⟩ := exists_of_bind h
  obtain ⟨target, text₄, hhits, ⟨⟩⟩ := exists_of_bind h
  obtain ⟨flag, rfl, rfl⟩ := gives_flag.optional _ _ _ hflag
  obtain ⟨left, rfl, rfl⟩ := gives_leftSide _ _ _ _ hleft
  obtain ⟨side, rfl, rfl⟩ := gives_rightSide.optional _ _ _ hside
  obtain ⟨hits, rfl, rfl⟩ := gives_hits.optional _ _ _ hhits
  exact ⟨⟨flag, left, side, hits⟩, by simp [RowPhrase.text], rfl⟩

theorem gives_moreRows :
    Gives moreRows (List.flatMap RowPhrase.behindUnderscore) (List.map RowPhrase.row) := by
  intro input
  fun_induction Scanner.moreRows input with
  | case1 rest r rest' h rs rest'' hrec ih =>
    rintro rows left ⟨⟩
    obtain ⟨r, rfl, rfl⟩ := gives_row _ _ _ h
    obtain ⟨rs, rfl, rfl⟩ := ih _ _ hrec
    exact ⟨r :: rs, by simp [RowPhrase.behindUnderscore], rfl⟩
  | case2 rest r rest' h hfail ih =>
    intro rows left heq
    exact absurd heq (hfail rows left)
  | case3 =>
    -- An underscore without a row behind it is no part of the phrase.
    rintro rows left ⟨⟩
    exact ⟨[], rfl, rfl⟩
  | case4 => rintro rows left ⟨⟩
  | case5 =>
    rintro rows left ⟨⟩
    exact ⟨[], rfl, rfl⟩

theorem gives_group : Gives group GroupPhrase.text GroupPhrase.rows := by
  intro input rows rest h
  obtain ⟨r, text₁, hfirst, h⟩ := exists_of_bind h
  obtain ⟨rs, text₂, hmore, ⟨⟩⟩ := exists_of_bind h
  obtain ⟨r, rfl, rfl⟩ := gives_row _ _ _ hfirst
  obtain ⟨rs, rfl, rfl⟩ := gives_moreRows _ _ _ hmore
  exact ⟨⟨r, rs⟩, List.append_assoc _ _ _, rfl⟩

theorem gives_alternates :
    Gives alternates (List.flatMap AlternatePhrase.text) (List.map fun a => a.group.rows) := by
  intro input
  fun_induction Scanner.alternates input with
  | case1 =>
    rintro groups left ⟨⟩
    exact ⟨[], rfl, rfl⟩
  | case2 c rest hc rows rest' h more rest'' hrec ih =>
    rintro groups left ⟨⟩
    obtain ⟨g, rfl, rfl⟩ := gives_group.required.labelled _ _ _ _ h
    obtain ⟨as, rfl, rfl⟩ := ih _ _ hrec
    exact ⟨⟨⟨c, by simpa using hc⟩, g⟩ :: as, by simp [AlternatePhrase.text], rfl⟩
  | case3 c rest hc rows rest' h hfail ih =>
    intro groups left heq
    exact absurd heq (hfail groups left)
  | case4 => rintro groups left ⟨⟩
  | case5 => rintro groups left ⟨⟩
  | case6 =>
    rintro groups left ⟨⟩
    exact ⟨[], rfl, rfl⟩

/-- **Whatever is read is the text of a phrase**, and is read as what the phrase stands for. -/
theorem gives_trigger : Gives trigger TriggerPhrase.text TriggerPhrase.trigger := by
  intro input t rest h
  obtain ⟨core, text₁, hcore, h⟩ := exists_of_bind h
  obtain ⟨groups, text₂, halternates, ⟨⟩⟩ := exists_of_bind h
  obtain ⟨core, rfl, rfl⟩ := gives_group.optional _ _ _ hcore
  obtain ⟨alternates, rfl, rfl⟩ := gives_alternates _ _ _ halternates
  refine ⟨⟨core, alternates⟩, List.append_assoc _ _ _, ?_⟩
  rw [TriggerPhrase.trigger, List.isEmpty_map]

end Scanner

/-! ## Acceptance -/

namespace Trigger

theorem read_eq_ok_iff (text : String) (t : Trigger) :
    Trigger.read text = .ok t ↔ Scanner.trigger text.toList = .ok t [] := by
  unfold Trigger.read
  dsimp only
  split <;> simp_all

/-- **The reader accepts exactly the grammar.**  A text is read as a trigger if and only if it has a
derivation that stands for the trigger, and no text has two derivations. -/
theorem read_iff_derives :
    (∀ (text : String) (t : Trigger), Trigger.read text = .ok t ↔
      ∃ d : TriggerPhrase, d.text = text.toList ∧ d.trigger = t) ∧
    Function.Injective TriggerPhrase.text := by
  refine ⟨fun text t => ?_, TriggerPhrase.text_injective⟩
  rw [read_eq_ok_iff]
  constructor
  · intro h
    obtain ⟨d, htext, htrigger⟩ := gives_trigger _ _ _ h
    exact ⟨d, by simpa using htext, htrigger⟩
  · rintro ⟨d, htext, rfl⟩
    rw [← htext]
    exact trigger_text d

end Trigger

/-- `h1==01sr:D0xh1F<=-1(3)_a:0X20` -/
def TriggerPhrase.olderSpelling : TriggerPhrase :=
  let one : HexPhrase := ⟨[⟨'1', 1, by decide⟩], nofun, by decide⟩
  let watched : HexPhrase := ⟨[⟨'1', 1, by decide⟩, ⟨'F', 15, by decide⟩], nofun, by decide⟩
  let source : HexPhrase := ⟨[⟨'2', 2, by decide⟩, ⟨'0', 0, by decide⟩], nofun, by decide⟩
  let held : RowPhrase :=
    ⟨none, .hexadecimal ⟨'h', by decide⟩ one,
      some ⟨.doubleEqual, .decimal false ⟨['0', '1'], nofun, List.all_eq_true.mp rfl⟩
        ⟨by decide, by decide⟩⟩,
      none⟩
  let reset : RowPhrase :=
    ⟨some ⟨'r', .resetIf, by decide⟩,
      .read (some ⟨'D', .previous, by decide⟩) ⟨'x', by decide⟩ (some ⟨'h', .byte, by decide⟩) watched,
      some ⟨.lessEqual, .decimal true ⟨['1'], nofun, List.all_eq_true.mp rfl⟩ ⟨by decide, by decide⟩⟩,
      some ⟨('(', ')'), by decide, ⟨['3'], nofun, List.all_eq_true.mp rfl⟩, by decide⟩⟩
  let added : RowPhrase :=
    ⟨some ⟨'a', .addSource, by decide⟩, .read none ⟨'X', by decide⟩ none source, none, none⟩
  ⟨some ⟨held, []⟩, [⟨⟨'s', by decide⟩, ⟨reset, [added]⟩⟩]⟩

/-- The core stands for `1=1` and is dropped, the negative literal wraps, and the read without a size
letter is a word read; the derivation is the only one of its text. -/
theorem Trigger.read_iff_derives_olderSpelling :
    Trigger.read "h1==01sr:D0xh1F<=-1(3)_a:0X20" = .ok { alternates := [
      [{ left := ⟨.previous, .byte, 0x1F⟩, operator := .compare .le, right := .literal 0xFFFFFFFF,
         role := .resetIf, hits := 3 },
       Row.modifier .addSource (.memory .word 0x20)]] } ∧
    ∀ d : TriggerPhrase, d.text = "h1==01sr:D0xh1F<=-1(3)_a:0X20".toList →
      d = TriggerPhrase.olderSpelling := by
  have htext : TriggerPhrase.olderSpelling.text = "h1==01sr:D0xh1F<=-1(3)_a:0X20".toList := by decide
  refine ⟨(read_iff_derives.1 _ _).mpr ⟨TriggerPhrase.olderSpelling, htext, by decide⟩, ?_⟩
  exact fun d hd => read_iff_derives.2 (hd.trans htext.symm)

end MemoryTrigger

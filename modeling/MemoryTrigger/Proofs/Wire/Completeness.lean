import MemoryTrigger.Proofs.Wire.Grammar
import MemoryTrigger.Proofs.Wire.Scanners
import MemoryTrigger.Wire.Conversion

/-! # Every phrase is read

Scanners take as much as they can, and a commitment is never taken back.  Neither does harm: where a
phrase may end comes a character that could not have belonged to it, and what commits the reader to
one rule of the grammar begins no phrase by another.  A scanner therefore takes the whole phrase off a
text and nothing else, and gives what the phrase stands for (`Scanner.Takes`), from numerals up to
triggers (`Scanner.trigger_text`). -/
namespace MemoryTrigger

/-! ## Letters -/

/-- What holds of so many characters from one on holds of every character in that range. -/
theorem forall_between {P : Char → Prop} (first count : Nat)
    (hP : ∀ k : Fin count, P (Char.ofNat (first + k))) {c : Char} (hfirst : first ≤ c.toNat)
    (hlast : c.toNat < first + count) : P c := by
  have hc : Char.ofNat (first + (c.toNat - first)) = c := by
    rw [Nat.add_sub_cancel' hfirst, Char.ofNat_toNat]
  rw [← hc]
  exact hP ⟨c.toNat - first, by omega⟩

/-- What holds of the ten digits holds of every character that is one. -/
theorem forall_digit {P : Char → Prop} (hP : ∀ d : Fin 10, P (Char.ofNat (48 + d))) {c : Char}
    (h : c.isDigit = true) : P c := by
  rw [Char.isDigit, Bool.and_eq_true, decide_eq_true_iff, decide_eq_true_iff] at h
  exact forall_between 48 10 hP h.1 (Nat.lt_succ_of_le h.2)

theorem eq_toUpper_or (c : Char) : c = c.toUpper ∨ c = c.toUpper.toLower := by
  by_cases h : 'a'.val ≤ c.val ∧ c.val ≤ 'z'.val
  · exact .inr (forall_between 97 26 (P := fun c => c = c.toUpper.toLower) (by decide) h.1
      (Nat.lt_succ_of_le h.2))
  · have hsame : c.toUpper = c := dif_neg h
    exact .inl hsame.symm

theorem eq_toLower_or (c : Char) : c = c.toLower ∨ c = c.toLower.toUpper := by
  by_cases h : 'A'.val ≤ c.val ∧ c.val ≤ 'Z'.val
  · exact .inr (forall_between 65 26 (P := fun c => c = c.toLower.toUpper) (by decide) h.1
      (Nat.lt_succ_of_le h.2))
  · have hsame : c.toLower = c := dif_neg h
    exact .inl hsame.symm

section Spells
variable {α : Type} {f : Char → Option α} {table : List (Char × α)}

theorem mem_inEitherCase_of_toUpper {c : Char} {a : α} (h : (c.toUpper, a) ∈ table) :
    (c, a) ∈ inEitherCase table := by
  rcases eq_toUpper_or c with hc | hc
  · rw [← hc] at h
    exact List.mem_append_left _ h
  · refine List.mem_append_right _ (List.mem_map.mpr ⟨_, h, ?_⟩)
    rw [← hc]

/-- The function gives a meaning to the letters of the table, in either case, and to no others. -/
def Spells (f : Char → Option α) (table : List (Char × α)) : Prop :=
  ∀ c a, f c = some a ↔ (c, a) ∈ inEitherCase table

theorem Spells.of_entries (hentries : ∀ entry ∈ inEitherCase table, f entry.1 = some entry.2)
    (hlisted : ∀ c a, f c = some a → (c, a) ∈ inEitherCase table) : Spells f table :=
  fun c a => ⟨hlisted c a, fun h => hentries _ h⟩

theorem Spells.char_injective (hf : Spells f table) :
    Function.Injective (Letter.char : Letter table → Char) := by
  rintro ⟨c, a, ha⟩ ⟨c', a', ha'⟩ (rfl : c = c')
  obtain rfl : a = a' := Option.some.inj (((hf c a).mpr ha).symm.trans ((hf c a').mpr ha'))
  rfl

end Spells

theorem Role.spells_ofFlag? : Spells Role.ofFlag? Role.flags := by
  refine .of_entries (by decide) fun c role h => ?_
  obtain ⟨entry, hfind, rfl⟩ := Option.map_eq_some_iff.mp h
  have hkey : entry.1 = c.toUpper := by simpa using List.find?_some hfind
  refine mem_inEitherCase_of_toUpper ?_
  rw [← hkey]
  exact List.mem_of_find?_eq_some hfind

theorem Size.spells_ofLetter? : Spells Size.ofLetter? Size.letters := by
  refine .of_entries (by decide) fun c size h => ?_
  have hkey : size.letter = c.toUpper := by simpa using List.find?_some h
  refine mem_inEitherCase_of_toUpper (List.mem_map.mpr ⟨size, List.mem_of_find?_eq_some h, ?_⟩)
  rw [hkey]

theorem OperandKind.spells_ofMark? : Spells OperandKind.ofMark? OperandKind.marks := by
  refine .of_entries (by decide) fun c kind h => ?_
  unfold ofMark? at h
  rcases eq_toLower_or c with hc | hc <;> split at h <;> cases h <;>
    rename_i hlower <;> rw [hc, hlower] <;> decide

theorem spells_hexDigit? : Spells Scanner.hexDigit? hexDigits := by
  refine .of_entries (by decide) fun c d h => ?_
  unfold Scanner.hexDigit? at h
  split at h
  · rename_i hc
    cases h
    exact forall_between 48 10 (P := fun c => (c, c.toNat - 48) ∈ inEitherCase hexDigits)
      (by decide) hc.1 (Nat.lt_succ_of_le hc.2)
  split at h
  · rename_i hc
    cases h
    exact forall_between 97 6 (P := fun c => (c, c.toNat - 97 + 10) ∈ inEitherCase hexDigits)
      (by decide) hc.1 (Nat.lt_succ_of_le hc.2)
  split at h
  · rename_i hc
    cases h
    exact forall_between 65 6 (P := fun c => (c, c.toNat - 65 + 10) ∈ inEitherCase hexDigits)
      (by decide) hc.1 (Nat.lt_succ_of_le hc.2)
  · cases h

theorem DecimalPhrase.exists_cons (n : DecimalPhrase) :
    ∃ c cs, n.text = c :: cs ∧ c.isDigit = true ∧ ∀ d ∈ cs, d.isDigit = true := by
  obtain ⟨c, cs, hcons⟩ := List.exists_cons_of_ne_nil n.ne_nil
  obtain ⟨hc, hcs⟩ := List.forall_mem_cons.mp (hcons ▸ n.isDigit)
  exact ⟨c, cs, hcons, hc, hcs⟩

theorem HexPhrase.head?_text (n : HexPhrase) (rest : List Char) :
    ∀ c ∈ (n.text ++ rest).head?, ∃ d, (c, d) ∈ inEitherCase hexDigits := by
  obtain ⟨digit, digits, hcons⟩ := List.exists_cons_of_ne_nil n.ne_nil
  rw [HexPhrase.text, hcons]
  rintro c ⟨⟩
  exact ⟨digit.value, digit.listed⟩

namespace Scanner

/-! ## Taking phrases -/

section Takes
variable {α σ : Type} {p : Scanner α} {text : σ → List Char} {value : σ → α}
  {follow : List Char → Prop}

/-- The scanner takes every phrase off a text where what is left may follow it, and gives what the
phrase stands for. -/
def Takes (p : Scanner α) (text : σ → List Char) (value : σ → α) (follow : List Char → Prop) :
    Prop :=
  ∀ d rest, follow rest → p (text d ++ rest) = .ok (value d) rest

namespace Takes

theorem required (h : Takes p text value follow) : Takes p.required text value follow :=
  fun d rest hrest => required_of_ok (h d rest hrest)

theorem labelled (label : String) (h : Takes p text value follow) :
    Takes (p.labelled label) text value follow :=
  fun d rest hrest => labelled_of_ok label (h d rest hrest)

/-- A phrase may be left out where what follows is not taken for one. -/
theorem optional (h : Takes p text value follow) (hnone : ∀ rest, follow rest → Refuses p rest) :
    Takes p.optional (optionalText text) (Option.map value) follow := by
  rintro (_ | d) rest hrest
  · exact optional_of_refuses (hnone rest hrest)
  · exact optional_of_ok (h d rest hrest)

theorem letter {f : Char → Option α} {table : List (Char × α)} (hf : Spells f table) :
    Takes (Scanner.letter f) (fun l : Letter table => [l.char]) Letter.value follow :=
  fun l _ _ => letter_cons ((hf _ _).mpr l.listed)

end Takes
end Takes

/-! ## Numerals -/

theorem takes_digits :
    Takes digits DecimalPhrase.text DecimalPhrase.text fun rest =>
      ∀ c ∈ rest.head?, c.isDigit = false :=
  fun n _ hrest => digits_append n.ne_nil n.isDigit hrest

theorem word_text {n : DecimalPhrase} (hfits : n.value < UInt32.size) {rest : List Char}
    (hrest : ∀ c ∈ rest.head?, c.isDigit = false) :
    word (n.text ++ rest) = .ok n.value.toUInt32 rest := by
  rw [word, takes_digits n rest hrest]
  exact if_pos hfits

/-- Hexadecimal digits are taken off, and then what the limit leaves of those behind them. -/
theorem takeHex_append {limit : Nat} {ds : List (Letter hexDigits)} (hlength : ds.length ≤ limit)
    (rest : List Char) :
    takeHex limit (ds.map Letter.char ++ rest) =
      (ds.map Letter.value ++ (takeHex (limit - ds.length) rest).1,
        (takeHex (limit - ds.length) rest).2) := by
  induction ds generalizing limit with
  | nil => rfl
  | cons d ds ih =>
    cases limit with
    | zero => simp at hlength
    | succ limit =>
      rw [List.map_cons, List.cons_append, takeHex, (spells_hexDigit? _ _).mpr d.listed]
      simp [ih (by simpa using hlength)]

theorem takeHex_of_no_digit (limit : Nat) {rest : List Char}
    (hrest : ∀ c ∈ rest.head?, hexDigit? c = none) : takeHex limit rest = ([], rest) := by
  cases limit with
  | zero => simp [takeHex]
  | succ limit =>
    cases rest with
    | nil => simp [takeHex]
    | cons c rest => simp [takeHex, hrest c rfl]

theorem takes_hexWord :
    Takes hexWord HexPhrase.text HexPhrase.value fun rest =>
      ∀ c ∈ rest.head?, hexDigit? c = none := by
  intro n rest hrest
  rw [hexWord, HexPhrase.text, takeHex_append n.length_le, takeHex_of_no_digit _ hrest,
    List.append_nil]
  split
  · rename_i hnil
    exact absurd (List.map_eq_nil_iff.mp (congrArg Prod.fst hnil)) n.ne_nil
  · rename_i heq
    cases heq
    rfl

/-! ## Operands -/

/-- What can follow an operand, a right side, a row and a group. -/
def operandEnds : List Char := ['=', '!', '<', '>', '*', '/', '&', '.', '(', '_', 'S', 's']

def sideEnds : List Char := ['.', '(', '_', 'S', 's']

def rowEnds : List Char := ['_', 'S', 's']

def groupEnds : List Char := ['S', 's']

/-- No digit of either base and no `x` can follow an operand. -/
theorem GoesOn.operandEnds {rest : List Char} (h : GoesOn operandEnds rest) :
    ∀ c ∈ rest.head?, c.isDigit = false ∧ hexDigit? c = none ∧ c ∉ ['x', 'X'] := by
  have hends : ∀ c ∈ Scanner.operandEnds,
      c.isDigit = false ∧ hexDigit? c = none ∧ c ∉ ['x', 'X'] := by
    simp only [Scanner.operandEnds, List.forall_mem_cons, List.not_mem_nil, false_implies,
      implies_true, and_true]
    decide
  exact fun c hc => hends c (h c hc)

theorem takes_mark :
    Takes (letter OperandKind.ofMark?).optional
      (optionalText fun m : Letter OperandKind.marks => [m.char]) (Option.map Letter.value)
      fun rest => ∃ text, rest = '0' :: text := by
  refine (Takes.letter OperandKind.spells_ofMark?).optional ?_
  rintro _ ⟨text, rfl⟩
  exact refuses_letter_cons rfl

/-- No hexadecimal digit is taken for a size. -/
theorem takes_size :
    Takes (letter Size.ofLetter?).optional
      (optionalText fun s : Letter Size.letters => [s.char]) (Option.map Letter.value)
      fun rest => ∀ c ∈ rest.head?, ∃ d, (c, d) ∈ inEitherCase hexDigits := by
  have hdigits : ∀ entry ∈ inEitherCase hexDigits, Size.ofLetter? entry.1 = none := by decide
  refine (Takes.letter Size.spells_ofLetter?).optional fun rest hrest => ?_
  refine refuses_letter fun c hc => ?_
  obtain ⟨d, hd⟩ := hrest c hc
  exact hdigits _ hd

theorem memory_read (mark : Option (Letter OperandKind.marks)) (x : OneOf ['x', 'X'])
    (size : Option (Letter Size.letters)) (address : HexPhrase) {rest : List Char}
    (hrest : GoesOn operandEnds rest) :
    memory ((OperandPhrase.read mark x size address).text ++ rest) =
      .ok (OperandPhrase.read mark x size address).operand rest := by
  have haddress := takes_hexWord.required.labelled "hex address" address rest
    fun c hc => (hrest.operandEnds c hc).2.1
  have hsize := takes_size size (address.text ++ rest) (address.head?_text rest)
  rw [OperandPhrase.text, List.append_assoc, List.cons_append, List.cons_append, List.append_assoc,
    memory, bind_of_ok (takes_mark mark _ ⟨_, rfl⟩),
    bind_of_ok (oneOf_cons (List.mem_singleton_self '0')), bind_of_ok (oneOf_cons x.property),
    bind_of_ok hsize, bind_of_ok haddress]
  rfl

/-- A read begins with a mark or a zero. -/
theorem refuses_memory_cons {c : Char} (hmark : OperandKind.ofMark? c = none) (hzero : c ∉ ['0'])
    (rest : List Char) : Refuses memory (c :: rest) :=
  .bind_of_ok (optional_of_refuses (refuses_letter_cons hmark)) (.bind (refuses_oneOf_cons hzero))

/-- Digits are not taken for a read: behind a zero comes another digit or the end. -/
theorem refuses_memory_digits (n : DecimalPhrase) {rest : List Char}
    (hrest : ∀ c ∈ rest.head?, c ∉ ['x', 'X']) : Refuses memory (n.text ++ rest) := by
  obtain ⟨c, ds, hcons, hc, hds⟩ := n.exists_cons
  have hmark : OperandKind.ofMark? c = none :=
    forall_digit (P := fun c => OperandKind.ofMark? c = none) (by decide) hc
  rw [hcons, List.cons_append]
  -- A zero could begin a `0x`, and then it is the next character that tells.
  by_cases hzero : c ∈ ['0']
  · refine .bind_of_ok (optional_of_refuses (refuses_letter_cons hmark)) ?_
    refine .bind_of_ok (oneOf_cons hzero) (.bind (refuses_oneOf ?_))
    cases ds with
    | nil => exact hrest
    | cons d ds =>
      rintro _ ⟨⟩
      exact forall_digit (P := (· ∉ ['x', 'X'])) (by decide) (hds d List.mem_cons_self)
  · exact refuses_memory_cons hmark hzero _

theorem hexLiteral_hexadecimal (h : OneOf ['h', 'H']) (value : HexPhrase) {rest : List Char}
    (hrest : GoesOn operandEnds rest) :
    hexLiteral ((OperandPhrase.hexadecimal h value).text ++ rest) =
      .ok (OperandPhrase.hexadecimal h value).operand rest := by
  have hvalue := takes_hexWord.required value rest fun c hc => (hrest.operandEnds c hc).2.1
  rw [OperandPhrase.text, List.cons_append, hexLiteral, bind_of_ok (oneOf_cons h.property),
    bind_of_ok hvalue]
  rfl

/-- A minus sign is found in front of digits, or none where there is none. -/
theorem optional_minus (minus : Bool) (n : DecimalPhrase) (rest : List Char) :
    ∃ found : Option Char, signedValue found n.text = n.signed minus ∧
      (oneOf ['-']).optional ((if minus then '-' :: n.text else n.text) ++ rest) =
        .ok found (n.text ++ rest) := by
  cases minus with
  | true =>
    exact ⟨some '-', rfl, optional_of_ok (oneOf_cons (List.mem_singleton_self '-'))⟩
  | false =>
    obtain ⟨c, ds, hcons, hc, -⟩ := n.exists_cons
    refine ⟨none, rfl, optional_of_refuses ?_⟩
    rw [if_neg Bool.false_ne_true, hcons, List.cons_append]
    exact refuses_oneOf_cons (forall_digit (P := (· ∉ ['-'])) (by decide) hc)

theorem decimalLiteral_decimal (minus : Bool) (n : DecimalPhrase) (hrange : n.IsLiteral minus)
    {rest : List Char} (hrest : GoesOn operandEnds rest) :
    decimalLiteral ((OperandPhrase.decimal minus n hrange).text ++ rest) =
      .ok (OperandPhrase.decimal minus n hrange).operand rest := by
  obtain ⟨found, hvalue, hminus⟩ := optional_minus minus n rest
  have hdigits := takes_digits n rest fun c hc => (hrest.operandEnds c hc).1
  rw [OperandPhrase.text, decimalLiteral, bind_of_ok hminus, bind_of_ok hdigits, hvalue]
  exact if_pos hrange

theorem refuses_memory_hexadecimal (h : OneOf ['h', 'H']) (value : HexPhrase)
    (rest : List Char) : Refuses memory ((OperandPhrase.hexadecimal h value).text ++ rest) := by
  obtain ⟨c, hc⟩ := h
  have hcases : c = 'h' ∨ c = 'H' := by simpa using hc
  rcases hcases with rfl | rfl
  · exact refuses_memory_cons (c := 'h') rfl (by decide) _
  · exact refuses_memory_cons (c := 'H') rfl (by decide) _

theorem refuses_memory_decimal (minus : Bool) (n : DecimalPhrase) (hrange : n.IsLiteral minus)
    {rest : List Char} (hrest : GoesOn operandEnds rest) :
    Refuses memory ((OperandPhrase.decimal minus n hrange).text ++ rest) := by
  cases minus with
  | true => exact refuses_memory_cons rfl (by decide) _
  | false => exact refuses_memory_digits n fun c hc => (hrest.operandEnds c hc).2.2

theorem refuses_hexLiteral_decimal (minus : Bool) (n : DecimalPhrase) (hrange : n.IsLiteral minus)
    (rest : List Char) :
    Refuses hexLiteral ((OperandPhrase.decimal minus n hrange).text ++ rest) := by
  cases minus with
  | true => exact .bind (refuses_oneOf_cons (by decide))
  | false =>
    obtain ⟨c, ds, hcons, hc, -⟩ := n.exists_cons
    rw [OperandPhrase.text, if_neg Bool.false_ne_true, hcons]
    exact .bind (refuses_oneOf_cons (forall_digit (P := (· ∉ ['h', 'H'])) (by decide) hc))

/-- **An operand is read** in front of anything that can follow it. -/
theorem takes_operand :
    Takes operand OperandPhrase.text OperandPhrase.operand (GoesOn operandEnds) := by
  intro d rest hrest
  refine labelled_of_ok _ ?_
  cases d with
  | read mark x size address => exact or_of_ok (memory_read mark x size address hrest)
  | hexadecimal h value =>
    rw [or_of_refuses (refuses_memory_hexadecimal h value rest)]
    exact or_of_ok (hexLiteral_hexadecimal h value hrest)
  | decimal minus n hrange =>
    rw [or_of_refuses (refuses_memory_decimal minus n hrange hrest),
      or_of_refuses (refuses_hexLiteral_decimal minus n hrange rest)]
    exact decimalLiteral_decimal minus n hrange hrest

theorem takes_leftSide (flagged : Bool) :
    Takes (leftSide flagged) OperandPhrase.text OperandPhrase.operand (GoesOn operandEnds) := by
  cases flagged
  · exact takes_operand
  · exact takes_operand.required

/-! ## Rows -/

/-- An operand begins with no equals sign, and where it begins with a flag letter, that is the mark
of a read, with a zero behind it. -/
theorem exists_operandStart (d : OperandPhrase) :
    ∃ c cs, d.text = c :: cs ∧ c ∉ ['='] ∧
      (Role.ofFlag? c = none ∨ ∃ cs', cs = '0' :: cs') := by
  cases d with
  | read mark x size address =>
    cases mark with
    | none => exact ⟨'0', _, rfl, by decide, .inl rfl⟩
    | some m =>
      have hmarks : ∀ entry ∈ inEitherCase OperandKind.marks, entry.1 ∉ ['='] := by decide
      exact ⟨m.char, _, rfl, hmarks _ m.listed, .inr ⟨_, rfl⟩⟩
  | hexadecimal h value =>
    have hcases : h.val = 'h' ∨ h.val = 'H' := by simpa using h.property
    refine ⟨h.val, _, rfl, ?_⟩
    rcases hcases with hc | hc <;> rw [hc] <;> exact ⟨by decide, .inl rfl⟩
  | decimal minus n hrange =>
    cases minus with
    | true => exact ⟨'-', _, rfl, by decide, .inl rfl⟩
    | false =>
      obtain ⟨c, ds, hcons, hc, -⟩ := n.exists_cons
      exact ⟨c, ds, hcons, forall_digit (P := (· ∉ ['='])) (by decide) hc,
        .inl (forall_digit (P := fun c => Role.ofFlag? c = none) (by decide) hc)⟩

theorem head?_operandText (d : OperandPhrase) (rest : List Char) :
    ∀ c ∈ (d.text ++ rest).head?, c ∉ ['='] := by
  obtain ⟨c, cs, hcons, hc, -⟩ := exists_operandStart d
  rw [hcons]
  rintro _ ⟨⟩
  exact hc

/-- An operand is not taken for a flag: no mark has a colon behind it. -/
theorem refuses_flag (d : OperandPhrase) (rest : List Char) : Refuses flag (d.text ++ rest) := by
  obtain ⟨c, cs, hcons, -, hstart⟩ := exists_operandStart d
  rw [hcons, List.cons_append]
  cases hflag : Role.ofFlag? c with
  | none => exact .bind (refuses_letter_cons hflag)
  | some role =>
    obtain ⟨cs, rfl⟩ := hstart.resolve_left (by simp [hflag])
    exact .bind_of_ok (letter_cons hflag) (.bind (refuses_oneOf_cons (by decide)))

theorem takes_flag :
    Takes flag.optional (optionalText fun f : Letter Role.flags => [f.char, ':'])
      (Option.map Letter.value) fun rest => ∃ (d : OperandPhrase) (text : List Char),
        rest = d.text ++ text := by
  refine Takes.optional (fun f rest _ => ?_) ?_
  · exact (bind_of_ok (letter_cons ((Role.spells_ofFlag? _ _).mpr f.listed))).trans
      (bind_of_ok (oneOf_cons (List.mem_singleton_self ':')))
  · rintro _ ⟨d, text, rfl⟩
    exact refuses_flag d text

theorem relationOr_alone {first second : Char} (both alone : Relation) {rest : List Char}
    (h : Refuses (oneOf [second]) rest) :
    relationOr first second both alone (first :: rest) = .ok (.compare alone) rest := by
  rw [relationOr, bind_of_ok (oneOf_cons (List.mem_singleton_self first)),
    bind_of_ok (optional_of_refuses h)]
  rfl

theorem refuses_relationOr {first second : Char} {both alone : Relation} {c : Char}
    (h : c ∉ [first]) (rest : List Char) :
    Refuses (relationOr first second both alone) (c :: rest) :=
  .bind (refuses_oneOf_cons h)

/-- An operator is read whole where no equals sign follows. -/
theorem takes_operator :
    Takes operator OperatorPhrase.text OperatorPhrase.operator fun rest =>
      ∀ c ∈ rest.head?, c ∉ ['='] := by
  intro op rest hrest
  have hequal : Refuses (oneOf ['=']) rest := refuses_oneOf hrest
  have hnotEqual {c : Char} (hc : c ∉ ['!']) : Refuses notEqual (c :: rest) :=
    .bind (refuses_oneOf_cons hc)
  -- Only a symbol that another one begins with needs to know what follows it.
  cases op with
  | equal => exact or_of_ok (relationOr_alone _ _ hequal)
  | less =>
    change operator ('<' :: rest) = _
    rw [operator, or_of_refuses (refuses_relationOr (by decide) _),
      or_of_refuses (hnotEqual (by decide)), or_of_ok (relationOr_alone _ _ hequal)]
    rfl
  | greater =>
    change operator ('>' :: rest) = _
    rw [operator, or_of_refuses (refuses_relationOr (by decide) _),
      or_of_refuses (hnotEqual (by decide)), or_of_refuses (refuses_relationOr (by decide) _),
      or_of_ok (relationOr_alone _ _ hequal)]
    rfl
  | _ => rfl

theorem takes_rightSide :
    Takes rightSide SidePhrase.text SidePhrase.side (GoesOn operandEnds) := by
  intro s rest hrest
  rw [SidePhrase.text, List.append_assoc, rightSide,
    bind_of_ok (takes_operator _ _ (head?_operandText s.right rest)),
    bind_of_ok (takes_operand.required _ _ hrest)]
  rfl

theorem refuses_operator {rest : List Char} (h : GoesOn sideEnds rest) : Refuses operator rest := by
  cases rest with
  | nil => exact ⟨_, _, rfl⟩
  | cons c rest =>
    have hc : c = '.' ∨ c = '(' ∨ c = '_' ∨ c = 'S' ∨ c = 's' := by
      simpa [sideEnds] using h c rfl
    rcases hc with rfl | rfl | rfl | rfl | rfl <;> exact ⟨_, _, rfl⟩

theorem takes_side :
    Takes rightSide.optional (optionalText SidePhrase.text) (Option.map SidePhrase.side)
      (GoesOn sideEnds) :=
  Takes.optional (fun s rest hrest => takes_rightSide s rest (hrest.mono (by decide)))
    fun _ hrest => .bind (refuses_operator hrest)

theorem hitsBetween_text (start stop : Char) {n : DecimalPhrase} (hfits : n.value < UInt32.size)
    (hstop : stop.isDigit = false) (rest : List Char) :
    hitsBetween start stop (start :: (n.text ++ stop :: rest)) = .ok n.value.toUInt32 rest := by
  have hend : ∀ c ∈ (stop :: rest).head?, c.isDigit = false := by
    rintro c ⟨⟩
    exact hstop
  rw [hitsBetween, bind_of_ok (oneOf_cons (List.mem_singleton_self start)),
    bind_of_ok (required_of_ok (word_text hfits hend)),
    bind_of_ok (required_of_ok (oneOf_cons (List.mem_singleton_self stop)))]
  rfl

theorem refuses_hits {rest : List Char} (h : GoesOn rowEnds rest) : Refuses hits rest := by
  cases rest with
  | nil => exact ⟨_, _, rfl⟩
  | cons c rest =>
    have hc : c = '_' ∨ c = 'S' ∨ c = 's' := by simpa [rowEnds] using h c rfl
    rcases hc with rfl | rfl | rfl <;> exact ⟨_, _, rfl⟩

/-- A hit target has its end within itself, so that anything may follow it. -/
theorem hits_text (h : HitsPhrase) (rest : List Char) : hits (h.text ++ rest) = .ok h.hits rest := by
  obtain ⟨brackets, hlisted, n, hfits⟩ := h
  refine labelled_of_ok _ ?_
  have hcases : brackets = ('.', '.') ∨ brackets = ('(', ')') := by simpa using hlisted
  rcases hcases with rfl | rfl
  · refine or_of_ok ?_
    simpa [HitsPhrase.text, HitsPhrase.hits] using hitsBetween_text '.' '.' hfits (by decide) rest
  · rw [or_of_refuses]
    · simpa [HitsPhrase.text, HitsPhrase.hits] using hitsBetween_text '(' ')' hfits (by decide) rest
    · exact .bind (refuses_oneOf_cons (c := '(') (by decide))

theorem takes_hits :
    Takes hits.optional (optionalText HitsPhrase.text) (Option.map HitsPhrase.hits)
      (GoesOn rowEnds) :=
  Takes.optional (fun h rest _ => hits_text h rest) fun _ hrest => refuses_hits hrest

theorem goesOn_hits (h : HitsPhrase) (rest : List Char) : GoesOn sideEnds (h.text ++ rest) := by
  have hcases : h.brackets = ('.', '.') ∨ h.brackets = ('(', ')') := by simpa using h.listed
  refine goesOn_cons ?_
  rcases hcases with hc | hc <;> rw [hc] <;> decide

theorem goesOn_side (s : SidePhrase) (rest : List Char) : GoesOn operandEnds (s.text ++ rest) := by
  obtain ⟨op, right⟩ := s
  cases op <;> exact goesOn_cons (by decide)

theorem goesOn_hitsText (o : Option HitsPhrase) {rest : List Char} (h : GoesOn rowEnds rest) :
    GoesOn sideEnds (optionalText HitsPhrase.text o ++ rest) := by
  cases o with
  | none => exact h.mono (by decide)
  | some hits => exact goesOn_hits hits rest

theorem goesOn_sideText (o : Option SidePhrase) {rest : List Char} (h : GoesOn sideEnds rest) :
    GoesOn operandEnds (optionalText SidePhrase.text o ++ rest) := by
  cases o with
  | none => exact h.mono (by decide)
  | some side => exact goesOn_side side rest

/-- **A row is read** in front of anything that can follow it. -/
theorem takes_row : Takes row RowPhrase.text RowPhrase.row (GoesOn rowEnds) := by
  intro r rest hrest
  have hside := goesOn_hitsText r.hits hrest
  have hleft (flagged : Bool) := takes_leftSide flagged r.left _ (goesOn_sideText r.side hside)
  rw [RowPhrase.text, List.append_assoc, List.append_assoc, List.append_assoc, row,
    bind_of_ok (takes_flag r.flag _ ⟨_, _, rfl⟩), bind_of_ok (hleft _),
    bind_of_ok (takes_side r.side _ hside), bind_of_ok (takes_hits r.hits _ hrest)]
  rfl

/-! ## Triggers -/

theorem goesOn_moreText (rs : List RowPhrase) {rest : List Char} (h : GoesOn groupEnds rest) :
    GoesOn rowEnds (rs.flatMap RowPhrase.behindUnderscore ++ rest) := by
  cases rs with
  | nil => exact h.mono (by decide)
  | cons r rs => exact goesOn_cons (by decide)

theorem takes_moreRows :
    Takes moreRows (List.flatMap RowPhrase.behindUnderscore) (List.map RowPhrase.row)
      (GoesOn groupEnds) := by
  intro rs rest hrest
  induction rs with
  | nil =>
    cases rest with
    | nil => simp [moreRows]
    | cons c rest =>
      have hc : c = 'S' ∨ c = 's' := by simpa [groupEnds] using hrest c rfl
      rcases hc with rfl | rfl <;> simp [moreRows]
  | cons r rs ih =>
    have hrow := takes_row r _ (goesOn_moreText rs hrest)
    rw [List.flatMap_cons, RowPhrase.behindUnderscore, List.append_assoc, List.cons_append, moreRows]
    split <;> rename_i hfound <;> rw [hrow] at hfound <;> cases hfound
    rw [ih]
    rfl

/-- **A group is read** in front of another or at the end. -/
theorem takes_group : Takes group GroupPhrase.text GroupPhrase.rows (GoesOn groupEnds) := by
  intro g rest hrest
  rw [GroupPhrase.text, List.append_assoc, group,
    bind_of_ok (takes_row g.first _ (goesOn_moreText g.more hrest)),
    bind_of_ok (takes_moreRows g.more rest hrest)]
  rfl

theorem goesOn_alternatesText (as : List AlternatePhrase) :
    GoesOn groupEnds (as.flatMap AlternatePhrase.text) := by
  cases as with
  | nil => exact .nil _
  | cons a as => exact goesOn_cons a.mark.property

theorem takes_alternates :
    Takes alternates (List.flatMap AlternatePhrase.text)
      (List.map fun a => a.group.rows) (· = []) := by
  rintro as _ rfl
  induction as with
  | nil => rw [List.flatMap_nil, List.nil_append, alternates, List.map_nil]
  | cons a as ih =>
    have hmark : a.mark.val = 'S' ∨ a.mark.val = 's' := by simpa using a.mark.property
    have hgroup : alternate (a.group.text ++ as.flatMap AlternatePhrase.text) =
        .ok a.group.rows (as.flatMap AlternatePhrase.text) :=
      takes_group.required.labelled _ a.group _ (goesOn_alternatesText as)
    rw [List.append_nil] at ih
    rw [List.append_nil, List.flatMap_cons, AlternatePhrase.text, List.cons_append, alternates,
      if_pos hmark]
    split <;> rename_i hfound <;> rw [hgroup] at hfound <;> cases hfound
    rw [ih]
    rfl

theorem refuses_group {rest : List Char} (h : GoesOn groupEnds rest) : Refuses group rest := by
  cases rest with
  | nil => exact .bind ⟨_, _, rfl⟩
  | cons c rest =>
    have hc : c = 'S' ∨ c = 's' := by simpa [groupEnds] using h c rfl
    rcases hc with rfl | rfl <;> exact .bind ⟨_, _, rfl⟩

theorem takes_core :
    Takes group.optional (optionalText GroupPhrase.text) (Option.map GroupPhrase.rows)
      (GoesOn groupEnds) :=
  takes_group.optional fun _ hrest => refuses_group hrest

/-- **The text of every phrase is read**, to its end and as what the phrase stands for. -/
theorem trigger_text (t : TriggerPhrase) : trigger t.text = .ok t.trigger [] := by
  have halternates := takes_alternates t.alternates [] rfl
  rw [List.append_nil] at halternates
  rw [TriggerPhrase.text, trigger, bind_of_ok (takes_core t.core _ (goesOn_alternatesText _)),
    bind_of_ok halternates, TriggerPhrase.trigger, List.isEmpty_map]
  rfl

end Scanner
end MemoryTrigger

/-! # Scanners

A scanner takes a value off the front of a text.  It ends in one of three ways: with a value and the
rest of the text; with a failure from which the caller may go on by another way; or with a fatal
failure, which ends the reading.  Failures keep the text that was left where they arose, and say what
was expected there, so that the position of a mistake is known from what remains. -/
namespace MemoryTrigger

/-- What a scanner expected where it failed: labels from the inside out, and whether a numeral was
there that was too large. -/
structure Expectation where
  labels : List String := []
  tooLarge : Bool := false
  deriving DecidableEq, Repr

/-- How a scanner ended, and what is left of the text. -/
inductive Outcome (α : Type) where
  | ok (value : α) (rest : List Char)
  /-- The caller may try another way. -/
  | retry (expected : Expectation) (rest : List Char)
  /-- Reading ends here. -/
  | fatal (expected : Expectation) (rest : List Char)
  deriving Repr

/-- What is left of the text. -/
def Outcome.rest {α : Type} : Outcome α → List Char
  | ok _ rest => rest
  | retry _ rest => rest
  | fatal _ rest => rest

/-- Takes a value off the front of a text. -/
def Scanner (α : Type) : Type := List Char → Outcome α

namespace Scanner
variable {α β : Type}

/-- One scanner after another. -/
protected def bind (p : Scanner α) (f : α → Scanner β) : Scanner β := fun text =>
  match p text with
  | .ok a rest => f a rest
  | .retry expected rest => .retry expected rest
  | .fatal expected rest => .fatal expected rest

instance : Monad Scanner where
  pure a := fun text => .ok a text
  bind := Scanner.bind

/-- The second scanner on the same text where the first one failed for retry. -/
def or (p q : Scanner α) : Scanner α := fun text =>
  match p text with
  | .retry _ _ => q text
  | outcome => outcome

/-- `none`, with nothing taken, where the scanner failed for retry. -/
def optional (p : Scanner α) : Scanner (Option α) := fun text =>
  match p text with
  | .ok a rest => .ok (some a) rest
  | .retry _ _ => .ok none text
  | .fatal expected rest => .fatal expected rest

/-- Every failure becomes fatal. -/
def required (p : Scanner α) : Scanner α := fun text =>
  match p text with
  | .retry expected rest => .fatal expected rest
  | outcome => outcome

/-- Failures say that `label` was expected. -/
def labelled (label : String) (p : Scanner α) : Scanner α := fun text =>
  match p text with
  | .ok a rest => .ok a rest
  | .retry e rest => .retry { e with labels := e.labels ++ [label] } rest
  | .fatal e rest => .fatal { e with labels := e.labels ++ [label] } rest

/-- One character that `f` gives a meaning to. -/
def letter (f : Char → Option α) : Scanner α
  | [] => .retry {} []
  | c :: rest =>
      match f c with
      | some a => .ok a rest
      | none => .retry {} (c :: rest)

/-- One of the given characters. -/
def oneOf (cs : List Char) : Scanner Char :=
  letter fun c => if c ∈ cs then some c else none

/-- Decimal digits, at least one. -/
def digits : Scanner (List Char) := fun text =>
  match text.takeWhile Char.isDigit with
  | [] => .retry {} text
  | ds => .ok ds (text.dropWhile Char.isDigit)

/-- A decimal numeral of a 32-bit value.  A numeral that is too large is not taken off the text. -/
def word : Scanner UInt32 := fun text =>
  match digits text with
  | .ok ds rest =>
      let n := Nat.ofDigitChars 10 ds 0
      if n < UInt32.size then .ok n.toUInt32 rest else .retry { tooLarge := true } text
  | .retry expected rest => .retry expected rest
  | .fatal expected rest => .fatal expected rest

/-- Value of a hexadecimal digit in either case. -/
def hexDigit? (c : Char) : Option Nat :=
  if '0' ≤ c ∧ c ≤ '9' then some (c.toNat - '0'.toNat)
  else if 'a' ≤ c ∧ c ≤ 'f' then some (c.toNat - 'a'.toNat + 10)
  else if 'A' ≤ c ∧ c ≤ 'F' then some (c.toNat - 'A'.toNat + 10)
  else none

/-- The values of the leading hexadecimal digits, at most `limit` of them, and the rest. -/
def takeHex : Nat → List Char → List Nat × List Char
  | limit + 1, c :: rest =>
      match hexDigit? c with
      | some d => let (ds, rest) := takeHex limit rest; (d :: ds, rest)
      | none => ([], c :: rest)
  | _, text => ([], text)

/-- One to eight hexadecimal digits, which always fit 32 bits. -/
def hexWord : Scanner UInt32 := fun text =>
  match takeHex 8 text with
  | ([], _) => .retry {} text
  | (ds, rest) => .ok (ds.foldl (fun n d => 16 * n + d) 0).toUInt32 rest

/-! ### Nothing is put back -/

/-- What a scanner leaves, however it ends, is an end of what it was given. -/
def Shrinks (p : Scanner α) : Prop := ∀ text, (p text).rest <:+ text

theorem Shrinks.suffix_of_eq {p : Scanner α} (hp : Shrinks p) {text : List Char}
    {outcome : Outcome α} (h : p text = outcome) : outcome.rest <:+ text := h ▸ hp text

theorem Shrinks.pure (a : α) : Shrinks (pure a : Scanner α) := fun text => List.suffix_refl text

theorem Shrinks.bind {p : Scanner α} {f : α → Scanner β} (hp : Shrinks p)
    (hf : ∀ a, Shrinks (f a)) : Shrinks (p >>= f) := by
  intro text
  change (Scanner.bind p f text).rest <:+ text
  unfold Scanner.bind
  split
  · rename_i a mid hmid
    exact (hf a mid).trans (hp.suffix_of_eq hmid)
  · rename_i hretry
    exact hp.suffix_of_eq hretry
  · rename_i hfatal
    exact hp.suffix_of_eq hfatal

theorem Shrinks.or {p q : Scanner α} (hp : Shrinks p) (hq : Shrinks q) : Shrinks (p.or q) := by
  intro text
  unfold Scanner.or
  split
  · exact hq text
  · exact hp text

theorem Shrinks.optional {p : Scanner α} (hp : Shrinks p) : Shrinks p.optional := by
  intro text
  unfold Scanner.optional
  split
  · rename_i hok
    exact hp.suffix_of_eq hok
  · exact List.suffix_refl text
  · rename_i hfatal
    exact hp.suffix_of_eq hfatal

theorem Shrinks.required {p : Scanner α} (hp : Shrinks p) : Shrinks p.required := by
  intro text
  unfold Scanner.required
  split
  · rename_i hretry
    have hsuffix := hp.suffix_of_eq hretry
    exact hsuffix
  · exact hp text

theorem Shrinks.labelled {p : Scanner α} (label : String) (hp : Shrinks p) :
    Shrinks (p.labelled label) := by
  intro text
  unfold Scanner.labelled
  split <;> rename_i houtcome <;> have hsuffix := hp.suffix_of_eq houtcome <;> exact hsuffix

theorem Shrinks.letter (f : Char → Option α) : Shrinks (letter f) := by
  intro text
  cases text with
  | nil => exact List.suffix_refl []
  | cons c text =>
      simp only [Scanner.letter]
      split
      · exact List.suffix_cons c text
      · exact List.suffix_refl (c :: text)

theorem Shrinks.digits : Shrinks digits := by
  intro text
  unfold Scanner.digits
  split
  · exact List.suffix_refl text
  · exact List.dropWhile_suffix _

theorem Shrinks.word : Shrinks word := by
  intro text
  unfold Scanner.word
  split
  · rename_i ds mid hds
    simp only
    split
    · exact Shrinks.digits.suffix_of_eq hds
    · exact List.suffix_refl text
  · rename_i hretry
    exact Shrinks.digits.suffix_of_eq hretry
  · rename_i hfatal
    exact Shrinks.digits.suffix_of_eq hfatal

theorem takeHex_suffix (limit : Nat) (text : List Char) : (takeHex limit text).2 <:+ text := by
  fun_induction takeHex limit text with
  | case1 limit c rest d hd ds rest' hrec ih =>
      rw [hrec] at ih
      exact ih.trans (List.suffix_cons c rest)
  | case2 => exact List.suffix_refl _
  | case3 => exact List.suffix_refl _

theorem Shrinks.hexWord : Shrinks hexWord := by
  intro text
  unfold Scanner.hexWord
  have hsuffix := takeHex_suffix 8 text
  split
  · exact List.suffix_refl text
  · rename_i ds mid _ hmid
    rw [hmid] at hsuffix
    exact hsuffix

end Scanner
end MemoryTrigger

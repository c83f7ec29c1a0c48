import MemoryTrigger.Operand

/-! # Numerals and their numbers

Numerals consist of letters and digits, and the number that a numeral was written for can be read off
it: `Numeral.ofSigned` undoes `Numeral.signed`, and `Numeral.ofHex` undoes `Numeral.hexUpper`,
whatever it is padded to. -/
namespace MemoryTrigger.Numeral

/-! ## Characters of numerals -/

theorem toList_decimal (n : Nat) : (decimal n).toList = Nat.toDigits 10 n := String.toList_ofList

theorem toList_hexUpper (width n : Nat) :
    (hexUpper width n).toList = ((Nat.toDigits 16 n).map Char.toUpper).leftpad width '0' :=
  String.toList_ofList

theorem isDigit_of_mem_decimal {n : Nat} {c : Char} (h : c ∈ (decimal n).toList) :
    c.isDigit = true :=
  Nat.isDigit_of_mem_toDigits (by decide) (by decide) (toList_decimal n ▸ h)

/-- The digits of a hexadecimal numeral, the last one behind those of the rest. -/
theorem toDigits_sixteen_induction {P : Nat → List Char → Prop}
    (single : ∀ d : Fin 16, P d [d.val.digitChar])
    (append : ∀ (n : Nat) (d : Fin 16), P n (Nat.toDigits 16 n) →
      P (16 * n + d) (Nat.toDigits 16 n ++ [d.val.digitChar])) (n : Nat) :
    P n (Nat.toDigits 16 n) := by
  induction n using Nat.strongRecOn with
  | ind n ih =>
    rw [Nat.toDigits_eq_if (by decide)]
    split
    · rename_i hn
      exact single ⟨n, hn⟩
    · rename_i hn
      have hlast := append (n / 16) ⟨n % 16, Nat.mod_lt n (by decide)⟩ (ih (n / 16) (by omega))
      rwa [Nat.div_add_mod] at hlast

theorem isAlphanum_of_mem_hexUpper {width n : Nat} {c : Char}
    (h : c ∈ (hexUpper width n).toList) : c.isAlphanum = true := by
  have hdigit (d : Fin 16) : d.val.digitChar.toUpper.isAlphanum = true := by
    revert d
    decide
  have hall : ∀ c ∈ (Nat.toDigits 16 n).map Char.toUpper, c.isAlphanum = true := by
    refine toDigits_sixteen_induction
      (P := fun _ digits => ∀ c ∈ digits.map Char.toUpper, c.isAlphanum = true)
      (fun d => ?_) (fun n d ih => ?_) n
    · simpa using hdigit d
    · rw [List.map_append, List.forall_mem_append]
      exact ⟨ih, by simpa using hdigit d⟩
  rw [toList_hexUpper, List.leftpad, List.mem_append] at h
  rcases h with hpad | hmem
  · rw [List.eq_of_mem_replicate hpad]
    decide
  · exact hall c hmem

/-! ## Numbers of numerals -/

/-- The integer of a decimal numeral with or without a minus sign. -/
def ofSigned : List Char → Int
  | '-' :: digits => -(Nat.ofDigitChars 10 digits 0 : Nat)
  | digits => (Nat.ofDigitChars 10 digits 0 : Nat)

/-- The value of an upper-case hexadecimal digit. -/
def hexDigitValue (c : Char) : Nat :=
  if c.isDigit then c.toNat - '0'.toNat else c.toNat - 'A'.toNat + 10

/-- The number of a hexadecimal numeral. -/
def ofHex (digits : List Char) : Nat := digits.foldl (fun n c => 16 * n + hexDigitValue c) 0

theorem ofSigned_decimal (n : Nat) : ofSigned (decimal n).toList = n := by
  have hvalue : Nat.ofDigitChars 10 (decimal n).toList 0 = n := by
    rw [toList_decimal, Nat.ofDigitChars_ten_toDigits]
  unfold ofSigned
  split
  · rename_i digits hdigits
    have hminus := isDigit_of_mem_decimal (n := n) (hdigits ▸ List.mem_cons_self)
    exact absurd hminus (by decide)
  · rw [hvalue]

theorem ofSigned_signed (n : Int) : ofSigned (signed n).toList = n := by
  unfold signed
  split
  · rename_i hn
    rw [String.toList_append, toList_decimal]
    show -((Nat.ofDigitChars 10 (Nat.toDigits 10 n.natAbs) 0 : Nat) : Int) = n
    rw [Nat.ofDigitChars_ten_toDigits]
    omega
  · rw [ofSigned_decimal]
    omega

theorem ofHex_append (digits : List Char) (c : Char) :
    ofHex (digits ++ [c]) = 16 * ofHex digits + hexDigitValue c := by
  simp [ofHex]

theorem ofHex_toDigits (n : Nat) : ofHex ((Nat.toDigits 16 n).map Char.toUpper) = n := by
  have hdigit (d : Fin 16) : hexDigitValue d.val.digitChar.toUpper = d := by
    revert d
    decide
  refine toDigits_sixteen_induction (P := fun n digits => ofHex (digits.map Char.toUpper) = n)
    (fun d => ?_) (fun n d ih => ?_) n
  · simpa [ofHex] using hdigit d
  · rw [List.map_append, List.map_singleton, ofHex_append, ih, hdigit]

theorem ofHex_hexUpper (width n : Nat) : ofHex (hexUpper width n).toList = n := by
  have hzeros (k : Nat) (digits : List Char) :
      ofHex (List.replicate k '0' ++ digits) = ofHex digits := by
    induction k with
    | zero => rfl
    | succ k ih => exact ih
  rw [toList_hexUpper, List.leftpad, hzeros, ofHex_toDigits]

end MemoryTrigger.Numeral

import MemoryTrigger.Meaning.History

/-! # Values of reads

Memory may give a read any value in its range (`Memory.exists_read_eq`), and every range holds more
than zero.  A read of a part of a byte has a value where all bytes are the same; every other read
may have it by itself.  All reads together may have their largest values (`Memory.full`). -/
namespace MemoryTrigger

/-! ## Ranges -/

theorem Size.maxValue_pos (size : Size) : 0 < size.maxValue.toNat := by
  cases size with
  | bit _ => exact (by decide : 0 < (1 : UInt32).toNat)
  | _ => decide

theorem Operand.maxValue_pos {o : Operand} (h : o.isMemory = true) : 0 < o.maxValue.toNat := by
  obtain ⟨kind, size, value⟩ := o
  cases kind with
  | unused => cases h
  | literal => cases h
  | bcd =>
    change 0 < size.maxBcd.toNat
    cases size with
    | bit index => exact (Size.bit index).maxValue_pos
    | _ => decide
  | _ => exact size.maxValue_pos

theorem Operand.maxValue_of_ne_bcd {o : Operand} (ho : o.isMemory = true) (hkind : o.kind ≠ .bcd) :
    o.maxValue = o.size.maxValue := by
  obtain ⟨kind, size, value⟩ := o
  cases kind <;> simp_all [maxValue, isMemory]

theorem Operand.isLiteral_of_isMemory {o : Operand} (h : o.isMemory = true) :
    o.isLiteral = false := by
  obtain ⟨kind, size, value⟩ := o
  cases kind <;> first | rfl | cases h

theorem Operand.ne_of_isLiteral {o p : Operand} (ho : o.isMemory = true)
    (hp : p.isLiteral = true) : p ≠ o := by
  rintro rfl
  rw [isLiteral_of_isMemory ho] at hp
  cases hp

/-! ## Parts of a byte -/

namespace Size
variable {size : Size}

theorem ofByte_le_maxValue (hpart : size.isPart = true) (byte : UInt8) :
    size.ofByte byte.toNat ≤ size.maxValue.toNat := by
  have hbyte := byte.toNat_lt
  cases size with
  | bit index => exact Nat.le_of_lt_succ (Nat.mod_lt _ Nat.two_pos)
  | lowNibble => exact Nat.le_of_lt_succ (Nat.mod_lt _ (by decide))
  | highNibble => exact Nat.le_of_lt_succ (Nat.div_lt_of_lt_mul hbyte)
  | byte => exact Nat.le_of_lt_succ hbyte
  | _ => cases hpart

theorem toNat_ofByte (hpart : size.isPart = true) (byte : UInt8) :
    (UInt32.ofNat (size.ofByte byte.toNat)).toNat = size.ofByte byte.toNat :=
  UInt32.toNat_ofNat_of_lt' (Nat.lt_of_le_of_lt (ofByte_le_maxValue hpart byte)
    (UInt32.toNat_lt _))

theorem exists_byte (hpart : size.isPart = true) {value : UInt32} (h : value ≤ size.maxValue) :
    ∃ byte : UInt8, size.ofByte byte.toNat = value.toNat := by
  have h := UInt32.le_iff_toNat_le.mp h
  have hbyte {n : Nat} (hn : n < 256) : (UInt8.ofNat n).toNat = n := UInt8.toNat_ofNat_of_lt' hn
  cases size with
  | bit index =>
    have hbits : ∀ index : Fin 8, ∀ bit < 2, bit <<< index.val < 256 ∧
        bit <<< index.val >>> index.val % 2 = bit := by decide
    obtain ⟨hlt, hsees⟩ := hbits index value.toNat (Nat.lt_succ_of_le h)
    exact ⟨.ofNat (value.toNat <<< index.val), by rwa [hbyte hlt]⟩
  | lowNibble =>
    have h : value.toNat ≤ 15 := h
    refine ⟨.ofNat value.toNat, ?_⟩
    rw [hbyte (by omega), ofByte]
    omega
  | highNibble =>
    have h : value.toNat ≤ 15 := h
    refine ⟨.ofNat (16 * value.toNat), ?_⟩
    rw [hbyte (by omega), ofByte]
    omega
  | byte => exact ⟨.ofNat value.toNat, hbyte (Nat.lt_succ_of_le h)⟩
  | _ => cases hpart

end Size

/-! ## Memory with a given read -/

namespace Memory

/-- What a read sees where all bytes are the same; wider reads and decimal ones see zero. -/
def byteRead (byte : UInt8) (o : Operand) : UInt32 :=
  if o.kind ≠ .bcd ∧ o.size.isPart = true then .ofNat (o.size.ofByte byte.toNat) else 0

theorem toNat_byteRead (byte : UInt8) {o : Operand} (hkind : o.kind ≠ .bcd)
    (hpart : o.size.isPart = true) : (byteRead byte o).toNat = o.size.ofByte byte.toNat := by
  rw [byteRead, if_pos ⟨hkind, hpart⟩, Size.toNat_ofByte hpart]

/-- Memory whose bytes are all the same. -/
def ofByte (byte : UInt8) : Memory where
  read := byteRead byte
  read_le o ho := by
    unfold byteRead
    split
    · rename_i h
      rw [Operand.maxValue_of_ne_bcd ho h.1, UInt32.le_iff_toNat_le, Size.toNat_ofByte h.2]
      exact Size.ofByte_le_maxValue h.2 byte
    · exact Nat.zero_le _
  read_bit kind i address hkind := by
    rw [toNat_byteRead byte hkind rfl, toNat_byteRead byte hkind rfl]
    rfl
  read_lowNibble kind address hkind := by
    rw [toNat_byteRead byte hkind rfl, toNat_byteRead byte hkind rfl]
    rfl
  read_highNibble kind address hkind := by
    rw [toNat_byteRead byte hkind rfl, toNat_byteRead byte hkind rfl]
    rfl

/-- What a read sees where one operand has a value, and all others are zero. -/
def oneRead (o : Operand) (value : UInt32) (p : Operand) : UInt32 := if p = o then value else 0

theorem oneRead_of_isPart {o p : Operand} (ho : o.kind = .bcd ∨ o.size.isPart = false)
    (hkind : p.kind ≠ .bcd) (hpart : p.size.isPart = true) (value : UInt32) :
    oneRead o value p = 0 := by
  refine if_neg ?_
  rintro rfl
  simp [hkind, hpart] at ho

/-- Memory that is zero but for one read, which is not a part of a byte. -/
def ofRead (o : Operand) (value : UInt32) (hle : value ≤ o.maxValue)
    (ho : o.kind = .bcd ∨ o.size.isPart = false) : Memory where
  read := oneRead o value
  read_le p _ := by
    unfold oneRead
    split
    · rename_i h
      rwa [h]
    · exact Nat.zero_le _
  read_bit kind i address hkind := by
    rw [oneRead_of_isPart ho hkind rfl, oneRead_of_isPart ho hkind rfl]
    simp
  read_lowNibble kind address hkind := by
    rw [oneRead_of_isPart ho hkind rfl, oneRead_of_isPart ho hkind rfl]
    simp
  read_highNibble kind address hkind := by
    rw [oneRead_of_isPart ho hkind rfl, oneRead_of_isPart ho hkind rfl]
    simp

/-- **Every value in the range of a read occurs.** -/
theorem exists_read_eq {o : Operand} (ho : o.isMemory = true) {value : UInt32}
    (hle : value ≤ o.maxValue) : ∃ m : Memory, m.read o = value := by
  by_cases hpart : o.kind ≠ .bcd ∧ o.size.isPart = true
  · rw [Operand.maxValue_of_ne_bcd ho hpart.1] at hle
    obtain ⟨byte, hbyte⟩ := Size.exists_byte hpart.2 hle
    refine ⟨ofByte byte, ?_⟩
    rw [← UInt32.toNat_inj, ← hbyte]
    exact toNat_byteRead byte hpart.1 hpart.2
  · have hwhole : o.kind = .bcd ∨ o.size.isPart = false := by
      rcases Decidable.not_and_iff_not_or_not.mp hpart with hkind | hsize
      · exact .inl (Decidable.not_not.mp hkind)
      · exact .inr (eq_false_of_ne_true hsize)
    exact ⟨ofRead o value hle hwhole, if_pos rfl⟩

/-- What a read sees where memory holds as much as it can. -/
def fullRead (o : Operand) : UInt32 := if o.kind = .bcd then o.size.maxBcd else o.size.maxValue

theorem fullRead_of_isMemory {o : Operand} (ho : o.isMemory = true) : fullRead o = o.maxValue := by
  obtain ⟨kind, size, value⟩ := o
  cases kind <;> first | rfl | cases ho

/-- Memory in which every read has its largest value. -/
def full : Memory where
  read := fullRead
  read_le _ ho := by
    rw [fullRead_of_isMemory ho]
    exact UInt32.le_refl _
  read_bit kind i address hkind := by
    have hbits : ∀ i : Fin 8, 255 >>> i.val % 2 = 1 := by decide
    simp only [fullRead, hkind, if_false]
    exact (hbits i).symm
  read_lowNibble kind address hkind := by
    simp only [fullRead, hkind, if_false]
    decide
  read_highNibble kind address hkind := by
    simp only [fullRead, hkind, if_false]
    decide

end Memory
end MemoryTrigger

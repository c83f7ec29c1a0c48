import MemoryTrigger.Meaning.History
import MemoryTrigger.Proofs.Simplify.Provenance
import MemoryTrigger.Proofs.Steps
import MemoryTrigger.Simplify.BitTests
import Mathlib.Algebra.Group.Nat.Defs
import Mathlib.Data.List.Nodup

/-! # Tests of parts and tests of the whole

A nibble equals a value exactly when its four bits equal the bits of the value, and a byte when its
two nibbles do.  That is a fact about the values of one byte (`EqualityTest.IsWhole.values`), and it
carries over to every way of reading that takes the whole and its parts from one byte
(`EqualityTest.IsWhole.holds_of_byte`).  The reads of a memory in one frame do, so that a group that
tests all parts of a whole agrees with the group that tests the whole instead
(`Clause.agreeIn_bitStep`), whatever else is in it. -/
namespace MemoryTrigger

namespace Size

theorem isPart_of_parts_ne_nil {size : Size} (h : size.parts ≠ []) : size.isPart = true := by
  cases size <;> first | rfl | exact absurd rfl h

theorem isPart_of_mem_parts {size part : Size} (h : part ∈ size.parts) : part.isPart = true := by
  revert part
  cases size <;> simp [parts, ofBitIndex?, isPart]

theorem two_le_length_parts {size : Size} (h : size.parts ≠ []) : 2 ≤ size.parts.length := by
  cases size <;> first | decide | exact absurd rfl h

theorem nodup_parts (size : Size) : size.parts.Nodup := by
  cases size <;> simp [parts, ofBitIndex?]

end Size

namespace EqualityTest

/-- What a test reads. -/
def operand (t : EqualityTest) : Operand := ⟨t.kind, t.size, t.address⟩

/-- Whether a test holds under a way of reading. -/
def holdsBy (read : Reading) (t : EqualityTest) : Bool := read t.operand == t.value

theorem valueBy_of_isMemory (read : Reading) {o : Operand} (h : o.isMemory = true) :
    o.valueBy read 0 = read o := by
  obtain ⟨kind, size, value⟩ := o
  cases kind <;> simp_all [Operand.valueBy, Operand.isMemory]

theorem valueBy_of_isLiteral (read : Reading) {o : Operand} (h : o.isLiteral = true) :
    o.valueBy read 0 = o.value := by
  obtain ⟨kind, size, value⟩ := o
  cases kind <;> simp_all [Operand.valueBy, Operand.isLiteral]

/-- A clause that makes a test: it is the test's row, up to the size that its literal is written
with. -/
structure IsMadeBy (c : Clause) (t : EqualityTest) : Prop where
  left : c.terminal.left = t.operand
  isMemory : t.operand.isMemory = true
  kind_ne : t.kind ≠ .bcd
  isPlain : c.isPlain = true
  truthBy_eq : ∀ read : Reading, c.truthBy read = t.holdsBy read

theorem isMadeBy_of_ofClause? {c : Clause} {t : EqualityTest} (h : ofClause? c = some t) :
    t.IsMadeBy c := by
  unfold ofClause? at h
  simp only at h
  split at h
  · rename_i hguard
    simp only [Bool.and_eq_true, beq_iff_eq, bne_iff_ne, ne_eq, List.isEmpty_iff] at hguard
    obtain ⟨⟨⟨⟨⟨⟨hlead, hrole⟩, hhits⟩, hop⟩, hright⟩, hleft⟩, hkind⟩ := hguard
    cases h
    refine ⟨rfl, hleft, hkind, ?_, fun read => ?_⟩
    · simp [Clause.isPlain, Clause.role, Clause.hasHits, Clause.rows, hlead, hrole, hhits]
    · simp [Clause.truthBy, hlead, ChainState.truthBy, ChainState.joined, Row.testBy, hop,
        Operator.test?, Relation.holds, valueBy_of_isMemory read hleft,
        valueBy_of_isLiteral read hright, holdsBy, operand, beq_eq_decide]
  · cases h

/-- The row of a test makes the test. -/
theorem ofClause?_row {t : EqualityTest} (h : t.operand.isMemory = true) (hkind : t.kind ≠ .bcd) :
    ofClause? (.single t.row) = some t := by
  have hmemory : (Operand.mk t.kind t.size t.address).isMemory = true := h
  simp [ofClause?, Clause.single, row, Row.comparing, Operand.isLiteral, Operand.literal, hmemory,
    hkind]

/-! ## Parts and wholes -/

/-- A value below `2 ^ k` joined with one that is shifted over it. -/
theorem toNat_or_shiftLeft {v w k : UInt32} (hk : k.toNat < 32) (hv : v.toNat < 2 ^ k.toNat)
    (hw : w.toNat * 2 ^ k.toNat < 2 ^ 32) :
    (v ||| w <<< k).toNat = v.toNat + w.toNat * 2 ^ k.toNat := by
  rw [UInt32.toNat_or, UInt32.toNat_shiftLeft, Nat.mod_eq_of_lt hk, Nat.shiftLeft_eq,
    Nat.mod_eq_of_lt hw, ← Nat.shiftLeft_eq, Nat.or_comm, ← Nat.shiftLeft_add_eq_or_of_lt hv,
    Nat.shiftLeft_eq, Nat.add_comm]

theorem holdsBy_iff_toNat {read : Reading} {t : EqualityTest} :
    t.holdsBy read = true ↔ (read t.operand).toNat = t.value.toNat := by
  rw [holdsBy, beq_iff_eq, UInt32.toNat_inj]

/-- The value of four bits, the lowest first. -/
theorem toNat_fourBits {a b c d : UInt32} (ha : a ≤ 1) (hb : b ≤ 1) (hc : c ≤ 1) (hd : d ≤ 1) :
    ((0 : UInt32) ||| a <<< 0 ||| b <<< 1 ||| c <<< 2 ||| d <<< 3).toNat =
      a.toNat + b.toNat * 2 + c.toNat * 4 + d.toNat * 8 := by
  have ha : a.toNat ≤ 1 := UInt32.le_iff_toNat_le.mp ha
  have hb : b.toNat ≤ 1 := UInt32.le_iff_toNat_le.mp hb
  have hc : c.toNat ≤ 1 := UInt32.le_iff_toNat_le.mp hc
  have hd : d.toNat ≤ 1 := UInt32.le_iff_toNat_le.mp hd
  have hone : ((0 : UInt32) ||| a <<< 0).toNat = a.toNat := by simp
  have htwo : ((0 : UInt32) ||| a <<< 0 ||| b <<< 1).toNat = a.toNat + b.toNat * 2 := by
    rw [toNat_or_shiftLeft (by decide) (by rw [hone]; simp; omega) (by simp; omega), hone]
    rfl
  have hthree : ((0 : UInt32) ||| a <<< 0 ||| b <<< 1 ||| c <<< 2).toNat =
      a.toNat + b.toNat * 2 + c.toNat * 4 := by
    rw [toNat_or_shiftLeft (by decide) (by rw [htwo]; simp; omega) (by simp; omega), htwo]
    rfl
  rw [toNat_or_shiftLeft (by decide) (by rw [hthree]; simp; omega) (by simp; omega), hthree]
  rfl

/-- The value of two nibbles, the lower first. -/
theorem toNat_twoNibbles {a b : UInt32} (ha : a ≤ 0xF) (hb : b ≤ 0xF) :
    ((0 : UInt32) ||| a <<< 0 ||| b <<< 4).toNat = a.toNat + b.toNat * 16 := by
  have ha : a.toNat ≤ 15 := UInt32.le_iff_toNat_le.mp ha
  have hb : b.toNat ≤ 15 := UInt32.le_iff_toNat_le.mp hb
  have hone : ((0 : UInt32) ||| a <<< 0).toNat = a.toNat := by simp
  rw [toNat_or_shiftLeft (by decide) (by rw [hone]; simp; omega) (by simp; omega), hone]
  rfl

/-- A test that was found in a group, and the tests of its parts with their places: the test says
of a byte what the parts say of it together. -/
structure IsWhole (group : List Clause) (found : Found) (parts : List (EqualityTest × Nat)) :
    Prop where
  places : found.1.Perm (parts.map Prod.snd)
  sorted : found.1.Pairwise (· ≤ ·)
  clause : ∀ p ∈ parts, ∃ c, group[p.2]? = some c ∧ ofClause? c = some p.1
  parts_ne_nil : found.2.size.parts ≠ []
  operands : parts.map (·.1.operand) =
    found.2.size.parts.map fun size => ⟨found.2.kind, size, found.2.address⟩
  values : ∀ byte < 256, found.2.size.ofByte byte = found.2.value.toNat ↔
    ∀ p ∈ parts, p.1.size.ofByte byte = p.1.value.toNat

section Finding
variable {group : List Clause} {tests : List (EqualityTest × Nat)} {like : EqualityTest}
  {found : Found}

theorem mem_ofGroup {p : EqualityTest × Nat} (h : p ∈ ofGroup group) :
    ∃ c, group[p.2]? = some c ∧ ofClause? c = some p.1 := by
  obtain ⟨⟨c, i⟩, hmem, heq⟩ := List.mem_filterMap.mp h
  obtain ⟨t, ht, rfl⟩ := Option.map_eq_some_iff.mp heq
  exact ⟨c, List.mk_mem_zipIdx_iff_getElem?.mp hmem, ht⟩

theorem part?_eq_some {size : Size} {p : EqualityTest × Nat} (h : part? tests like size = some p) :
    p ∈ tests ∧ p.1.operand = ⟨like.kind, size, like.address⟩ := by
  unfold part? at h
  split at h
  · rename_i entry hfilter
    cases h
    have hmem := List.mem_singleton_self p
    rw [← hfilter] at hmem
    obtain ⟨hmem, hsame⟩ := List.mem_filter.mp hmem
    simp only [sameMemory, Bool.and_eq_true, beq_iff_eq] at hsame
    exact ⟨hmem, by simp [operand, hsame]⟩
  · cases h

theorem perm_insertPlace (place : Nat) (places : List Nat) :
    (insertPlace place places).Perm (place :: places) := by
  induction places with
  | nil => exact .refl _
  | cons other rest ih =>
    rw [insertPlace]
    split
    · exact .refl _
    · exact (ih.cons other).trans (.swap _ _ _)

theorem perm_foldr_insertPlace (places : List Nat) : (places.foldr insertPlace []).Perm places := by
  induction places with
  | nil => exact .refl _
  | cons place rest ih => exact (perm_insertPlace place _).trans (ih.cons place)

theorem pairwise_insertPlace (place : Nat) {places : List Nat} (h : places.Pairwise (· ≤ ·)) :
    (insertPlace place places).Pairwise (· ≤ ·) := by
  induction places with
  | nil => exact List.pairwise_singleton _ _
  | cons other rest ih =>
    obtain ⟨hfirst, hrest⟩ := List.pairwise_cons.mp h
    rw [insertPlace]
    split
    · rename_i hle
      refine List.pairwise_cons.mpr ⟨List.forall_mem_cons.mpr ⟨hle, fun i hi => ?_⟩, h⟩
      exact Nat.le_trans hle (hfirst i hi)
    · refine List.pairwise_cons.mpr ⟨fun i hi => ?_, ih hrest⟩
      rcases List.mem_cons.mp ((perm_insertPlace place rest).mem_iff.mp hi) with rfl | hi
      · omega
      · exact hfirst i hi

theorem pairwise_foldr_insertPlace (places : List Nat) :
    (places.foldr insertPlace []).Pairwise (· ≤ ·) := by
  induction places with
  | nil => exact .nil
  | cons place rest ih => exact pairwise_insertPlace place ih

/-- Parts with their places in order make a whole, once the values add up. -/
theorem isWhole_combine {size : Size} {parts : List ((EqualityTest × Nat) × UInt32)}
    (hclause : ∀ p ∈ parts, ∃ c, group[p.1.2]? = some c ∧ ofClause? c = some p.1.1)
    (hne : size.parts ≠ [])
    (hoperands : parts.map (·.1.1.operand) =
      size.parts.map fun part => ⟨like.kind, part, like.address⟩)
    (hvalues : ∀ byte < 256, size.ofByte byte = (combine like size parts).2.value.toNat ↔
      ∀ p ∈ parts, p.1.1.size.ofByte byte = p.1.1.value.toNat) :
    IsWhole group (combine like size parts) (parts.map Prod.fst) where
  places := by
    rw [List.map_map]
    exact perm_foldr_insertPlace _
  sorted := pairwise_foldr_insertPlace _
  clause := by simpa using hclause
  parts_ne_nil := hne
  operands := by
    rw [List.map_map]
    exact hoperands
  values byte hbyte := (hvalues byte hbyte).trans (by simp)

/-- **A nibble is its four bits.** -/
theorem ofByte_nibble_eq_iff (high : Bool) {byte a b c d : Nat} (hbyte : byte < 256)
    (ha : a ≤ 1) (hb : b ≤ 1) (hc : c ≤ 1) (hd : d ≤ 1) :
    (if high then Size.highNibble else .lowNibble).ofByte byte = a + b * 2 + c * 4 + d * 8 ↔
      (Size.bit (if high then 4 else 0)).ofByte byte = a ∧
      (Size.bit (if high then 5 else 1)).ofByte byte = b ∧
      (Size.bit (if high then 6 else 2)).ofByte byte = c ∧
      (Size.bit (if high then 7 else 3)).ofByte byte = d := by
  cases high with
  | false =>
    change byte % 16 = _ ↔
      byte >>> 0 % 2 = a ∧ byte >>> 1 % 2 = b ∧ byte >>> 2 % 2 = c ∧ byte >>> 3 % 2 = d
    omega
  | true =>
    change byte / 16 = _ ↔
      byte >>> 4 % 2 = a ∧ byte >>> 5 % 2 = b ∧ byte >>> 6 % 2 = c ∧ byte >>> 7 % 2 = d
    omega

/-- The bits of a nibble that are tested make a test of the nibble. -/
theorem isWhole_of_nibbleOf?
    (htests : ∀ p ∈ tests, (∃ c, group[p.2]? = some c ∧ ofClause? c = some p.1) ∧ p.1.value ≤ 1)
    (h : nibbleOf? tests like = some found) : ∃ parts, IsWhole group found parts := by
  obtain ⟨index, -, h⟩ := Option.bind_eq_some_iff.mp h
  simp only at h
  generalize decide (4 ≤ index.val) = high at h
  obtain ⟨parts, hparts, h⟩ := Option.bind_eq_some_iff.mp h
  cases h
  have hbits : nibbleBits high = [if high then 4 else 0, if high then 5 else 1,
      if high then 6 else 2, if high then 7 else 3] := by
    cases high <;> rfl
  rw [hbits] at hparts
  simp only [List.mapM_cons, List.mapM_nil, Option.bind_eq_bind, Option.bind_eq_some_iff,
    Option.pure_def, Option.some.injEq] at hparts
  obtain ⟨a, ha, _, ⟨b, hb, _, ⟨c, hc, _, ⟨d, hd, _, rfl, rfl⟩, rfl⟩, rfl⟩, rfl⟩ := hparts
  obtain ⟨hamem, haop⟩ := part?_eq_some ha
  obtain ⟨hbmem, hbop⟩ := part?_eq_some hb
  obtain ⟨hcmem, hcop⟩ := part?_eq_some hc
  obtain ⟨hdmem, hdop⟩ := part?_eq_some hd
  refine ⟨_, isWhole_combine ?_ ?_ ?_ fun byte hbyte => ?_⟩
  · simp [htests _ hamem, htests _ hbmem, htests _ hcmem, htests _ hdmem]
  · cases high <;> decide
  · simp only [List.zip_cons_cons, List.zip_nil_left, List.map_cons, List.map_nil, haop, hbop, hcop,
      hdop]
    cases high <;> rfl
  · have hsize {p : EqualityTest × Nat} {size : Size}
        (hp : p.1.operand = ⟨like.kind, size, like.address⟩) : p.1.size = size :=
      congrArg Operand.size hp
    have hle {p : EqualityTest × Nat} (hp : p ∈ tests) : p.1.value.toNat ≤ 1 :=
      UInt32.le_iff_toNat_le.mp (htests p hp).2
    have hvalue := toNat_fourBits (htests a hamem).2 (htests b hbmem).2 (htests c hcmem).2
      (htests d hdmem).2
    have hnibble := ofByte_nibble_eq_iff high hbyte (hle hamem) (hle hbmem) (hle hcmem) (hle hdmem)
    rw [← hvalue] at hnibble
    refine hnibble.trans ?_
    simp [hsize haop, hsize hbop, hsize hcop, hsize hdop]

/-- The nibbles of a byte that are tested make a test of the byte. -/
theorem isWhole_of_byteOf?
    (htests : ∀ p ∈ tests, (∃ c, group[p.2]? = some c ∧ ofClause? c = some p.1) ∧ p.1.value ≤ 0xF)
    (h : byteOf? tests like = some found) : ∃ parts, IsWhole group found parts := by
  obtain ⟨_, -, h⟩ := Option.bind_eq_some_iff.mp h
  obtain ⟨a, ha, h⟩ := Option.bind_eq_some_iff.mp h
  obtain ⟨b, hb, h⟩ := Option.bind_eq_some_iff.mp h
  cases h
  obtain ⟨hamem, haop⟩ := part?_eq_some ha
  obtain ⟨hbmem, hbop⟩ := part?_eq_some hb
  refine ⟨_, isWhole_combine ?_ (by decide) ?_ fun byte hbyte => ?_⟩
  · simp [htests _ hamem, htests _ hbmem]
  · simp [haop, hbop, Size.parts]
  · have hasize : a.1.size = .lowNibble := congrArg Operand.size haop
    have hbsize : b.1.size = .highNibble := congrArg Operand.size hbop
    have hale : a.1.value.toNat ≤ 15 := UInt32.le_iff_toNat_le.mp (htests a hamem).2
    have hvalue := toNat_twoNibbles (htests a hamem).2 (htests b hbmem).2
    change byte = ((0 : UInt32) ||| a.1.value <<< 0 ||| b.1.value <<< 4).toNat ↔ _
    simp only [hvalue, List.forall_mem_cons, hasize, hbsize, Size.ofByte, List.not_mem_nil,
      false_implies, implies_true, and_true]
    omega

theorem isWhole_of_findNibble? (h : findNibble? group = some found) :
    ∃ parts, IsWhole group found parts := by
  obtain ⟨⟨t, i⟩, -, h⟩ := List.exists_of_findSome?_eq_some h
  refine isWhole_of_nibbleOf? (fun p hp => ?_) h
  obtain ⟨hp, hvalue⟩ := List.mem_filter.mp hp
  exact ⟨mem_ofGroup hp, by simpa using (Bool.and_eq_true_iff.mp hvalue).2⟩

theorem isWhole_of_findByte? (h : findByte? group = some found) :
    ∃ parts, IsWhole group found parts := by
  obtain ⟨⟨t, i⟩, -, h⟩ := List.exists_of_findSome?_eq_some h
  refine isWhole_of_byteOf? (fun p hp => ?_) h
  obtain ⟨hp, hvalue⟩ := List.mem_filter.mp hp
  exact ⟨mem_ofGroup hp, by simpa using (Bool.and_eq_true_iff.mp hvalue).2⟩

end Finding

/-! ## A whole under a way of reading -/

section Whole
variable {group : List Clause} {found : Found} {parts : List (EqualityTest × Nat)}

theorem IsWhole.sizes (h : IsWhole group found parts) :
    parts.map (·.1.size) = found.2.size.parts := by
  have hsizes := congrArg (List.map Operand.size) h.operands
  simpa [Function.comp_def, operand] using hsizes

theorem IsWhole.two_le (h : IsWhole group found parts) : 2 ≤ parts.length := by
  rw [← List.length_map (·.1.size), h.sizes]
  exact Size.two_le_length_parts h.parts_ne_nil

/-- The parts of a whole look at the memory of the whole. -/
theorem IsWhole.operand_of_mem (h : IsWhole group found parts) {p : EqualityTest × Nat}
    (hp : p ∈ parts) :
    p.1.size ∈ found.2.size.parts ∧ p.1.operand = ⟨found.2.kind, p.1.size, found.2.address⟩ := by
  have hmem : p.1.operand ∈ parts.map (·.1.operand) := List.mem_map_of_mem hp
  rw [h.operands] at hmem
  obtain ⟨size, hsize, heq⟩ := List.mem_map.mp hmem
  obtain rfl : size = p.1.size := congrArg Operand.size heq
  exact ⟨hsize, heq.symm⟩

/-- Some clause of the group makes a test of the kind of the whole. -/
theorem IsWhole.exists_clause (h : IsWhole group found parts) :
    ∃ c ∈ group, ∃ t, ofClause? c = some t ∧ t.kind = found.2.kind := by
  obtain ⟨p, hp⟩ :=
    List.exists_mem_of_length_pos (Nat.lt_of_lt_of_le Nat.zero_lt_two h.two_le)
  obtain ⟨c, hget, hc⟩ := h.clause p hp
  exact ⟨c, List.mem_of_getElem? hget, p.1, hc, congrArg Operand.kind (h.operand_of_mem hp).2⟩

/-- What is true of the tests of one place is true of the whole: they are about memory, and not
decimal. -/
theorem IsWhole.isMemory (h : IsWhole group found parts) :
    found.2.operand.isMemory = true ∧ found.2.kind ≠ .bcd := by
  obtain ⟨c, -, t, hc, hkind⟩ := h.exists_clause
  have hmade := isMadeBy_of_ofClause? hc
  refine ⟨?_, hkind ▸ hmade.kind_ne⟩
  have hmemory := hmade.isMemory
  rw [Operand.isMemory, operand, hkind] at hmemory
  exact hmemory

/-- **Where a whole and its parts are read from one byte, the test of the whole holds when those of
its parts do.** -/
theorem IsWhole.holds_of_byte (h : IsWhole group found parts) {read : Reading} {byte : Nat}
    (hbyte : byte < 256)
    (hread : ∀ size : Size, size.isPart = true →
      (read ⟨found.2.kind, size, found.2.address⟩).toNat = size.ofByte byte) :
    found.2.holdsBy read = true ↔ ∀ p ∈ parts, p.1.holdsBy read = true := by
  have hwhole : (read found.2.operand).toNat = found.2.size.ofByte byte :=
    hread _ (Size.isPart_of_parts_ne_nil h.parts_ne_nil)
  rw [holdsBy_iff_toNat, hwhole, h.values byte hbyte]
  refine forall₂_congr fun p hp => ?_
  obtain ⟨hsize, hoperand⟩ := h.operand_of_mem hp
  rw [holdsBy_iff_toNat, hoperand, hread _ (Size.isPart_of_mem_parts hsize)]

theorem toNat_read_byte_lt (m : Memory) {kind : OperandKind} (address : UInt32)
    (hkind : kind ≠ .bcd) (h : (Operand.mk kind .byte address).isMemory = true) :
    (m.read ⟨kind, .byte, address⟩).toNat < 256 := by
  have hle := UInt32.le_iff_toNat_le.mp (m.read_le ⟨kind, .byte, address⟩ h)
  refine Nat.lt_succ_of_le (Nat.le_trans hle ?_)
  cases kind <;> simp_all [Operand.maxValue, Size.maxValue, Operand.isMemory]

/-- The reads of a memory in one frame are parts of its bytes. -/
theorem IsWhole.holds (h : IsWhole group found parts) (m : Memory) :
    found.2.holdsBy m.read = true ↔ ∀ p ∈ parts, p.1.holdsBy m.read = true := by
  obtain ⟨hmemory, hkind⟩ := h.isMemory
  refine h.holds_of_byte (toNat_read_byte_lt m found.2.address hkind hmemory) fun size hpart => ?_
  cases size with
  | bit index => exact m.read_bit _ _ _ hkind
  | lowNibble => exact m.read_lowNibble _ _ hkind
  | highNibble => exact m.read_highNibble _ _ hkind
  | byte => rfl
  | _ => cases hpart

end Whole

/-! ## Replacing the parts -/

section Replacing
variable {group : List Clause} {found : Found} {parts : List (EqualityTest × Nat)}

/-- Different parts stand in different places, in rising order. -/
theorem IsWhole.places_lt (h : IsWhole group found parts) : found.1.Pairwise (· < ·) := by
  -- the size of a part can be read off the group at its place
  have hsize : parts.map (·.1.size) = (parts.map Prod.snd).map fun i =>
      ((group[i]?.bind ofClause?).map EqualityTest.size).getD .byte := by
    rw [List.map_map]
    refine List.map_congr_left fun p hp => ?_
    obtain ⟨c, hget, hc⟩ := h.clause p hp
    simp [hget, hc]
  have hdistinct : (parts.map (·.1.size)).Nodup := h.sizes ▸ found.2.size.nodup_parts
  have hnodup : found.1.Nodup :=
    h.places.nodup_iff.mpr (List.Nodup.of_map _ (hsize ▸ hdistinct))
  exact (h.sorted.and hnodup).imp fun hab => Nat.lt_of_le_of_ne hab.1 hab.2

/-- A replacement exchanges the clauses of the parts for one clause. -/
theorem IsWhole.perm_replaceAt (h : IsWhole group found parts) (c : Clause) :
    ∃ rest, group.Perm ((parts.map Prod.snd).filterMap (group[·]?) ++ rest) ∧
      (Clause.replaceAt group found.1 c).Perm (c :: rest) := by
  have hlt := h.places_lt
  have hperm := h.places
  obtain ⟨places, test⟩ := found
  cases places with
  | nil =>
    have hlength := h.two_le
    simp [List.map_eq_nil_iff.mp hperm.nil_eq.symm] at hlength
  | cons first others =>
    obtain ⟨p, hp, rfl⟩ := List.mem_map.mp (hperm.mem_iff.mp List.mem_cons_self)
    obtain ⟨a, hget, -⟩ := h.clause p hp
    obtain ⟨rest, hgroup, hresult⟩ := Places.perm_set_foldr_eraseIdx hlt hget c
    refine ⟨rest, hgroup.trans ((hperm.filterMap _).append_right rest), ?_⟩
    rwa [Clause.replaceAt, List.foldl_reverse]

/-- The clauses that are taken out make the tests of the parts. -/
theorem IsWhole.exists_part (h : IsWhole group found parts) {c : Clause}
    (hc : c ∈ (parts.map Prod.snd).filterMap (group[·]?)) :
    ∃ p ∈ parts, ofClause? c = some p.1 := by
  obtain ⟨place, hplace, hget⟩ := List.mem_filterMap.mp hc
  obtain ⟨p, hp, rfl⟩ := List.mem_map.mp hplace
  obtain ⟨d, hget', hd⟩ := h.clause p hp
  obtain rfl : d = c := Option.some.inj (hget'.symm.trans hget)
  exact ⟨p, hp, hd⟩

/-- **Testing the whole instead of its parts** changes nothing about a group. -/
theorem IsWhole.agreeIn_replaceAt (m : Memory) (h : IsWhole group found parts) :
    Clause.AgreeIn m (Clause.replaceAt group found.1 (.single found.2.row)) group := by
  obtain ⟨rest, hgroup, hresult⟩ := h.perm_replaceAt (.single found.2.row)
  have holds {c : Clause} {t : EqualityTest} (ht : ofClause? c = some t) :
      c.holdsIn m = t.holdsBy m.read := by
    have hmade := isMadeBy_of_ofClause? ht
    rw [Clause.holdsIn_eq_truthBy m (Clause.hits_terminal_of_isPlain hmade.isPlain),
      hmade.truthBy_eq]
  have hparts : Clause.AgreeIn m [.single found.2.row]
      ((parts.map Prod.snd).filterMap (group[·]?)) := by
    refine .of_plain (by simp [Clause.role, Clause.single, row, Row.comparing]) (fun c hc => ?_) ?_
    · obtain ⟨p, hp, ht⟩ := h.exists_part hc
      exact Clause.role_of_isPlain (isMadeBy_of_ofClause? ht).isPlain
    · rw [List.forall_mem_singleton, holds (ofClause?_row h.isMemory.1 h.isMemory.2), h.holds m]
      constructor
      · intro hall c hc
        obtain ⟨p, hp, ht⟩ := h.exists_part hc
        rw [holds ht]
        exact hall p hp
      · intro hall p hp
        obtain ⟨c, hget, ht⟩ := h.clause p hp
        rw [← holds ht]
        exact hall c (List.mem_filterMap.mpr ⟨p.2, List.mem_map_of_mem hp, hget⟩)
  exact (Clause.AgreeIn.of_perm hresult).trans
    ((hparts.append_right rest).trans (.of_perm hgroup.symm))

end Replacing

end EqualityTest

/-! ## Groups and triggers -/

namespace Clause
open EqualityTest

/-- A step exchanges the tests of the parts of a whole for the test of the whole, and says so. -/
theorem exists_isWhole_of_bitStep {group : List Clause} {next : List Clause × Event}
    (h : bitStep group = some next) :
    ∃ found parts, IsWhole group found parts ∧ next =
      (replaceAt group found.1 (single found.2.row), .bitsMerged found.1.length found.2.row) := by
  obtain ⟨found, hfound, rfl⟩ := Option.map_eq_some_iff.mp h
  rcases Option.or_eq_some_iff.mp hfound with hfound | ⟨-, hfound⟩
  · obtain ⟨parts, hparts⟩ := isWhole_of_findNibble? hfound
    exact ⟨found, parts, hparts, rfl⟩
  · obtain ⟨parts, hparts⟩ := isWhole_of_findByte? hfound
    exact ⟨found, parts, hparts, rfl⟩

theorem bitStep_eq_some {group group' : List Clause} {event : Event}
    (h : bitStep group = some (group', event)) :
    ∃ found parts, IsWhole group found parts ∧
      group' = replaceAt group found.1 (single found.2.row) := by
  obtain ⟨found, parts, hwhole, heq⟩ := exists_isWhole_of_bitStep h
  exact ⟨found, parts, hwhole, congrArg Prod.fst heq⟩

theorem agreeIn_bitStep (m : Memory) {group group' : List Clause} {event : Event}
    (h : bitStep group = some (group', event)) : AgreeIn m group' group := by
  obtain ⟨found, parts, hwhole, rfl⟩ := bitStep_eq_some h
  exact hwhole.agreeIn_replaceAt m

/-- **Merging bit tests changes nothing about a group.** -/
theorem agreeIn_mergeBitTests (m : Memory) (group : List Clause) :
    AgreeIn m (mergeBitTests group).value group :=
  Logged.exhaust_keeps (P := fun group' => AgreeIn m group' group)
    (fun _ _ _ hstep hgroup => (agreeIn_bitStep m hstep).trans hgroup) _ group (.refl group)

theorem forall_mem_mergeBitTests {P : Clause → Prop} (hP : Closed P) {group : List Clause}
    (h : ∀ c ∈ group, P c) : ∀ c ∈ (mergeBitTests group).value, P c := by
  refine Logged.exhaust_keeps (P := fun group => ∀ c ∈ group, P c) ?_ _ group h
  intro group group' event hstep hgroup c hc
  obtain ⟨found, parts, hwhole, rfl⟩ := bitStep_eq_some hstep
  obtain ⟨rest, hperm, hresult⟩ := hwhole.perm_replaceAt (single found.2.row)
  rcases List.mem_cons.mp (hresult.mem_iff.mp hc) with rfl | hc
  · exact hP.equalityTest found.2.value hwhole.isMemory.1
  · exact hgroup c (hperm.mem_iff.mpr (List.mem_append_right _ hc))

end Clause

namespace ClauseGroups
open Clause

/-- A trigger with the bit tests of each group merged. -/
def withWholes (g : ClauseGroups) : ClauseGroups where
  core := (mergeBitTests g.core).value
  alternates := g.alternates.map fun group => (mergeBitTests group).value

theorem trigger_mergeBits (t : Trigger) :
    (mergeBits.run t).trigger = (ofTrigger t).withWholes.toTrigger := by
  simp [mergeBits, Pass.onClauses, eachGroup, withWholes]

theorem All.withWholes {P : Clause → Prop} (hP : Closed P) {g : ClauseGroups} (h : g.All P) :
    g.withWholes.All P := by
  obtain ⟨hcore, halternates⟩ := all_iff.mp h
  refine all_iff.mpr ⟨forall_mem_mergeBitTests hP hcore, fun group hgroup => ?_⟩
  obtain ⟨a, ha, rfl⟩ := List.mem_map.mp hgroup
  exact forall_mem_mergeBitTests hP (halternates a ha)

end ClauseGroups
end MemoryTrigger

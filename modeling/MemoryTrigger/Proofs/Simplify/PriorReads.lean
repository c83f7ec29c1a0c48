import MemoryTrigger.Proofs.Simplify.BitTests

/-! # Merged tests of prior reads

A prior read of a nibble gives the last other value of the nibble, and prior reads of its bits give
the last other value of each bit.  These need not come from one frame: when a nibble goes from 0 to 1
and then to 3, its last other value is 1, while the last other values of its bits are all 0.  So tests
of the parts and the test of the whole may differ over a history, although the reads of every single
frame fall into parts.

The last other value of a whole is made of those of its parts exactly where the whole keeps together
(`History.keepsTogether_iff`).  Where it does not, the test of the whole and the tests of all its parts
never hold at once; and since two merges do not make up for each other
(`History.prior_eq_of_whole`), the same is true of a group before and after all its merges. -/
namespace MemoryTrigger

/-! ## Reads of one frame -/

namespace Size

theorem ofByte_le (size : Size) (x : Nat) : size.ofByte x ≤ x := by
  cases size with
  | bit index => exact Nat.le_trans (Nat.mod_le _ _) (Nat.shiftRight_le _ _)
  | lowNibble => exact Nat.mod_le _ _
  | highNibble => exact Nat.div_le_self _ _
  | _ => exact Nat.le_refl _

/-- Two bytes look alike to a size when they do to all of its parts. -/
theorem ofByte_eq_iff {size : Size} (h : size.parts ≠ []) {x y : Nat} (hx : x < 256)
    (hy : y < 256) :
    size.ofByte x = size.ofByte y ↔ ∀ part ∈ size.parts, part.ofByte x = part.ofByte y := by
  cases size
  case lowNibble | highNibble | byte =>
    simp only [parts, ofBitIndex?, List.filterMap_cons, List.filterMap_nil, Nat.reduceLT, dite_true,
      List.forall_mem_cons, List.not_mem_nil, false_implies, implies_true, and_true, ofByte]
    omega
  all_goals exact absurd rfl h

/-- The parts of a byte are nibbles, and those of a nibble have no parts. -/
theorem parts_of_mem_parts {whole part : Size} (h : part ∈ whole.parts) :
    part.parts = [] ∨ whole = .byte ∧ part ≠ .byte := by
  revert part
  cases whole <;> simp [parts, ofBitIndex?]

end Size

namespace Frame

/-- A read of a part of a byte sees nothing but the byte. -/
theorem toNat_read (f : Frame) {size : Size} (h : size.isPart = true) (address : UInt32) :
    (f.read size address).toNat = size.ofByte (f.byte address).toNat := by
  have hlt : size.ofByte (f.byte address).toNat < 256 :=
    Nat.lt_of_le_of_lt (size.ofByte_le _) (UInt8.toNat_lt _)
  have hread : f.read size address = .ofNat (size.ofByte (f.byte address).toNat) := by
    cases size with
    | bit _ | lowNibble | highNibble | byte => rfl
    | _ => cases h
  rw [hread]
  exact UInt32.toNat_ofNat_of_lt' (Nat.lt_trans hlt (by decide))

theorem read_zero {size : Size} (h : size.isPart = true) (address : UInt32) :
    zero.read size address = 0 := by
  rw [← UInt32.toNat_inj, toNat_read zero h]
  exact Nat.le_zero.mp (size.ofByte_le 0)

/-- A read gives the same in two frames when the reads of its parts do. -/
theorem read_eq_iff {f g : Frame} {size : Size} (h : size.parts ≠ []) (address : UInt32) :
    f.read size address = g.read size address ↔
      ∀ part ∈ size.parts, f.read part address = g.read part address := by
  rw [← UInt32.toNat_inj, f.toNat_read (Size.isPart_of_parts_ne_nil h),
    g.toNat_read (Size.isPart_of_parts_ne_nil h),
    Size.ofByte_eq_iff h (UInt8.toNat_lt _) (UInt8.toNat_lt _)]
  refine forall₂_congr fun part hpart => ?_
  rw [← UInt32.toNat_inj, f.toNat_read (Size.isPart_of_mem_parts hpart),
    g.toNat_read (Size.isPart_of_mem_parts hpart)]

theorem read_part_eq {f g : Frame} {whole part : Size} {address : UInt32}
    (hpart : part ∈ whole.parts) (h : f.read whole address = g.read whole address) :
    f.read part address = g.read part address :=
  (read_eq_iff (List.ne_nil_of_mem hpart) address).mp h part hpart

/-- Reading everything from one frame. -/
def reading (f : Frame) : Reading := fun o => f.read o.size o.value

end Frame

/-! ## Prior reads of a whole and of its parts -/

namespace History
variable {h : History} {whole part size : Size} {address : UInt32}

/-- The frame that a prior read gives its value from; zero if the read never changed. -/
def priorFrame (h : History) (size : Size) (address : UInt32) : Frame :=
  (h.lastOther? size address).getD .zero

theorem prior_eq_read (hsize : size.isPart = true) :
    h.prior size address = (h.priorFrame size address).read size address := by
  unfold prior priorFrame
  cases h.lastOther? size address with
  | none => exact (Frame.read_zero hsize address).symm
  | some f => rfl

theorem lastOther?_eq_none_iff : h.lastOther? size address = none ↔
    ∀ f ∈ h.past, f.read size address = h.current.read size address := by
  simp [lastOther?]

/-- A read whose last other value is its value now has been zero all the time. -/
theorem prior_eq_current_iff : h.prior size address = h.current.read size address ↔
    ∀ g ∈ h.frames, g.read size address = 0 := by
  unfold prior
  cases hother : h.lastOther? size address with
  | none =>
    have hpast := lastOther?_eq_none_iff.mp hother
    show 0 = h.current.read size address ↔ _
    rw [frames, List.forall_mem_cons]
    constructor
    · intro hzero
      exact ⟨hzero.symm, fun g hg => (hpast g hg).trans hzero.symm⟩
    · rintro ⟨hzero, -⟩
      exact hzero.symm
  | some f =>
    have hne : f.read size address ≠ h.current.read size address := by
      simpa using List.find?_some hother
    refine iff_of_false hne fun hzero => hne ?_
    rw [hzero h.current List.mem_cons_self,
      hzero f (List.mem_cons_of_mem _ (List.mem_of_find?_eq_some hother))]

/-- A read that is zero in every frame has never changed. -/
theorem prior_of_forall_eq_zero (hzero : ∀ g ∈ h.frames, g.read size address = 0) :
    h.prior size address = 0 :=
  (prior_eq_current_iff.mpr hzero).trans (hzero h.current List.mem_cons_self)

/-- Where a whole never changed, nor did its parts. -/
theorem prior_part_of_lastOther?_eq_none (hpart : part ∈ whole.parts)
    (hother : h.lastOther? whole address = none) : h.prior part address = 0 := by
  have hnone : h.lastOther? part address = none := lastOther?_eq_none_iff.mpr fun f hf =>
    Frame.read_part_eq hpart (lastOther?_eq_none_iff.mp hother f hf)
  rw [prior, hnone]
  rfl

/-- **A part that was another when the whole last was** has its last other value from the same
frame: since then the whole has been what it is now. -/
theorem lastOther?_part {f : Frame} (hpart : part ∈ whole.parts)
    (hother : h.lastOther? whole address = some f)
    (hne : f.read part address ≠ h.current.read part address) :
    h.lastOther? part address = some f := by
  obtain ⟨-, newer, older, hpast, hsame⟩ := List.find?_eq_some_iff_append.mp hother
  refine List.find?_eq_some_iff_append.mpr ⟨by simpa using hne, newer, older, hpast, ?_⟩
  intro g hg
  have hwhole : g.read whole address = h.current.read whole address := by simpa using hsame g hg
  simpa using Frame.read_part_eq hpart hwhole

/-- **A whole keeps together exactly when its last other value is made of those of its parts.** -/
theorem keepsTogether_iff : h.KeepsTogether whole address ↔ ∀ part ∈ whole.parts,
    (h.priorFrame whole address).read part address = h.prior part address := by
  unfold KeepsTogether priorFrame
  cases hother : h.lastOther? whole address with
  | none =>
    refine iff_of_true (by simp) fun part hpart => ?_
    rw [prior_part_of_lastOther?_eq_none hpart hother]
    exact Frame.read_zero (Size.isPart_of_mem_parts hpart) address
  | some f =>
    simp only [Option.mem_some_iff, forall_eq', Option.getD_some]
    refine forall₂_congr fun part hpart => ?_
    by_cases hsame : f.read part address = h.current.read part address
    · rw [hsame, eq_comm (b := h.prior part address), prior_eq_current_iff]
      simp
    · rw [prior, lastOther?_part hpart hother hsame]
      simp [hsame]

/-- **Merges do not make up for each other.**  Where the last other value of a whole has a part that
the bits of the part allow for, that part is the last other value of the part itself: otherwise
the part would be what it was, and its bits, having no other value, always zero. -/
theorem prior_eq_of_whole (hpart : part ∈ whole.parts) (hne : part.parts ≠ [])
    (hbits : ∀ bit ∈ part.parts,
      (h.priorFrame whole address).read bit address = h.prior bit address) :
    h.prior part address = (h.priorFrame whole address).read part address := by
  have hisPart := Size.isPart_of_parts_ne_nil hne
  cases hother : h.lastOther? whole address with
  | none =>
    rw [priorFrame, hother, prior_part_of_lastOther?_eq_none hpart hother]
    exact (Frame.read_zero hisPart address).symm
  | some f =>
    have hframe : h.priorFrame whole address = f := by rw [priorFrame, hother]; rfl
    rw [hframe] at hbits ⊢
    by_cases hsame : f.read part address = h.current.read part address
    · have hzero : ∀ g ∈ h.frames, g.read part address = 0 := by
        intro g hg
        rw [← Frame.read_zero hisPart address, Frame.read_eq_iff hne]
        intro bit hbit
        rw [Frame.read_zero (Size.isPart_of_mem_parts hbit)]
        have hcurrent : h.prior bit address = h.current.read bit address :=
          (hbits bit hbit).symm.trans (Frame.read_part_eq hbit hsame)
        exact prior_eq_current_iff.mp hcurrent g hg
      rw [prior_of_forall_eq_zero hzero, hsame, hzero h.current List.mem_cons_self]
    · rw [prior, lastOther?_part hpart hother hsame]
      rfl

/-- Reads that are neither prior nor decimal look at one frame. -/
theorem exists_frame_of_kind (h : History) {kind : OperandKind}
    (hmemory : (Operand.mk kind size address).isMemory = true) (hbcd : kind ≠ .bcd)
    (hprior : kind ≠ .prior) :
    ∃ f : Frame, ∀ size address, h.read ⟨kind, size, address⟩ = f.read size address := by
  cases kind with
  | current => exact ⟨h.current, fun _ _ => rfl⟩
  | previous => exact ⟨h.previous, fun _ _ => rfl⟩
  | prior => exact absurd rfl hprior
  | bcd => exact absurd rfl hbcd
  | unused => cases hmemory
  | literal => cases hmemory

end History

/-! ## One merge -/

namespace Clause
variable {read : Reading}

theorem plainsHold_eq_true {group : List Clause} : plainsHold read group = true ↔
    ∀ c ∈ group, c.isPlain = true → c.truthBy read = true := by
  simp only [plainsHold, List.all_eq_true, Bool.or_eq_true, Bool.not_eq_true', or_iff_not_imp_left,
    Bool.not_eq_false]

theorem plainsHold_of_perm {a b : List Clause} (h : a.Perm b) :
    plainsHold read a = plainsHold read b := h.all_eq

theorem plainsHold_append (a b : List Clause) :
    plainsHold read (a ++ b) = (plainsHold read a && plainsHold read b) := List.all_append

end Clause

namespace EqualityTest
variable {group : List Clause} {found : Found} {parts : List (EqualityTest × Nat)} {h : History}

theorem holdsBy_iff {read : Reading} {t : EqualityTest} :
    t.holdsBy read = true ↔ read t.operand = t.value := by
  rw [holdsBy, beq_iff_eq]

/-- In one frame, the test of a whole holds when those of its parts do. -/
theorem IsWhole.holdsBy_frame (hwhole : IsWhole group found parts) (f : Frame) :
    f.read found.2.size found.2.address = found.2.value ↔
      ∀ p ∈ parts, f.read p.1.size found.2.address = p.1.value := by
  have hframe : found.2.holdsBy f.reading = true ↔ ∀ p ∈ parts, p.1.holdsBy f.reading = true :=
    hwhole.holds_of_byte (UInt8.toNat_lt (f.byte found.2.address)) fun size hsize =>
      f.toNat_read hsize found.2.address
  rw [holdsBy_iff] at hframe
  refine hframe.trans (forall₂_congr fun p hp => ?_)
  rw [holdsBy_iff, (hwhole.operand_of_mem hp).2]
  rfl

/-- There is a test for each part. -/
theorem IsWhole.forall_mem_parts (hwhole : IsWhole group found parts) {P : Size → Prop}
    (hall : ∀ p ∈ parts, P p.1.size) :
    ∀ part ∈ found.2.size.parts, P part := by
  intro part hpart
  rw [← hwhole.sizes] at hpart
  obtain ⟨p, hp, rfl⟩ := List.mem_map.mp hpart
  exact hall p hp

theorem IsWhole.kind_ne_prior (hwhole : IsWhole group found parts)
    (hnone : ∀ c ∈ group, c.terminal.left.kind ≠ .prior) : found.2.kind ≠ .prior := by
  obtain ⟨c, hmem, t, hc, hkind⟩ := hwhole.exists_clause
  have hleft : c.terminal.left.kind = t.kind :=
    congrArg Operand.kind (isMadeBy_of_ofClause? hc).left
  rw [← hkind, ← hleft]
  exact hnone c hmem

section Prior
variable (hwhole : IsWhole group found parts) (hkind : found.2.kind = .prior)
include hwhole hkind

/-- The test of a prior read holds where the frame that it looks back to passes those of its parts. -/
theorem IsWhole.holdsBy_prior : found.2.holdsBy h.read = true ↔ ∀ p ∈ parts,
    (h.priorFrame found.2.size found.2.address).read p.1.size found.2.address = p.1.value := by
  rw [holdsBy_iff, operand, hkind, ← hwhole.holdsBy_frame]
  show h.prior _ _ = _ ↔ _
  rw [History.prior_eq_read (Size.isPart_of_parts_ne_nil hwhole.parts_ne_nil)]

theorem IsWhole.holdsBy_part {p : EqualityTest × Nat} (hp : p ∈ parts) :
    p.1.holdsBy h.read = true ↔ h.prior p.1.size found.2.address = p.1.value := by
  rw [holdsBy_iff, (hwhole.operand_of_mem hp).2, hkind]
  rfl

/-- **A prior read whose test holds beside those of its parts keeps together.** -/
theorem IsWhole.keepsTogether (hholds : found.2.holdsBy h.read = true)
    (hparts : ∀ p ∈ parts, p.1.holdsBy h.read = true) :
    h.KeepsTogether found.2.size found.2.address := by
  refine History.keepsTogether_iff.mpr (hwhole.forall_mem_parts fun p hp => ?_)
  rw [(hwhole.holdsBy_prior hkind).mp hholds p hp, (hwhole.holdsBy_part hkind hp).mp (hparts p hp)]

end Prior

/-- **A whole that keeps together passes its test when its parts pass theirs.** -/
theorem IsWhole.holdsBy_iff_of_keepsTogether (hwhole : IsWhole group found parts)
    (hkeeps : found.2.kind = .prior → h.KeepsTogether found.2.size found.2.address) :
    found.2.holdsBy h.read = true ↔ ∀ p ∈ parts, p.1.holdsBy h.read = true := by
  obtain ⟨hmemory, hbcd⟩ := hwhole.isMemory
  by_cases hkind : found.2.kind = .prior
  · rw [hwhole.holdsBy_prior hkind]
    refine forall₂_congr fun p hp => ?_
    rw [hwhole.holdsBy_part hkind hp,
      History.keepsTogether_iff.mp (hkeeps hkind) p.1.size (hwhole.operand_of_mem hp).1]
  · obtain ⟨f, hf⟩ := h.exists_frame_of_kind hmemory hbcd hkind
    refine hwhole.holds_of_byte (UInt8.toNat_lt (f.byte found.2.address)) fun size hsize => ?_
    rw [hf, f.toNat_read hsize]

/-- **What a merge exchanges**: the plain clauses that stay say what they said, the parts are tested
before it and the whole is tested after it. -/
theorem IsWhole.plainsHold_iff (hwhole : IsWhole group found parts) :
    ∃ rest : List Clause, (∀ c ∈ rest, c ∈ group) ∧
      (∀ c ∈ Clause.replaceAt group found.1 (.single found.2.row),
        c = .single found.2.row ∨ c ∈ rest) ∧
      ∀ read, (Clause.plainsHold read group = true ↔
          (∀ p ∈ parts, p.1.holdsBy read = true) ∧ Clause.plainsHold read rest = true) ∧
        (Clause.plainsHold read (Clause.replaceAt group found.1 (.single found.2.row)) = true ↔
          found.2.holdsBy read = true ∧ Clause.plainsHold read rest = true) := by
  obtain ⟨rest, hgroup, hresult⟩ := hwhole.perm_replaceAt (.single found.2.row)
  have hrow := isMadeBy_of_ofClause? (ofClause?_row hwhole.isMemory.1 hwhole.isMemory.2)
  refine ⟨rest, fun c hc => hgroup.mem_iff.mpr (List.mem_append_right _ hc),
    fun c hc => List.mem_cons.mp (hresult.mem_iff.mp hc), fun read => ⟨?_, ?_⟩⟩
  · rw [Clause.plainsHold_of_perm hgroup, Clause.plainsHold_append, Bool.and_eq_true]
    refine and_congr_left' (Clause.plainsHold_eq_true.trans ⟨?_, ?_⟩)
    · intro hall p hp
      obtain ⟨c, hget, hc⟩ := hwhole.clause p hp
      have hmade := isMadeBy_of_ofClause? hc
      rw [← hmade.truthBy_eq]
      exact hall c (List.mem_filterMap.mpr ⟨p.2, List.mem_map_of_mem hp, hget⟩) hmade.isPlain
    · intro hall c hc _
      obtain ⟨p, hp, ht⟩ := hwhole.exists_part hc
      rw [(isMadeBy_of_ofClause? ht).truthBy_eq]
      exact hall p hp
  · rw [Clause.plainsHold_of_perm hresult, Clause.plainsHold, List.all_cons, Bool.and_eq_true,
      hrow.isPlain, hrow.truthBy_eq]
    rfl

end EqualityTest

/-! ## All merges of a group -/

/-- Whether every prior read whose parts were merged keeps together. -/
def History.KeepsMerged (h : History) (events : List Event) : Prop :=
  ∀ count row, Event.bitsMerged count row ∈ events → row.left.kind = .prior →
    h.KeepsTogether row.left.size row.left.value

theorem History.keepsMerged_nil (h : History) : h.KeepsMerged [] := fun _ _ hmem => by cases hmem

theorem History.keepsMerged_append {h : History} {a b : List Event} :
    h.KeepsMerged (a ++ b) ↔ h.KeepsMerged a ∧ h.KeepsMerged b := by
  simp only [KeepsMerged, List.mem_append, or_imp, forall_and]

theorem History.keepsMerged_singleton {h : History} {count : Nat} {test : EqualityTest} :
    h.KeepsMerged [.bitsMerged count test.row] ↔
      (test.kind = .prior → h.KeepsTogether test.size test.address) := by
  constructor
  · intro hkeeps
    exact hkeeps count test.row List.mem_cons_self
  · intro hfirst n row hmem
    obtain ⟨rfl, rfl⟩ := Event.bitsMerged.inj (List.mem_singleton.mp hmem)
    exact hfirst

/-! ### The invariant of a group that holds -/

/-- A test of a prior read that stands for tests of its bits which hold, if it tests a nibble. -/
structure EqualityTest.StandsForBits (t : EqualityTest) (h : History) : Prop where
  kind : t.kind = .prior
  parts_ne_nil : t.size.parts ≠ []
  bits : t.size ≠ .byte → ∀ f : Frame, f.read t.size t.address = t.value →
    ∀ bit ∈ t.size.parts, f.read bit t.address = h.prior bit t.address

/-- **The invariant of merging a group that holds**: a plain clause holds, or it stands for clauses
that did. -/
def Clause.IsBacked (c : Clause) (h : History) : Prop :=
  (c.isPlain = true → c.truthBy h.read = true) ∨
    ∃ t, EqualityTest.ofClause? c = some t ∧ t.StandsForBits h

namespace EqualityTest.IsWhole
variable {h : History} {group : List Clause} {found : Found} {parts : List (EqualityTest × Nat)}
  (hwhole : IsWhole group found parts) (hbacked : ∀ c ∈ group, c.IsBacked h)
include hwhole hbacked

theorem holdsBy_or_standsForBits {p : EqualityTest × Nat} (hp : p ∈ parts) :
    p.1.holdsBy h.read = true ∨ p.1.StandsForBits h := by
  obtain ⟨c, hget, hc⟩ := hwhole.clause p hp
  rcases hbacked c (List.mem_of_getElem? hget) with hholds | ⟨t, ht, hstands⟩
  · have hmade := isMadeBy_of_ofClause? hc
    exact .inl ((hmade.truthBy_eq h.read).symm.trans (hholds hmade.isPlain))
  · obtain rfl : p.1 = t := Option.some.inj (hc.symm.trans ht)
    exact .inr hstands

/-- The test of the whole holds, or it stands for the tests of its bits. -/
theorem isBacked_row : (Clause.single found.2.row).IsBacked h := by
  have hrow := ofClause?_row hwhole.isMemory.1 hwhole.isMemory.2
  by_cases hkind : found.2.kind = .prior
  · refine .inr ⟨found.2, hrow, hkind, hwhole.parts_ne_nil, fun hbyte f hf => ?_⟩
    refine hwhole.forall_mem_parts fun p hp => ?_
    have hleaf : p.1.size.parts = [] :=
      (Size.parts_of_mem_parts (hwhole.operand_of_mem hp).1).resolve_right fun hwide =>
        hbyte hwide.1
    have hholds : p.1.holdsBy h.read = true :=
      (hwhole.holdsBy_or_standsForBits hbacked hp).resolve_right fun hstands =>
        hstands.parts_ne_nil hleaf
    rw [hwhole.holdsBy_frame f |>.mp hf p hp, (hwhole.holdsBy_part hkind hp).mp hholds]
  · refine .inl fun _ => ?_
    rw [(isMadeBy_of_ofClause? hrow).truthBy_eq,
      hwhole.holdsBy_iff_of_keepsTogether fun hprior => absurd hprior hkind]
    intro p hp
    have hsame : p.1.kind = found.2.kind := congrArg Operand.kind (hwhole.operand_of_mem hp).2
    exact (hwhole.holdsBy_or_standsForBits hbacked hp).resolve_right fun hstands =>
      hkind (hsame ▸ hstands.kind)

/-- Where the test of the whole holds, those of its parts did. -/
theorem forall_holdsBy (hholds : found.2.holdsBy h.read = true) :
    ∀ p ∈ parts, p.1.holdsBy h.read = true := by
  intro p hp
  rcases hwhole.holdsBy_or_standsForBits hbacked hp with hpart | hstands
  · exact hpart
  obtain ⟨hsize, hoperand⟩ := hwhole.operand_of_mem hp
  have haddress : p.1.address = found.2.address := congrArg Operand.value hoperand
  have hkind : found.2.kind = .prior :=
    (congrArg Operand.kind hoperand).symm.trans hstands.kind
  have hnibble : p.1.size ≠ .byte :=
    ((Size.parts_of_mem_parts hsize).resolve_left hstands.parts_ne_nil).2
  have hread := (hwhole.holdsBy_prior hkind).mp hholds p hp
  have hbits := hstands.bits hnibble (h.priorFrame found.2.size found.2.address)
  rw [haddress] at hbits
  rw [hwhole.holdsBy_part hkind hp,
    History.prior_eq_of_whole hsize hstands.parts_ne_nil (hbits hread), hread]

end EqualityTest.IsWhole

/-! ### Steps and runs -/

namespace Clause
open EqualityTest
variable {h : History} {group group' : List Clause} {event : Event}

/-- Where the merged reads keep together, a group holds when it did before. -/
theorem plainsHold_bitStep (hstep : bitStep group = some (group', event))
    (hkeeps : h.KeepsMerged [event]) : plainsHold h.read group' = plainsHold h.read group := by
  obtain ⟨found, parts, hwhole, heq⟩ := exists_isWhole_of_bitStep hstep
  obtain ⟨rfl, rfl⟩ := Prod.mk.inj heq
  obtain ⟨rest, -, -, hplain⟩ := hwhole.plainsHold_iff
  obtain ⟨hbefore, hafter⟩ := hplain h.read
  rw [Bool.eq_iff_iff, hbefore, hafter,
    hwhole.holdsBy_iff_of_keepsTogether (History.keepsMerged_singleton.mp hkeeps)]

/-- **A merge that makes a group hold** had a group that held before it, and merged a read that keeps
together. -/
theorem plainsHold_of_bitStep (hstep : bitStep group = some (group', event))
    (hbacked : ∀ c ∈ group, c.IsBacked h) :
    (∀ c ∈ group', c.IsBacked h) ∧ (plainsHold h.read group' = true →
      plainsHold h.read group = true ∧ h.KeepsMerged [event]) := by
  obtain ⟨found, parts, hwhole, heq⟩ := exists_isWhole_of_bitStep hstep
  obtain ⟨rfl, rfl⟩ := Prod.mk.inj heq
  obtain ⟨rest, hrest, hnext, hplain⟩ := hwhole.plainsHold_iff
  obtain ⟨hbefore, hafter⟩ := hplain h.read
  constructor
  · intro c hc
    rcases hnext c hc with rfl | hc
    · exact hwhole.isBacked_row hbacked
    · exact hbacked c (hrest c hc)
  · intro hholds
    obtain ⟨hholds, hothers⟩ := hafter.mp hholds
    have hparts := hwhole.forall_holdsBy hbacked hholds
    exact ⟨hbefore.mpr ⟨hparts, hothers⟩, History.keepsMerged_singleton.mpr fun hkind =>
      hwhole.keepsTogether hkind hholds hparts⟩

/-- **Merging changes nothing about a group whose merged reads keep together.** -/
theorem plainsHold_mergeBitTests (group : List Clause)
    (hkeeps : h.KeepsMerged (mergeBitTests group).events) :
    plainsHold h.read (mergeBitTests group).value = plainsHold h.read group := by
  revert hkeeps
  refine Logged.exhaust_induction (motive := fun group result => h.KeepsMerged result.events →
    plainsHold h.read result.value = plainsHold h.read group) (fun _ _ => rfl) ?_ _ group
  intro group group' event result hstep ih hkeeps
  obtain ⟨hfirst, hrest⟩ := History.keepsMerged_append.mp hkeeps
  rw [ih hrest, plainsHold_bitStep hstep hfirst]

/-- **A group that holds before and after all its merges** only merged reads that keep together. -/
theorem keepsMerged_mergeBitTests (hbefore : plainsHold h.read group = true)
    (hafter : plainsHold h.read (mergeBitTests group).value = true) :
    h.KeepsMerged (mergeBitTests group).events := by
  have hbacked : ∀ c ∈ group, c.IsBacked h := fun c hc => .inl (plainsHold_eq_true.mp hbefore c hc)
  suffices hrun : (∀ c ∈ group, c.IsBacked h) →
      plainsHold h.read (mergeBitTests group).value = true →
      plainsHold h.read group = true ∧ h.KeepsMerged (mergeBitTests group).events from
    (hrun hbacked hafter).2
  refine Logged.exhaust_induction (motive := fun group result => (∀ c ∈ group, c.IsBacked h) →
    plainsHold h.read result.value = true →
    plainsHold h.read group = true ∧ h.KeepsMerged result.events)
    (fun _ _ hholds => ⟨hholds, h.keepsMerged_nil⟩) ?_ _ group
  intro group group' event result hstep ih hbacked hholds
  obtain ⟨hbacked', hback⟩ := plainsHold_of_bitStep hstep hbacked
  obtain ⟨hholds', hrest⟩ := ih hbacked' hholds
  obtain ⟨hholds, hfirst⟩ := hback hholds'
  exact ⟨hholds, History.keepsMerged_append.mpr ⟨hfirst, hrest⟩⟩

/-- Where no clause ends in a prior read, none of the reads that are merged is prior. -/
theorem keepsMerged_of_kind_ne (hnone : ∀ c ∈ group, c.terminal.left.kind ≠ .prior) :
    h.KeepsMerged (mergeBitTests group).events := by
  revert hnone
  refine Logged.exhaust_induction (motive := fun group result =>
    (∀ c ∈ group, c.terminal.left.kind ≠ .prior) → h.KeepsMerged result.events)
    (fun _ _ => h.keepsMerged_nil) ?_ _ group
  intro group group' event result hstep ih hnone
  obtain ⟨found, parts, hwhole, heq⟩ := exists_isWhole_of_bitStep hstep
  obtain ⟨rfl, rfl⟩ := Prod.mk.inj heq
  obtain ⟨rest, hrest, hnext, -⟩ := hwhole.plainsHold_iff
  have hkind : found.2.kind ≠ .prior := hwhole.kind_ne_prior hnone
  refine History.keepsMerged_append.mpr ⟨History.keepsMerged_singleton.mpr fun hprior =>
    absurd hprior hkind, ih fun c hc => ?_⟩
  rcases hnext c hc with rfl | hc
  · exact hkind
  · exact hnone c (hrest c hc)

/-- **Merging bit tests over a history**: a group says after it what it said before exactly when
each prior read whose parts were merged keeps together, or when it says no both times.  So it always
does where no clause ends in a prior read. -/
theorem plainsHold_mergeBitTests_iff (h : History) (group : List Clause) :
    (plainsHold h.read (mergeBitTests group).value = plainsHold h.read group ↔
      h.KeepsMerged (mergeBitTests group).events ∨
        plainsHold h.read group = false ∧ plainsHold h.read (mergeBitTests group).value = false) ∧
    ((∀ c ∈ group, c.terminal.left.kind ≠ .prior) →
      plainsHold h.read (mergeBitTests group).value = plainsHold h.read group) := by
  refine ⟨⟨?_, ?_⟩, fun hnone => plainsHold_mergeBitTests group (keepsMerged_of_kind_ne hnone)⟩
  · intro hsame
    cases hbefore : plainsHold h.read group with
    | true => exact .inl (keepsMerged_mergeBitTests hbefore (hsame.trans hbefore))
    | false => exact .inr ⟨rfl, hsame.trans hbefore⟩
  · rintro (hkeeps | ⟨hbefore, hafter⟩)
    · exact plainsHold_mergeBitTests group hkeeps
    · rw [hbefore, hafter]

/-- The nibbles of all bytes go from 0 to 1 and then to 3. -/
def climbingNibbles : History where
  current := ⟨fun _ => 3⟩
  past := [⟨fun _ => 1⟩, .zero]
  decimal := id

/-- The bits of a nibble that is now 3 were all 0 before they changed. -/
def bitsWereClear : List Clause :=
  .single (EqualityTest.row ⟨.current, 0x10, .lowNibble, 3⟩) ::
    Size.lowNibble.parts.map fun size => .single (EqualityTest.row ⟨.prior, 0x10, size, 0⟩)

theorem plainsHold_mergeBitTests_iff_climbingNibbles :
    plainsHold climbingNibbles.read bitsWereClear = true ∧
      plainsHold climbingNibbles.read (mergeBitTests bitsWereClear).value = false ∧
      ¬ climbingNibbles.KeepsMerged (mergeBitTests bitsWereClear).events := by
  have hbefore : plainsHold climbingNibbles.read bitsWereClear = true := by decide +kernel
  have hafter : plainsHold climbingNibbles.read (mergeBitTests bitsWereClear).value = false := by
    decide +kernel
  refine ⟨hbefore, hafter, fun hkeeps => ?_⟩
  have hsame := (plainsHold_mergeBitTests_iff climbingNibbles bitsWereClear).1.mpr (.inl hkeeps)
  rw [hbefore, hafter] at hsame
  cases hsame

end Clause
end MemoryTrigger

import MemoryTrigger.Meaning.FirstFrame

/-! # Memory over several frames

A history is what memory held in the frames so far.  Reads of the current and of the previous frame
look at one frame each.  A prior read looks back to the last frame in which that same read gave
another value, so that reads of different sizes may look back to different frames, even at one
address.

Which filters hold in the current frame depends on what the reads give and on nothing else, as long
as no hits are counted (`Clause.truthBy`).  With the reads of a memory in one frame this is the truth
that a filter has in its first frame. -/
namespace MemoryTrigger

/-! ## Parts of a byte -/

namespace Size

/-- Whether a read of the size sees one byte or a part of it. -/
def isPart : Size → Bool
  | bit _ | lowNibble | highNibble | byte => true
  | _ => false

/-- What a read of the size sees of a byte. -/
def ofByte (size : Size) (value : Nat) : Nat :=
  match size with
  | bit index => value >>> index.val % 2
  | lowNibble => value % 16
  | highNibble => value / 16
  | _ => value

/-- The sizes that a byte or a nibble falls into, the lowest part first. -/
def parts : Size → List Size
  | lowNibble => [0, 1, 2, 3].filterMap ofBitIndex?
  | highNibble => [4, 5, 6, 7].filterMap ofBitIndex?
  | byte => [lowNibble, highNibble]
  | _ => []

end Size

/-! ## Frames -/

/-- The bytes of memory in one frame. -/
structure Frame where
  byte : UInt32 → UInt8

namespace Frame

/-- A frame that is zero everywhere. -/
def zero : Frame := ⟨fun _ => 0⟩

/-- The number that the bytes in some places behind an address make up, the lowest byte first. -/
def number (f : Frame) (address : UInt32) (places : List UInt32) : UInt32 :=
  places.foldr (fun place rest => (f.byte (address + place)).toUInt32 ||| rest <<< 8) 0

/-- What a read gives in the frame. -/
def read (f : Frame) (size : Size) (address : UInt32) : UInt32 :=
  match size with
  | .word => f.number address [0, 1]
  | .tbyte => f.number address [0, 1, 2]
  | .dword => f.number address [0, 1, 2, 3]
  | .wordBE => f.number address [1, 0]
  | .tbyteBE => f.number address [2, 1, 0]
  | .dwordBE => f.number address [3, 2, 1, 0]
  | .bitCount => .ofNat ((List.range 8).countP (f.byte address).toNat.testBit)
  | part => .ofNat (part.ofByte (f.byte address).toNat)

end Frame

/-! ## Histories -/

/-- What memory held in a frame and in those before it.  How a read is decoded as binary-coded
decimal is left open. -/
structure History where
  current : Frame
  /-- The frames before the current one, the latest first. -/
  past : List Frame
  decimal : UInt32 → UInt32

namespace History

/-- All frames, the latest first. -/
def frames (h : History) : List Frame := h.current :: h.past

/-- The frame before the current one.  In the first frame that is the current one itself. -/
def previous (h : History) : Frame := h.past.headD h.current

/-- The last frame in which a read gave another value than it gives now. -/
def lastOther? (h : History) (size : Size) (address : UInt32) : Option Frame :=
  h.past.find? fun f => f.read size address != h.current.read size address

/-- The last other value of a read, and zero if it never changed. -/
def prior (h : History) (size : Size) (address : UInt32) : UInt32 :=
  (h.lastOther? size address).elim 0 (·.read size address)

/-- What an operand reads at the end of a history. -/
def read (h : History) (o : Operand) : UInt32 :=
  match o.kind with
  | .current => h.current.read o.size o.value
  | .previous => h.previous.read o.size o.value
  | .prior => h.prior o.size o.value
  | .bcd => h.decimal (h.current.read o.size o.value)
  | .unused | .literal => 0

/-- **Whether a read keeps together**: in the last frame in which it was another, each of its parts
was, except for parts that have been zero in every frame. -/
def KeepsTogether (h : History) (size : Size) (address : UInt32) : Prop :=
  ∀ f ∈ h.lastOther? size address, ∀ part ∈ size.parts,
    f.read part address ≠ h.current.read part address ∨ ∀ g ∈ h.frames, g.read part address = 0

instance (h : History) (size : Size) (address : UInt32) :
    Decidable (h.KeepsTogether size address) :=
  inferInstanceAs (Decidable (∀ f ∈ h.lastOther? size address, ∀ part ∈ size.parts,
    f.read part address ≠ h.current.read part address ∨ ∀ g ∈ h.frames, g.read part address = 0))

end History

/-! ## Truth under any way of reading -/

/-- What each operand that reads memory gives. -/
abbrev Reading : Type := Operand → UInt32

/-- The value of an operand whose reads are moved by `base`. -/
def Operand.valueBy (read : Reading) (base : UInt32) (o : Operand) : UInt32 :=
  match o.kind with
  | .literal => o.value
  | .unused => 0
  | _ => read { o with value := o.value + base }

namespace Row

/-- The value that a modifier row feeds into the row behind it. -/
def fedBy (read : Reading) (base : UInt32) (r : Row) : UInt32 :=
  match r.operator with
  | .arith a => a.apply (r.left.valueBy read base) (r.right.valueBy read base)
  | _ => r.left.valueBy read base

/-- Whether the comparison of a row holds, with `sum` added to its left side. -/
def testBy (read : Reading) (base sum : UInt32) (r : Row) : Bool :=
  (r.operator.test? (r.left.valueBy read base + sum) (r.right.valueBy read base)).getD false

end Row

namespace ChainState

/-- The truth of a comparing row behind the rows so far. -/
def truthBy (read : Reading) (s : ChainState) (r : Row) : Bool :=
  s.joined (r.testBy read s.base s.sum)

/-- What a combining row prepares for the next one. -/
def stepBy (read : Reading) (s : ChainState) (r : Row) : ChainState :=
  match r.role with
  | .addAddress => { s with base := r.fedBy read s.base }
  | .addSource => { s with base := 0, sum := s.sum + r.fedBy read s.base }
  | .subSource => { s with base := 0, sum := s.sum - r.fedBy read s.base }
  | .andNext => { hits := s.hits, pending := some (.and, s.truthBy read r) }
  | .orNext => { hits := s.hits, pending := some (.or, s.truthBy read r) }
  | .addHits => { hits := s.hits + (s.truthBy read r).toInt }
  | .subHits => { hits := s.hits - (s.truthBy read r).toInt }
  | _ => { hits := s.hits }

end ChainState

namespace Clause

/-- Whether the comparisons of a clause hold, whatever hits it counts. -/
def truthBy (read : Reading) (c : Clause) : Bool :=
  (c.lead.foldl (ChainState.stepBy read) {}).truthBy read c.terminal

/-- In its first frame, a clause without a hit target holds when its comparisons do. -/
theorem holdsIn_eq_truthBy (m : Memory) {c : Clause} (h : c.terminal.hits = 0) :
    c.holdsIn m = c.truthBy m.read := by
  have hstep : ChainState.step m = ChainState.stepBy m.read := rfl
  rw [holdsIn, hstep]
  exact if_pos h

/-- Whether all filters of a group hold that count no hits. -/
def plainsHold (read : Reading) (group : List Clause) : Bool :=
  group.all fun c => !c.isPlain || c.truthBy read

end Clause
end MemoryTrigger

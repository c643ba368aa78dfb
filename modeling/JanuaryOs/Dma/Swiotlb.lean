import JanuaryOs.Lib.Bitmap
import JanuaryOs.Lib.Memory
import JanuaryOs.Phys.Buddy

/-!
# The software I/O TLB (`mm/dma/swiotlb.rs`): bounce buffers in low memory

Physical memory is read and written through the direct map, which maps all of
it, so the copies of the source are copies between physical addresses here.
-/

namespace JanuaryOs.Dma

open Lib Phys

/-- What a device that knows 32 address bits can reach. -/
def dmaAddrSize : ℕ := 4 * 1024 * 1024 * 1024

def maxSlots : ℕ := 16384

inductive DmaDirection
  | bidirectional
  | toDevice
  | fromDevice
  | none
  deriving DecidableEq, Repr

/-- The CPU's data goes to the device. -/
def DmaDirection.copiesIn : DmaDirection → Bool
  | .toDevice | .bidirectional => true
  | .fromDevice | .none => false

/-- The device's data comes back to the CPU. -/
def DmaDirection.copiesBack : DmaDirection → Bool
  | .fromDevice | .bidirectional => true
  | .toDevice | .none => false

/-- What is known about a mapping, kept at its first slot. -/
structure SlotMeta where
  origPhys : ℕ
  size : ℕ
  slots : ℕ
  dir : DmaDirection
  valid : Bool
  deriving DecidableEq, Repr

def SlotMeta.empty : SlotMeta := ⟨0, 0, 0, .none, false⟩

structure Swiotlb where
  bufferPhys : ℕ
  bufferSize : ℕ
  nrSlots : ℕ
  slotBitmap : Bitmap
  slotMeta : ℕ → SlotMeta
  usedSlots : ℕ
  nextSlot : ℕ

/-- The memory the slots are in. -/
structure BounceBuffer where
  phys : ℕ
  slots : ℕ
  slots_le : slots ≤ maxSlots
  fits : phys + slots * pageSize < 2 ^ 64

/-- The slots for a size, rounded up with an addition that may wrap. -/
def slotsFor (size : ℕ) : ℕ := u64Add size (pageSize - 1) / pageSize

def copyBetweenPhys (mem : ByteMem) (dst src size : ℕ) : ByteMem := fun x =>
  if dst ≤ x ∧ x < dst + size then mem (src + (x - dst)) else mem x

namespace Swiotlb

/-! ### Set-up -/

/-- The loop of `alloc_lowmem_buffer` over the orders, from above. -/
def allocOrders (requestedSlots : ℕ) : ℕ → PhysState → (ℕ × ℕ) × PhysState
  | 0, s =>
    match s.allocPages 0 ⟨false, true, false⟩ with
    | (some pfn, s) => ((pfn * pageSize, min 1 requestedSlots), s)
    | (none, s) => ((0, 0), s)
  | order + 1, s =>
    match s.allocPages (order + 1) ⟨false, true, false⟩ with
    | (some pfn, s) => ((pfn * pageSize, min (2 ^ (order + 1)) requestedSlots), s)
    | (none, s) => allocOrders requestedSlots order s

/-- `alloc_lowmem_buffer`: as many contiguous pages of low memory as the page
allocator gives. -/
def allocLowmemBuffer (requestedSlots : ℕ) (s : PhysState) : (ℕ × ℕ) × PhysState :=
  if requestedSlots = 0 then ((0, 0), s)
  else allocOrders requestedSlots (min (Nat.clog 2 requestedSlots) (maxOrder - 1)) s

/-- The slots that `Swiotlb::new` asks for. -/
def requestedSlots (size : ℕ) : ℕ := min (slotsFor size) maxSlots

/-- `Swiotlb::new`, with the buffer that was found. -/
def new (buffer : BounceBuffer) : Swiotlb where
  bufferPhys := buffer.phys
  bufferSize := buffer.slots * pageSize
  nrSlots := buffer.slots
  slotBitmap := .empty
  slotMeta := fun _ => .empty
  usedSlots := 0
  nextSlot := 0

/-! ### Slots -/

variable (s : Swiotlb)

def isSlotUsed (slot : ℕ) : Bool := s.slotBitmap.get slot

/-- All of `count` slots from `base` on are free. -/
def allFree (base count : ℕ) : Bool :=
  (List.range count).all fun i => !s.isSlotUsed (base + i)

def findContiguousSlots (start count : ℕ) : Option ℕ :=
  if count = 0 ∨ s.nrSlots < count ∨ s.nrSlots ≤ start then none
  else
    let lastStart := s.nrSlots - count
    if lastStart < start then none
    else (List.range' start (lastStart + 1 - start)).find? fun base => s.allFree base count

/-- Where `alloc_slots` finds room: from the hint on, then from the beginning. -/
def findRoom (count : ℕ) : Option ℕ :=
  let start := s.nextSlot % s.nrSlots
  (s.findContiguousSlots start count).or
    (if 0 < start then s.findContiguousSlots 0 count else none)

def allocSlots (count : ℕ) : Option (ℕ × Swiotlb) :=
  if count = 0 ∨ s.nrSlots < count then none
  else
    match s.findRoom count with
    | none => none
    | some slot =>
      some (slot, { s with
        slotBitmap := Bitmap.setRange slot true count s.slotBitmap
        usedSlots := u64Add s.usedSlots count
        nextSlot := (slot + count) % max s.nrSlots 1 })

def freeSlots (start count : ℕ) : Swiotlb :=
  if count = 0 ∨ s.nrSlots ≤ start then s
  else
    let stop := min (start + count) s.nrSlots
    { s with
      slotBitmap := Bitmap.setRange start false (stop - start) s.slotBitmap
      usedSlots := u64Sub s.usedSlots (stop - start) }

/-! ### Mappings -/

/-- The device cannot reach the buffer. -/
def needsBounce (phys size : ℕ) : Bool :=
  size ≠ 0 && !(match checkedAdd phys size with
    | some stop => decide (stop ≤ dmaAddrSize)
    | none => false)

/-- `Swiotlb::map`. The result is a DMA address, zero for a failure. -/
def map (mem : ByteMem) (phys size : ℕ) (dir : DmaDirection) :
    ℕ × Swiotlb × ByteMem :=
  if !needsBounce phys size then (phys, s, mem)
  else if s.nrSlots = 0 ∨ s.bufferPhys = 0 then (0, s, mem)
  else
    let slotsNeeded := slotsFor size
    if slotsNeeded = 0 ∨ s.nrSlots < slotsNeeded then (0, s, mem)
    else
      match s.allocSlots slotsNeeded with
      | none => (0, s, mem)
      | some (slot, s) =>
        let dmaAddr := s.bufferPhys + slot * pageSize
        (dmaAddr,
          { s with
            slotMeta := Function.update s.slotMeta slot ⟨phys, size, slotsNeeded, dir, true⟩ },
          if dir.copiesIn then copyBetweenPhys mem dmaAddr phys size else mem)

def InBuffer (addr : ℕ) : Prop :=
  s.bufferPhys ≤ addr ∧ addr < s.bufferPhys + s.bufferSize
deriving Decidable

def slotOf (addr : ℕ) : ℕ := (addr - s.bufferPhys) / pageSize

/-- `Swiotlb::unmap`. An address at which no mapping starts is taken at its
word: so many slots from there on are given back as the caller's size says. -/
def unmap (mem : ByteMem) (addr size : ℕ) (dir : DmaDirection) : Swiotlb × ByteMem :=
  if ¬ s.InBuffer addr then (s, mem)
  else
    let slot := s.slotOf addr
    if s.nrSlots ≤ slot then (s, mem)
    else
      let info := s.slotMeta slot
      if !info.valid then (s.freeSlots slot (slotsFor size), mem)
      else
        let s := s.freeSlots slot info.slots
        ({ s with
            slotMeta := fun i =>
              if slot ≤ i ∧ i < slot + info.slots ∧ i < s.nrSlots then .empty else s.slotMeta i },
          if info.dir.copiesBack || dir.copiesBack then
            copyBetweenPhys mem info.origPhys addr (min info.size size)
          else mem)

end Swiotlb

end JanuaryOs.Dma

import JanuaryOs.Phys.Buddy
import JanuaryOs.Phys.Memblock

/-!
# Boot: from the early allocator to the buddy system (`mm/boot/setup.rs`)

The firmware's memory map, the range of the kernel and the page tables the boot
loader has left are parameters. Calls of the early allocator that may fail are
chained; the first error ends the chain, with the changes that were made so far.
-/

namespace JanuaryOs.Phys

/-! ### Chains of calls -/

namespace Memblock

/-- A call that may fail. -/
def Call : Type := Memblock → Except KernelError Unit × Memblock

namespace Call

/-- Nothing to do. -/
def done : Call := fun mb => (.ok (), mb)

def andThen (f g : Call) : Call := fun mb =>
  match f mb with
  | (.error e, mb) => (.error e, mb)
  | (.ok _, mb) => g mb

def forEach {α : Type} (f : α → Call) (l : List α) : Call :=
  l.foldr (fun a rest => (f a).andThen rest) done

end Call

end Memblock

open Memblock

/-! ### The early allocator -/

/-- A part of the firmware's memory map. -/
structure MemoryRegionInfo where
  physStart : ℕ
  pageCount : ℕ
  isUsable : Bool

/-- What is read in an entry of a page table. -/
structure BootEntry where
  present : Bool
  huge : Bool
  physAddr : ℕ

/-- The page tables at boot: the root in `CR3`, the number of levels, and what
the tables hold. -/
structure BootTables where
  root : ℕ
  levels : ℕ
  entries : ℕ → List BootEntry

/-- The entries that lead to another table. -/
def BootTables.children (tables : BootTables) (table : ℕ) : List BootEntry :=
  (tables.entries table).filter fun e => e.present && !e.huge

def reserveBootstrapTableLevel (tables : BootTables) : ℕ → ℕ → Call
  | 0, table => fun mb => mb.reserve table pageSize
  | level + 1, table =>
    Call.andThen (fun mb => mb.reserve table pageSize) <|
      if level = 0 then .done
      else .forEach (fun e => reserveBootstrapTableLevel tables level e.physAddr)
        (tables.children table)

def reserveBootstrapPageTables (tables : BootTables) : Call :=
  if tables.root = 0 then .done
  else reserveBootstrapTableLevel tables (max 4 (min tables.levels 5)) tables.root

inductive MmInitStage
  | none
  | memblock
  | buddy
  | slub
  | complete
  deriving DecidableEq

structure BootState where
  stage : MmInitStage
  memblockInitialized : Bool
  memblock : Memblock
  phys : PhysState

/-- The bytes of a part of the memory map. The product may wrap. -/
def MemoryRegionInfo.size (r : MemoryRegionInfo) : ℕ := r.pageCount * pageSize % 2 ^ 64

/-- The calls `init_memblock` makes. -/
def memblockCalls (tables : BootTables) (regions : List MemoryRegionInfo)
    (kernelStart kernelEnd : ℕ) : Call :=
  (Call.forEach (fun r mb => mb.add r.physStart r.size) (regions.filter (·.isUsable))).andThen <|
    Call.andThen (fun mb => mb.reserve 0 0x100000) <|
      Call.andThen (fun mb => mb.reserve kernelStart (u64Sub kernelEnd kernelStart)) <|
        reserveBootstrapPageTables tables

def initMemblock (s : BootState) (tables : BootTables) (regions : List MemoryRegionInfo)
    (kernelStart kernelEnd : ℕ) : Except KernelError Unit × BootState :=
  if s.memblockInitialized then (.error .alreadyExists, s)
  else
    match memblockCalls tables regions kernelStart kernelEnd .init with
    | (.error e, mb) => (.error e, { s with memblock := mb, memblockInitialized := true })
    | (.ok _, mb) =>
      (.ok (), { s with memblock := mb, memblockInitialized := true, stage := .memblock })

/-! ### The buddy system -/

/-- Bytes of a `Page`. -/
def pageStructSize : ℕ := 40

def pfnOverlapsReserved (mb : Memblock) (pfn : Pfn) : Bool :=
  let base := satMul u64Max pfn pageSize
  let stop := satAdd u64Max base pageSize
  mb.reserved.regions.any fun r =>
    r.size ≠ 0 ∧ base < satAdd u64Max r.base r.size ∧ stop > r.base

namespace PhysState

/-- Give a run of frames to the buddy system, if one has been started. -/
def flush (z : ZoneType) (pfn : Pfn) : Option Pfn → PhysState → PhysState
  | some start, s => if pfn > start then s.initZoneBuddy z start pfn else s
  | none, s => s

/-- The loop of `init_zone_buddy_filtered`, with the number of frames that are
left, and what follows it. -/
def filterLoop (reserved : Pfn → Bool) (z : ZoneType) :
    ℕ → Pfn → Option Pfn → PhysState → PhysState
  | 0, pfn, runStart, s => flush z pfn runStart s
  | left + 1, pfn, runStart, s =>
    if reserved pfn then filterLoop reserved z left (pfn + 1) none (flush z pfn runStart s)
    else filterLoop reserved z left (pfn + 1) (runStart.or (some pfn)) s

def initZoneBuddyFiltered (s : PhysState) (reserved : Pfn → Bool) (z : ZoneType)
    (startPfn endPfn maxPfn : ℕ) : PhysState :=
  let endPfn := min endPfn maxPfn
  if startPfn ≥ endPfn then s else filterLoop reserved z (endPfn - startPfn) startPfn none s

/-- What `init_buddy_system` does with a free region. -/
def addFreeRegion (reserved : Pfn → Bool) (maxPfn : ℕ) (s : PhysState) (base size : ℕ) :
    PhysState :=
  let dmaEnd := min (zoneDmaLimit / pageSize) maxPfn
  let dma32End := min (zoneDma32Limit / pageSize) maxPfn
  let startPfn := base / pageSize
  let endPfn := u64Add base size / pageSize
  let s :=
    if startPfn < dmaEnd then
      let zoneEnd := min endPfn dmaEnd
      if zoneEnd > startPfn then s.initZoneBuddyFiltered reserved .dma startPfn zoneEnd maxPfn
      else s
    else s
  let s :=
    if startPfn < dma32End ∧ endPfn > dmaEnd then
      let zoneStart := max startPfn dmaEnd
      let zoneEnd := min endPfn dma32End
      if zoneEnd > zoneStart then s.initZoneBuddyFiltered reserved .dma32 zoneStart zoneEnd maxPfn
      else s
    else s
  if endPfn > dma32End then
    let zoneStart := max startPfn dma32End
    let zoneEnd := min endPfn maxPfn
    if zoneEnd > zoneStart then s.initZoneBuddyFiltered reserved .normal zoneStart zoneEnd maxPfn
    else s
  else s

end PhysState

def initBuddySystem (s : BootState) (maxPfn : ℕ) : Except KernelError Unit × BootState :=
  if s.stage ≠ .memblock then (.error .invalidParam, s)
  else
    match s.memblock.alloc (maxPfn * pageStructSize % 2 ^ 64) 64 with
    | (addr, mb) =>
      if addr = 0 then (.error .noMemory, { s with memblock := mb })
      else
        let reserved := pfnOverlapsReserved mb
        let phys := mb.forEachFreeRegion
          (fun s base size => (s.addFreeRegion reserved maxPfn base size, true))
          (.boot maxPfn reserved)
        (.ok (), { s with stage := .buddy, memblock := mb, phys := phys })

/-- Reservations made in between. Nobody looks at the answers. -/
def reserveOthers (s : BootState) (ranges : List (ℕ × ℕ)) : BootState :=
  { s with memblock := ranges.foldl (fun mb r => (mb.reserve r.1 r.2).2) s.memblock }

end JanuaryOs.Phys

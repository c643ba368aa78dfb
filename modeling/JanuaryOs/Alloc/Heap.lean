import JanuaryOs.Alloc.Pages

/-!
# The global allocator of the kernel (`mm/alloc/heap.rs`)

There are two allocators behind it. `SimpleHeap` serves the early boot: a list
of segments, each with a pointer that only moves up until no block is in use.
Once the slab allocator is ready, every request goes to `kmalloc`; the pointer
`kmalloc` returned is kept in a header in front of the block, because the block
is aligned inside what was allocated. `dealloc` does not know which of the two
served a block, it looks for a header.

`kmalloc` and `kfree` are not part of this module: an allocation is given the
answer of `kmalloc`, and a deallocation answers with the pointer that is passed
to `kfree`. Segments come from the page allocator itself. Pointers are numbers,
the null pointer is zero.
-/

namespace JanuaryOs.Alloc

open Lib Phys

/-! ### Layouts -/

/-- `core::alloc::Layout`: the alignment is a power of two, and the size,
rounded up to it, does not exceed the largest `isize`. -/
structure Layout where
  size : ℕ
  align : ℕ
  pow : ∃ k, align = 2 ^ k
  fits : size + align ≤ 2 ^ 63
  deriving DecidableEq

/-- `align_up`. The sum may wrap; the mask of a power of two rounds down. -/
def alignUp (addr align : ℕ) : ℕ := u64Add addr (align - 1) / align * align

/-! ### Segments -/

def heapGrowMin : ℕ := 1048576

def maxHeapSegments : ℕ := 64

/-- `HeapSegment`. -/
structure HeapSegment where
  start : ℕ
  stop : ℕ
  next : ℕ
  deriving Repr, DecidableEq

namespace HeapSegment

def span (seg : HeapSegment) : Span := ⟨seg.start, seg.stop⟩

def alloc (seg : HeapSegment) (layout : Layout) : ℕ × HeapSegment :=
  let allocStart := alignUp seg.next layout.align
  match checkedAdd allocStart layout.size with
  | none => (0, seg)
  | some allocEnd =>
    if allocEnd > seg.stop then (0, seg) else (allocStart, { seg with next := allocEnd })

def reset (seg : HeapSegment) : HeapSegment := { seg with next := seg.start }

end HeapSegment

/-- The loop of `SimpleHeap::alloc` over the segments. -/
def allocIn (layout : Layout) : List HeapSegment → ℕ × List HeapSegment
  | [] => (0, [])
  | seg :: rest =>
    let (ptr, seg') := seg.alloc layout
    if ptr ≠ 0 then (ptr, seg' :: rest)
    else
      let (ptr, rest') := allocIn layout rest
      (ptr, seg' :: rest')

/-- `HeapState`. The segments behind `segment_count` are not looked at. -/
structure HeapState where
  initialized : Bool
  segments : List HeapSegment
  liveAllocations : ℕ

def HeapState.new : HeapState := ⟨false, [], 0⟩

/-! ### Growth -/

def maxChunkSize : ℕ := 2 ^ (maxOrder - 1) * pageSize

def orderForSize (bytes : ℕ) : Option ℕ :=
  if bytes = 0 then some 0
  else
    match checkedAdd bytes (pageSize - 1) with
    | none => none
    | some sum =>
      let pages := sum / pageSize
      if pages = 0 then some 0
      else
        let order := getOrder pages
        if order ≥ maxOrder then none else some order

def growTargetFor (minAllocSize : ℕ) : Option ℕ :=
  if minAllocSize > maxChunkSize then none
  else some (min (max minAllocSize heapGrowMin) maxChunkSize)

/-- The heap, the page allocator below it and the memory. -/
structure Machine where
  map : DirectMap
  pages : System
  heap : HeapState
  mem : ByteMem

namespace Machine

variable (m : Machine)

def setSegments (segments : List HeapSegment) : Machine :=
  { m with heap := { m.heap with segments := segments } }

/-- `append_segment_locked`. -/
def appendSegment (segment : HeapSegment) : Option Machine :=
  if m.heap.segments.length ≥ maxHeapSegments then none
  else some (m.setSegments (m.heap.segments ++ [segment]))

/-- `alloc_pages(order, GFP_KERNEL)`. -/
def allocPages (m : Machine) (order : ℕ) : Option ℕ × Machine :=
  ((m.pages.phys.allocPages order gfpKernel).1,
    { m with pages := m.pages.step (.allocPages order gfpKernel) })

/-- `SegmentReservation`. -/
structure Reservation where
  page : ℕ
  order : ℕ
  segment : HeapSegment

/-- `reserve_segment`. If the end of the block is not an address, the block is
not given back. -/
def reserveSegment (minBytes : ℕ) : Option Reservation × Machine :=
  match orderForSize (max minBytes pageSize) with
  | none => (none, m)
  | some order =>
    match m.allocPages order with
    | (none, m) => (none, m)
    | (some page, m) =>
      let start := m.map.physToVirt (page * pageSize)
      match checkedAdd start (2 ^ order * pageSize) with
      | none => (none, m)
      | some stop => (some ⟨page, order, ⟨start, stop, start⟩⟩, m)

/-- `release_reservation`, on the CPU that runs. -/
def releaseReservation (cpu : ℕ) (resv : Reservation) : Machine :=
  { m with pages := m.pages.step (.freePages cpu resv.page resv.order) }

def growHeapOnce (cpu minAllocSize : ℕ) : Bool × Machine :=
  match growTargetFor minAllocSize with
  | none => (false, m)
  | some target =>
    match m.reserveSegment target with
    | (none, m) => (false, m)
    | (some resv, m) =>
      match if m.heap.initialized then m.appendSegment resv.segment else none with
      | none => (false, m.releaseReservation cpu resv)
      | some m => (true, m)

/-- The loop of `init_heap`; every round adds a segment, halves the request or
is the last one. -/
def initLoop (cpu : ℕ) : ℕ → ℕ → ℕ → Machine → Machine
  | 0, _, _, m => m
  | fuel + 1, remain, request, m =>
    if remain = 0 then m
    else
      match m.reserveSegment request with
      | (some resv, m) =>
        match m.appendSegment resv.segment with
        | some m =>
          let remain := remain - (resv.segment.stop - resv.segment.start)
          initLoop cpu fuel remain (max (min remain maxChunkSize) pageSize) m
        | none => m.releaseReservation cpu resv
      | (none, m) => if request > pageSize then initLoop cpu fuel remain (request / 2) m else m

/-- Rounds that are enough for `init_heap`: between two new segments there are
as many as a request can be halved. -/
def initRounds : ℕ := 24 * (maxHeapSegments + 2)

def initHeap (cpu targetSize : ℕ) : Machine :=
  if m.heap.initialized then m
  else
    let remain := max targetSize pageSize
    initLoop cpu initRounds remain (max (min remain maxChunkSize) pageSize)
      { m with heap := { m.heap with initialized := true } }

/-! ### `SimpleHeap` -/

/-- The loop of `SimpleHeap::alloc`; every round but the last one adds a
segment. -/
def allocLoop (cpu : ℕ) (layout : Layout) (required : ℕ) : ℕ → Machine → ℕ × Machine
  | 0, m => (0, m)
  | fuel + 1, m =>
    if m.heap.initialized then
      let (ptr, segments) := allocIn layout m.heap.segments
      let m := m.setSegments segments
      if ptr ≠ 0 then
        (ptr, { m with
          heap := { m.heap with liveAllocations := satAdd u64Max m.heap.liveAllocations 1 } })
      else
        match m.growHeapOnce cpu required with
        | (true, m) => allocLoop cpu layout required fuel m
        | (false, m) => (0, m)
    else (0, m)

/-- `SimpleHeap::alloc`, for a size that is not zero. -/
def simpleAlloc (cpu : ℕ) (layout : Layout) : ℕ × Machine :=
  match checkedAdd layout.size (layout.align - 1) with
  | none => (0, m)
  | some required => allocLoop cpu layout required (maxHeapSegments + 1) m

/-- `SimpleHeap::dealloc`, for a size that is not zero. -/
def simpleDealloc : Machine :=
  if m.heap.liveAllocations = 0 then m
  else
    let live := m.heap.liveAllocations - 1
    { m with
      heap :=
        { m.heap with
          liveAllocations := live
          segments := if live = 0 then m.heap.segments.map (·.reset) else m.heap.segments } }

end Machine

/-! ### Headers -/

def globalAllocMagic : ℕ := 0x4A4F534845415032

def headerSize : ℕ := 24

/-- What `kmalloc_aligned` asks `kmalloc` for. -/
def kmallocRequest (layout : Layout) : Option ℕ :=
  (checkedAdd layout.size (layout.align - 1)).bind fun v => checkedAdd v headerSize

def writeHeader (mem : ByteMem) (raw user : ℕ) : ByteMem :=
  let header := user - headerSize
  ((mem.store header globalAllocMagic).store (header + 8) raw).store (header + 16)
    (raw ^^^ user ^^^ globalAllocMagic)

namespace Machine

variable (m : Machine)

/-- `kmalloc_aligned`, given the answer of `kmalloc`. -/
def kmallocAligned (layout : Layout) (kmalloc : ℕ) : ℕ × Machine :=
  match kmallocRequest layout with
  | none => (0, m)
  | some _ =>
    if kmalloc = 0 then (0, m)
    else
      let user := alignUp (satAdd u64Max kmalloc headerSize) layout.align
      (user, { m with mem := writeHeader m.mem kmalloc user })

/-- `kfree_aligned`: the pointer that is passed to `kfree`, if there is a
header. -/
def kfreeAligned (user : ℕ) (layout : Layout) : Option ℕ :=
  if user < headerSize then none
  else
    let header := user - headerSize
    if m.mem.load header ≠ globalAllocMagic then none
    else
      let raw := m.mem.load (header + 8)
      let checksum := m.mem.load (header + 16)
      if raw = 0 ∨ raw > user ∨ m.map.isDirectMapPtr raw = false ∨
          checksum ≠ raw ^^^ user ^^^ globalAllocMagic then none
      else if alignUp (satAdd u64Max raw headerSize) layout.align ≠ user then none
      else some raw

/-! ### `KernelGlobalAllocator` -/

/-- `KernelGlobalAllocator::alloc`. `slub` says whether the slab allocator is
ready. -/
def alloc (cpu : ℕ) (layout : Layout) (slub : Bool) (kmalloc : ℕ) : ℕ × Machine :=
  if layout.size = 0 then (layout.align, m)
  else if slub then m.kmallocAligned layout kmalloc
  else m.simpleAlloc cpu layout

/-- `KernelGlobalAllocator::dealloc`: what is passed to `kfree`, and the state
afterwards. -/
def dealloc (ptr : ℕ) (layout : Layout) : Option ℕ × Machine :=
  if ptr = 0 ∨ layout.size = 0 then (none, m)
  else
    match m.kfreeAligned ptr layout with
    | some raw => (some raw, m)
    | none => (none, m.simpleDealloc)

end Machine

end JanuaryOs.Alloc

import JanuaryOs.Base

/-!
# The early memory allocator (`mm/phys/memblock.rs`)

Two lists of regions, one for the memory there is and one for the memory that is
reserved.

The source keeps a list in an array with a count. Here it is the list of the
regions below the count; the loops go through it from the front, and shifting
the array is insertion and removal. A loop that edits the array keeps the part
it has passed and goes on with the rest.
-/

namespace JanuaryOs.Phys

/-! ### Regions -/

inductive KernelError
  | invalidAddress
  | noMemory
  | failed
  | alreadyExists
  | invalidParam
  deriving DecidableEq, Repr

/-- Most regions a list has room for, `MEMBLOCK_REGIONS_MAX` and
`MEMBLOCK_RESERVED_MAX`. -/
def memblockRegionsMax : ℕ := 128

inductive MemblockFlags
  | none
  | hotplug
  | mirror
  | nomap
  | driverManaged
  deriving DecidableEq, Repr

structure MemblockRegion where
  base : ℕ
  size : ℕ
  flags : MemblockFlags
  deriving DecidableEq, Repr

/-- `end`. -/
def MemblockRegion.stop (r : MemblockRegion) : ℕ := u64Add r.base r.size

namespace Memblock

/-! ### Adding a range -/

def Meets (base stop : ℕ) (r : MemblockRegion) : Prop := r.base ≤ stop ∧ base ≤ r.stop
deriving Decidable

/-- The loop of `memblock_add_range`: where the range is inserted, or nothing if
it is merged. -/
def findSlot (base stop : ℕ) : List MemblockRegion → ℕ → Option ℕ
  | [], i => some i
  | r :: rs, i =>
    if Meets base stop r then none
    else if base < r.base then some i
    else findSlot base stop rs (i + 1)

/-- `memblock_merge_adjacent`, from the region `cur` on. -/
def mergeAdjacent (total : ℕ) (cur : MemblockRegion) :
    List MemblockRegion → List MemblockRegion × ℕ
  | [] => ([cur], total)
  | next :: rest =>
    if cur.stop ≥ next.base then
      let merged := { cur with size := u64Sub (max cur.stop next.stop) cur.base }
      mergeAdjacent (u64Add (u64Sub total (u64Add cur.size next.size)) merged.size) merged rest
    else
      let (rest, total) := mergeAdjacent total next rest
      (cur :: rest, total)

/-- The loop of `memblock_merge_regions`: nothing if no region touches the
range. -/
def mergeLoop (base stop total : ℕ) : List MemblockRegion → Option (List MemblockRegion × ℕ)
  | [] => none
  | r :: rs =>
    if Meets base stop r then
      let newBase := min r.base base
      let merged := { r with base := newBase, size := max r.stop stop - newBase }
      some (mergeAdjacent (u64Add (u64Sub total r.size) merged.size) merged rs)
    else
      (mergeLoop base stop total rs).map fun res => (r :: res.1, res.2)

/-! ### Removing a range -/

/-- The loop of `memblock_remove_range`, with the count and the total at that
moment. What it leaves of the regions from the current one on comes out, also on
an error. -/
def removeLoop (base size stop max : ℕ) :
    ℕ → ℕ → List MemblockRegion → Except KernelError Unit × List MemblockRegion × ℕ
  | _, total, [] => (.ok (), [], total)
  | cnt, total, r :: rs =>
    if r.base ≥ stop ∨ r.stop ≤ base then
      let res := removeLoop base size stop max cnt total rs
      (res.1, r :: res.2.1, res.2.2)
    else if base ≤ r.base ∧ stop ≥ r.stop then
      removeLoop base size stop max (cnt - 1) (u64Sub total r.size) rs
    else if base > r.base ∧ stop < r.stop then
      if cnt ≥ max then (.error .noMemory, r :: rs, total)
      else
        let res := removeLoop base size stop max (cnt + 1) (u64Sub total size) rs
        (res.1, { r with size := base - r.base } :: ⟨stop, r.stop - stop, r.flags⟩ :: res.2.1,
          res.2.2)
    else if base ≤ r.base then
      let removed := stop - r.base
      let res := removeLoop base size stop max cnt (u64Sub total removed) rs
      (res.1, { r with base := stop, size := u64Sub r.size removed } :: res.2.1, res.2.2)
    else
      let removed := r.stop - base
      let res := removeLoop base size stop max cnt (u64Sub total removed) rs
      (res.1, { r with size := u64Sub r.size removed } :: res.2.1, res.2.2)

end Memblock

/-! ### Lists of regions -/

/-- A list of regions. The array has no room for more than `memblockRegionsMax`. -/
structure MemblockType where
  max : ℕ
  totalSize : ℕ
  regions : List MemblockRegion
  room : max ≤ memblockRegionsMax

namespace MemblockType

open Memblock

def new (max : ℕ) (room : max ≤ memblockRegionsMax) : MemblockType := ⟨max, 0, [], room⟩

/-- `memblock_merge_regions`. -/
def mergeRegions (t : MemblockType) (base size : ℕ) : Except KernelError Unit × MemblockType :=
  match mergeLoop base (u64Add base size) t.totalSize t.regions with
  | some (regions, total) => (.ok (), { t with regions := regions, totalSize := total })
  | none => (.error .failed, t)

/-- `memblock_add_range`. -/
def addRange (t : MemblockType) (base size : ℕ) (flags : MemblockFlags) :
    Except KernelError Unit × MemblockType :=
  if size = 0 then (.ok (), t)
  else
    match checkedAdd base size with
    | none => (.error .invalidAddress, t)
    | some stop =>
      match findSlot base stop t.regions 0 with
      | none => t.mergeRegions base size
      | some i =>
        if t.regions.length ≥ t.max then (.error .noMemory, t)
        else
          (.ok (),
            { t with
              regions := t.regions.insertIdx i ⟨base, size, flags⟩
              totalSize := u64Add t.totalSize size })

/-- `memblock_remove_range`. -/
def removeRange (t : MemblockType) (base size : ℕ) : Except KernelError Unit × MemblockType :=
  if size = 0 then (.ok (), t)
  else
    let res := removeLoop base size (u64Add base size) t.max t.regions.length t.totalSize t.regions
    (res.1, { t with regions := res.2.1, totalSize := res.2.2 })

end MemblockType

/-! ### The allocator -/

/-- Both lists, and how `memblock_alloc` searches. -/
structure Memblock where
  bottomUp : Bool
  currentLimit : ℕ
  memory : MemblockType
  reserved : MemblockType

namespace Memblock

/-- `memblock_init`. -/
def init : Memblock where
  bottomUp := false
  currentLimit := u64Max
  memory := .new memblockRegionsMax (Nat.le_refl _)
  reserved := .new memblockRegionsMax (Nat.le_refl _)

variable (mb : Memblock)

/-- `memblock_add`. -/
def add (base size : ℕ) : Except KernelError Unit × Memblock :=
  let res := mb.memory.addRange base size .none
  (res.1, { mb with memory := res.2 })

/-- `memblock_reserve`. -/
def reserve (base size : ℕ) : Except KernelError Unit × Memblock :=
  let res := mb.reserved.addRange base size .none
  (res.1, { mb with reserved := res.2 })

/-! ### Allocation -/

/-- `align_down`: the low bits are cleared. -/
def alignDown (addr align : ℕ) : ℕ := addr &&& (u64Max - (align - 1))

/-- `align_up`. The sum may wrap. -/
def alignUp (addr align : ℕ) : ℕ := u64Add addr (align - 1) &&& (u64Max - (align - 1))

/-- The first reserved region in the way of a candidate. -/
def conflict (candidate size : ℕ) : Option MemblockRegion :=
  mb.reserved.regions.find? fun r =>
    r.size ≠ 0 ∧ candidate < r.stop ∧ u64Add candidate size > r.base

/-- The loop of `find_free_area_top_down`. Every round but the last passes
another region. -/
def topDownLoop (mb : Memblock) (size align start : ℕ) : ℕ → ℕ → Option ℕ
  | 0, _ => none
  | rounds + 1, candidate =>
    if candidate ≥ start then
      match mb.conflict candidate size with
      | none => some candidate
      | some r =>
        if r.base > 0 then
          let candidate := alignDown (r.base - size) align
          if candidate = 0 then none else topDownLoop mb size align start rounds candidate
        else none
    else none

variable (size align start stop : ℕ)

def findFreeAreaTopDown : Option ℕ :=
  mb.topDownLoop size align start (mb.reserved.regions.length + 1) (alignDown (stop - size) align)

/-- The loop of `find_free_area_bottom_up`. Every round but the last passes
another region. -/
def bottomUpLoop (mb : Memblock) (size align stop : ℕ) : ℕ → ℕ → Option ℕ
  | 0, _ => none
  | rounds + 1, candidate =>
    if u64Add candidate size ≤ stop then
      match mb.conflict candidate size with
      | none => some candidate
      | some r => bottomUpLoop mb size align stop rounds (alignUp r.stop align)
    else none

def findFreeAreaBottomUp : Option ℕ :=
  mb.bottomUpLoop size align stop (mb.reserved.regions.length + 1) (alignUp start align)

/-- `memblock_find_in_range_top_down` and `memblock_find_in_range_bottom_up`,
which differ in the order of the memory regions and in the search within one. -/
def findInRange (find : Memblock → ℕ → ℕ → Option ℕ) (size start stop : ℕ) :
    List MemblockRegion → Memblock → ℕ × Memblock
  | [], mb => (0, mb)
  | m :: ms, mb =>
    if m.size = 0 then findInRange find size start stop ms mb
    else if max m.base start ≥ min m.stop stop then findInRange find size start stop ms mb
    else
      match find mb (max m.base start) (min m.stop stop) with
      | none => findInRange find size start stop ms mb
      | some addr =>
        match mb.reserve addr size with
        | (.ok _, mb) => (addr, mb)
        | (.error _, mb) => findInRange find size start stop ms mb

/-- `memblock_alloc_range`. -/
def allocRange : ℕ × Memblock :=
  if size = 0 then (0, mb)
  else
    let align := if align = 0 then 1 else align
    if mb.bottomUp then
      findInRange (fun mb => mb.findFreeAreaBottomUp size align) size start stop
        mb.memory.regions mb
    else
      findInRange (fun mb => mb.findFreeAreaTopDown size align) size start stop
        mb.memory.regions.reverse mb

/-- `memblock_alloc`. -/
def alloc (size align : ℕ) : ℕ × Memblock :=
  mb.allocRange size align 0 mb.currentLimit

/-! ### Free regions -/

/-- How far a walk has come: the callback has stopped it, or it goes on at an
address. -/
inductive Walk (σ : Type)
  | stopped (s : σ)
  | at (current : ℕ) (s : σ)

variable {σ : Type}

/-- The inner loop of `memblock_for_each_free_region`, over the reserved
regions. -/
def walkReserved (callback : σ → ℕ → ℕ → σ × Bool) (memEnd : ℕ) :
    List MemblockRegion → ℕ → σ → Walk σ
  | [], current, s => .at current s
  | r :: rs, current, s =>
    if r.size = 0 then walkReserved callback memEnd rs current s
    else if r.base ≥ memEnd then .at current s
    else if r.stop ≤ current then walkReserved callback memEnd rs current s
    else if current < r.base then
      let res := callback s current (min r.base memEnd - current)
      if res.2 then walkReserved callback memEnd rs (max current r.stop) res.1 else .stopped res.1
    else walkReserved callback memEnd rs (max current r.stop) s

/-- The outer loop of `memblock_for_each_free_region`, over the memory. -/
def walkMemory (callback : σ → ℕ → ℕ → σ × Bool) (reserved : List MemblockRegion) :
    List MemblockRegion → σ → σ
  | [], s => s
  | m :: ms, s =>
    if m.size = 0 then walkMemory callback reserved ms s
    else
      match walkReserved callback m.stop reserved m.base s with
      | .stopped s => s
      | .at current s =>
        if current < m.stop then
          let res := callback s current (m.stop - current)
          if res.2 then walkMemory callback reserved ms res.1 else res.1
        else walkMemory callback reserved ms s

/-- `memblock_for_each_free_region`, with a callback that has a state. -/
def forEachFreeRegion (callback : σ → ℕ → ℕ → σ × Bool) (s : σ) : σ :=
  walkMemory callback mb.reserved.regions mb.memory.regions s

end Memblock

end JanuaryOs.Phys

import JanuaryOs.Base

/-!
# Page frame descriptors (`mm/phys/page.rs`) and what the allocators are asked for

The links of the intrusive list node are represented by the lists themselves; a
descriptor keeps only whether its links are null, which `pcp_free_page` tests.
The private pointer is written and never read by the allocators, and is left
out.
-/

namespace JanuaryOs.Phys

/-! ### Zones and owners -/

/-- Orders of the buddy system, from zero. -/
def maxOrder : ℕ := 11

/-- Addresses below belong to the DMA zone. -/
def zoneDmaLimit : ℕ := 16777216

/-- Addresses below belong to the DMA32 zone, if not to the DMA zone. -/
def zoneDma32Limit : ℕ := 4294967296

inductive ZoneType
  | dma
  | dma32
  | normal
  deriving DecidableEq, Repr

namespace ZoneType

def all : List ZoneType := [.dma, .dma32, .normal]

def fromPhysAddr (addr : ℕ) : ZoneType :=
  if addr < zoneDmaLimit then .dma else if addr < zoneDma32Limit then .dma32 else .normal

end ZoneType

/-- Which subsystem a frame belongs to. -/
inductive PageOwner
  | unknown
  | buddy
  | pcp
  | slab
  | pgtable
  | allocated
  | reserved
  deriving DecidableEq, Repr

/-! ### Descriptors -/

/-- A page frame descriptor. The flags come first. -/
structure Page where
  reserved : Bool
  slab : Bool
  buddy : Bool
  compound : Bool
  head : Bool
  tail : Bool
  pgtable : Bool
  refcount : ℕ
  zoneId : ZoneType
  order : ℕ
  owner : PageOwner
  linked : Bool
  deriving DecidableEq, Repr

namespace Page

/-- `init`. The list node is made to point to itself. -/
def init (zoneId : ZoneType) : Page where
  reserved := false
  slab := false
  buddy := false
  compound := false
  head := false
  tail := false
  pgtable := false
  refcount := 0
  zoneId := zoneId
  order := 0
  owner := .unknown
  linked := true

variable (p : Page)

def markReserved : Page := { p with reserved := true, owner := .reserved }

def setCountOne : Page := { p with refcount := 1 }

/-- `get`, on a counter of 32 bits. -/
def get : Page := { p with refcount := (p.refcount + 1) % 2 ^ 32 }

/-- `try_put`: the new count, or nothing on an underflow. -/
def tryPut : Option (ℕ × Page) :=
  if p.refcount = 0 then none
  else some (p.refcount - 1, { p with refcount := p.refcount - 1 })

def setOwner (owner : PageOwner) : Page := { p with owner := owner }

def markBuddy (order : ℕ) : Page :=
  { p with buddy := true, order := order, owner := .buddy }

def clearBuddy : Page := { p with buddy := false }

/-- The list node after `ListHead::add`. -/
def link : Page := { p with linked := true }

/-- The list node after `ListHead::del`, or reset by hand. -/
def unlink : Page := { p with linked := false }

/-- `sanitize_page_for_allocator`. -/
def sanitize (order : ℕ) : Page :=
  { p with
    slab := false, pgtable := false, owner := .allocated, linked := false, order := order }

/-- `destroy_compound_page`, for one of the pages. -/
def clearCompound : Page :=
  { p with head := false, tail := false, compound := false }

end Page

/-! ### Allocation flags -/

/-- The allocation flags the allocators look at. -/
structure GfpFlags where
  dma : Bool
  dma32 : Bool
  comp : Bool
  deriving DecidableEq, Repr

/-- `gfp_to_zone_list`, which `pcp_alloc_page` walks through as well: the
preferred zone and all lower ones, from above. -/
def gfpToZoneList (gfp : GfpFlags) : List ZoneType :=
  if gfp.dma then [.dma] else if gfp.dma32 then [.dma32, .dma] else [.normal, .dma32, .dma]

end JanuaryOs.Phys

import JanuaryOs.Alloc.Pages
import JanuaryOs.Lib.Chain

/-!
# The slab allocator (`mm/alloc/slub.rs`): `kmalloc` and `kfree`

Small requests are served from caches of objects of one size. The objects of a
slab that are free are chained through their first word; the head of that chain
is in the descriptor of the slab's first page, and so is the link to the next
slab of the cache. `kfree` is given an address only: the descriptor of its page
says which cache it is from, and rounding the frame down to the size of a slab
gives the first page. Large requests are blocks of the page allocator.

The fields of the page descriptors that the slab allocator uses are kept in a
table of their own, `desc`; the page allocator resets them when it hands out a
block. The model remembers which blocks were obtained from the page allocator,
and for which cache, until they are given back (`held`).
-/

namespace JanuaryOs.Alloc

open Lib Phys Function

/-! ### Caches -/

def kmallocShiftLow : ℕ := 3

def kmallocShiftHigh : ℕ := 13

def kmallocNumCaches : ℕ := kmallocShiftHigh - kmallocShiftLow + 1

def maxObjsPerSlab : ℕ := 512

variable (c : ℕ)

/-- The size of the objects of a cache, which is set by `init_kmalloc_caches`.
Rounding it up to eight bytes changes nothing. -/
def cacheSize : ℕ := 2 ^ (kmallocShiftLow + c)

/-- `calculate_order`: the order of the slabs, and the objects of each. -/
def calculateOrder (size : ℕ) : ℕ × ℕ :=
  let fits order := 4 ≤ pageSize * 2 ^ order / size ∧ pageSize * 2 ^ order / size ≤ maxObjsPerSlab
  match (List.range 11).find? fun order => decide (fits order) with
  | some order => (order, pageSize * 2 ^ order / size)
  | none => (0, max (pageSize / size) 1)

def cacheOrder : ℕ := (calculateOrder (cacheSize c)).1

/-- `objects_per_slab`. -/
def cacheObjects : ℕ := (calculateOrder (cacheSize c)).2

/-- `find_kmalloc_cache`. The trailing zeros of the next power of two are its
logarithm. -/
def findKmallocCache (size : ℕ) : Option ℕ :=
  if size = 0 then none
  else
    let index := getOrder (max size (2 ^ kmallocShiftLow))
    if index < kmallocShiftLow then some 0
    else if index - kmallocShiftLow ≥ kmallocNumCaches then none
    else some (index - kmallocShiftLow)

/-! ### The state -/

/-- The fields of a page descriptor that the slab allocator uses. -/
structure Desc where
  slab : Bool
  owner : PageOwner
  /-- `private`: the cache the page belongs to. -/
  cache : Option ℕ
  order : ℕ
  /-- `lru.next`: the next slab of the cache, by its frame. -/
  lruNext : Option ℕ
  /-- `lru.prev`: the first free object, or null. -/
  lruPrev : ℕ
  deriving DecidableEq

/-- What changes in a `KmemCache`. -/
structure KmemCache where
  /-- `partial`: the first slab. -/
  slabList : Option ℕ
  allocated : ℕ
  slabs : ℕ

/-- A block of the page allocator, and the cache it was obtained for; none if it
is a large allocation. -/
structure Held where
  pfn : ℕ
  order : ℕ
  cache : Option ℕ
  deriving DecidableEq, Repr

def Held.block (h : Held) : ℕ × ℕ := (h.pfn, h.order)

/-- The slab allocator, the page allocator below it and the memory. -/
structure Slub where
  map : DirectMap
  pages : System
  initialized : Bool
  caches : ℕ → KmemCache
  desc : ℕ → Desc
  mem : ByteMem
  largeAllocCount : ℕ
  largeAllocPages : ℕ
  held : List Held

namespace Slub

variable (s : Slub)

def modifyDesc (pfn : ℕ) (f : Desc → Desc) : Slub :=
  { s with desc := update s.desc pfn (f (s.desc pfn)) }

def modifyDescs (pfn order : ℕ) (f : Desc → Desc) : Slub :=
  { s with desc := fun q => if pfn ≤ q ∧ q < pfn + 2 ^ order then f (s.desc q) else s.desc q }

def modifyCache (f : KmemCache → KmemCache) : Slub :=
  { s with caches := update s.caches c (f (s.caches c)) }

/-- `alloc_pages`, which clears the descriptor of the first page. -/
def allocPages (s : Slub) (order : ℕ) (gfp : GfpFlags) (cache : Option ℕ) : Option ℕ × Slub :=
  let after := { s with pages := s.pages.step (.allocPages order gfp) }
  match (s.pages.phys.allocPages order gfp).1 with
  | none => (none, after)
  | some pfn =>
    (some pfn, { after.modifyDesc pfn fun _ => ⟨false, .allocated, none, order, none, 0⟩ with
      held := ⟨pfn, order, cache⟩ :: s.held })

/-- `free_pages`, on the CPU that runs. -/
def freePages (s : Slub) (cpu : ℕ) (h : Held) : Slub :=
  { s with pages := s.pages.step (.freePages cpu h.pfn h.order), held := s.held.erase h }

/-- `phys_to_virt` of the first byte of a frame. -/
def pageVirt (pfn : ℕ) : ℕ := s.map.physToVirt (pfn * pageSize)

def virtToPhysDirectMap (virt : ℕ) : Option ℕ :=
  let phys := virt - s.map.offset
  if phys = 0 ∧ virt < s.map.offset then none
  else if s.map.maxPhys = 0 ∨ phys ≥ s.map.maxPhys then none
  else some phys

/-! ### Allocation -/

def nextFree (mem : ByteMem) (obj : ℕ) : Option ℕ :=
  let next := mem.load obj
  if next = 0 then none else some next

/-- A pointer, or none if it is null. -/
def ofPtr (ptr : ℕ) : Option ℕ := if ptr = 0 then none else some ptr

/-- `alloc_from_partial`. There are no more slabs than frames. -/
def allocFromPartial : Option (ℕ × Slub) :=
  match findFrom (fun pfn => (s.desc pfn).lruNext) (fun pfn => (s.desc pfn).lruPrev ≠ 0)
      s.map.maxPfn (s.caches c).slabList with
  | none => none
  | some page =>
    let freeHead := (s.desc page).lruPrev
    let s := s.modifyDesc page fun d => { d with lruPrev := s.mem.load freeHead }
    some (freeHead, s.modifyCache c fun k => { k with allocated := u64Add k.allocated 1 })

/-- Chain objects, the last one first; the first object comes out. -/
def threadObjects (mem : ByteMem) : List ℕ → ByteMem × ℕ
  | [] => (mem, 0)
  | obj :: objs =>
    let (mem, prev) := threadObjects mem objs
    (mem.store obj prev, obj)

/-- The objects of a slab, from its start on. -/
def objectsAt (c start : ℕ) : List ℕ := (List.range (cacheObjects c)).map (start + · * cacheSize c)

/-- The part of `alloc_new_slab` that is done under the lock: the objects are
chained, the pages are marked, and the slab is put in front of the list
(`add_to_partial`). The first object comes out. -/
def installSlab (c pfn : ℕ) : ℕ × Slub :=
  let thread := threadObjects s.mem (objectsAt c (s.pageVirt pfn))
  let second := if thread.2 = 0 then 0 else thread.1.load thread.2
  let s := { s with mem := thread.1 }
  let s := s.modifyDescs pfn (cacheOrder c) fun d =>
    { d with slab := true, owner := .slab, cache := some c }
  let s := s.modifyDesc pfn fun d => { d with lruPrev := second, lruNext := (s.caches c).slabList }
  (thread.2, s.modifyCache c fun k => ⟨some pfn, u64Add k.allocated 1, u64Add k.slabs 1⟩)

def allocNewSlab (gfp : GfpFlags) : Option ℕ × Slub :=
  match s.allocPages (cacheOrder c) gfp (some c) with
  | (none, s) => (none, s)
  | (some pfn, s) =>
    let (first, s) := s.installSlab c pfn
    (some first, s)

/-- `KmemCache::alloc`. -/
def cacheAlloc (gfp : GfpFlags) : ℕ × Slub :=
  if s.initialized then
    match s.allocFromPartial c with
    | some (ptr, s) => (ptr, s)
    | none =>
      match s.allocNewSlab c gfp with
      | (some ptr, s) => (ptr, s)
      | (none, s) => (0, s)
  else (0, s)

/-- The order of a large allocation. The sum may wrap. -/
def largeOrder (size : ℕ) : ℕ := getOrder (u64Add size (pageSize - 1) / pageSize)

def kmalloc (size : ℕ) (gfp : GfpFlags) : ℕ × Slub :=
  if size > 2 ^ kmallocShiftHigh then
    match s.allocPages (largeOrder size) gfp none with
    | (none, s) => (0, s)
    | (some pfn, s) =>
      (s.pageVirt pfn, { s with
        largeAllocCount := u64Add s.largeAllocCount 1
        largeAllocPages := u64Add s.largeAllocPages (2 ^ largeOrder size) })
  else
    match findKmallocCache size with
    | some c => s.cacheAlloc c gfp
    | none => (0, s)

/-! ### Deallocation -/

def relink (links : Links ℕ) : Slub :=
  { s.modifyCache c fun k => { k with slabList := links.head } with
    desc := fun pfn => { s.desc pfn with lruNext := links.next pfn } }

def removeFromPartial (c target : ℕ) : Option Slub :=
  (unlink target s.map.maxPfn
    ⟨(s.caches c).slabList, fun pfn => (s.desc pfn).lruNext⟩).map (s.relink c)

/-- `free_objects_in_page`, which stops after one object more than a slab has. -/
def freeObjectsInPage (c page : ℕ) : ℕ :=
  countFrom (nextFree s.mem) (cacheObjects c + 1) (ofPtr (s.desc page).lruPrev)

def slabHead (c pfn : ℕ) : ℕ := pfn / 2 ^ cacheOrder c * 2 ^ cacheOrder c

/-- The marks of a slab are taken from its pages. -/
def clearSlab (c page : ℕ) : Slub :=
  let s := s.modifyDesc page fun d => { d with lruPrev := 0 }
  let s := s.modifyDescs page (cacheOrder c) fun d =>
    { d with slab := false, owner := .allocated, cache := none }
  s.modifyCache c fun k => { k with slabs := k.slabs - 1 }

/-- The part of `KmemCache::free` that gives a slab back in which nothing is in
use. -/
def releaseSlab (cpu c page : ℕ) : Slub :=
  if s.freeObjectsInPage c page = cacheObjects c then
    match s.removeFromPartial c page with
    | none => s
    | some s => (s.clearSlab c page).freePages cpu ⟨page, cacheOrder c, some c⟩
  else s

/-- The part of `KmemCache::free` that puts an object in front of the free list. -/
def pushFree (c page ptr : ℕ) : Slub :=
  let s := { s with mem := s.mem.store ptr (s.desc page).lruPrev }
  let s := s.modifyDesc page fun d => { d with lruPrev := ptr }
  s.modifyCache c fun k => { k with allocated := u64Sub k.allocated 1 }

/-- `KmemCache::free`. -/
def cacheFree (cpu c ptr : ℕ) : Slub :=
  match s.virtToPhysDirectMap ptr with
  | none => s
  | some phys =>
    let page := slabHead c (phys / pageSize)
    (s.pushFree c page ptr).releaseSlab cpu c page

/-- Where `kfree` finds a pointer to belong. -/
inductive Found
  /-- An object of a cache, in the slab with this first page. -/
  | object (c page : ℕ)
  | large (pfn order : ℕ)
  deriving DecidableEq

/-- The checks of `kfree`, with `resolve_kmalloc_cache_from_page`: nothing if
the pointer is ignored. -/
def find (ptr : ℕ) : Option Found :=
  match s.virtToPhysDirectMap ptr with
  | none => none
  | some phys =>
    let pfn := phys / pageSize
    let page := s.desc pfn
    if page.slab then
      if page.owner ≠ .slab then none
      else
        match page.cache with
        | none => none
        | some c => if s.initialized then some (.object c (slabHead c pfn)) else none
    else if ptr % pageSize ≠ 0 then none
    else some (.large pfn page.order)

def kfree (cpu ptr : ℕ) : Slub :=
  if ptr = 0 then s
  else
    match s.find ptr with
    | none => s
    | some (.object c _) => s.cacheFree cpu c ptr
    | some (.large pfn order) =>
      { s with
        largeAllocCount := s.largeAllocCount - 1
        largeAllocPages := s.largeAllocPages - 2 ^ order }.freePages cpu ⟨pfn, order, none⟩

end Slub

end JanuaryOs.Alloc

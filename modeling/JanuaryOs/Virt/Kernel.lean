import JanuaryOs.Fs.Descriptor
import JanuaryOs.Virt.Vma

/-!
# The memory state of the kernel

Page frames, their contents, address spaces and the backings of file mappings,
with the primitives that all calls are made of.

What lies outside the model answers through `Env`: which frame `alloc_page`
hands out, whether a page for a page table is found, where a new `Mm` is placed
and what a file holds. Every call is run with answers of its own, so a statement
about all runs is a statement about every behaviour of the allocator. An answer
that names a frame that is not free is treated as a failed allocation: the frame
allocator hands out free frames only.

Physical addresses are frame numbers. The frames of the page tables themselves
are not user frames and do not appear.
-/

namespace JanuaryOs.Virt

open Lib Fs Function

/-! ### Frames -/

/-- The counters of a page frame descriptor that mappings use. -/
structure Frame where
  refcount : ℕ
  mapcount : ℤ
  reserved : Bool
  deriving Repr, DecidableEq

namespace Frame

variable (f : Frame)

/-- The frame belongs to the allocator. -/
def Free : Prop := f.refcount = 0 ∧ f.reserved = false

instance : Decidable f.Free := instDecidableAnd

/-- `set_count_one`, as `alloc_page` leaves a frame. -/
def setCountOne : Frame := { f with refcount := 1 }

def get : Frame := { f with refcount := u32Add f.refcount 1 }

/-- `free_page`: one reference less. With the last one the frame is free again;
a count of zero is not touched. -/
def put : Frame := { f with refcount := f.refcount - 1 }

/-- `inc_mapcount`, on a signed counter of 32 bits. -/
def incMapcount : Frame :=
  { f with mapcount := if f.mapcount = 2147483647 then -2147483648 else f.mapcount + 1 }

/-- `try_dec_mapcount`, which stops at -1. -/
def decMapcount : Frame :=
  if f.mapcount ≤ -1 then f else { f with mapcount := f.mapcount - 1 }

/-- `release_user_mapped_phys`, and the body of `unmap_and_release_pages`. -/
def releaseUserMapped : Frame :=
  let f := f.decMapcount
  if f.reserved then f else f.put

/-- `release_replaced_page`: a frame outside the mapping counts is left alone. -/
def releaseReplaced : Frame := if f.mapcount < 0 then f else f.decMapcount.put

end Frame

/-! ### State -/

abbrev PageData := ℕ → UInt8

/-- Answers from outside the model, for one call. -/
structure Env where
  /-- The frames that `alloc_page` hands out, `none` for a failure. -/
  frames : List (Option Pfn) := []
  /-- Whether the page tables that a new mapping needs are found. -/
  tables : List Bool := []
  /-- Where a new `Mm` is placed, `none` if there is no memory for it. -/
  mmAddr : Option MmId := none
  /-- A page of an inode at an offset, `none` for an error or the end of the
  file. -/
  readPage : ℕ → ℕ → Option PageData := fun _ _ => none

structure Kernel where
  frames : Pfn → Frame
  memory : Pfn → PageData
  mms : OrdMap MmId Mm
  fs : FsState
  env : Env

namespace Kernel

variable (k : Kernel)

def modifyFrame (f : Pfn) (g : Frame → Frame) : Kernel :=
  { k with frames := update k.frames f (g (k.frames f)) }

def fillPage (f : Pfn) (data : PageData) : Kernel :=
  { k with memory := update k.memory f data }

variable (id : MmId)

def setMm (mm : Mm) : Kernel := { k with mms := k.mms.insert id mm }

/-- The entry that translates an address of an address space. -/
def translate (k : Kernel) (id : MmId) (addr : ℕ) : Option Pte :=
  (k.mms.get? id).bind (·.translate addr)

/-! ### Frames -/

def allocPage : Option Pfn × Kernel :=
  match k.env.frames with
  | [] => (none, k)
  | answer :: rest =>
    let k := { k with env := { k.env with frames := rest } }
    match answer with
    | none => (none, k)
    | some f =>
      if (k.frames f).Free then (some f, k.modifyFrame f .setCountOne) else (none, k)

def freePage (f : Pfn) : Kernel := k.modifyFrame f .put

/-! ### Page tables -/

/-- Pages of one leaf table. -/
def tableEntries : ℕ := 512

/-- Whether `map_page` gets down to a leaf table for an address. It does if
another page of that table is present; otherwise tables may have to be
allocated. -/
def reachLeafTable (mm : Mm) (addr : ℕ) : Bool × Kernel :=
  let table := pageNumber addr / tableEntries
  if mm.pageTable.entries.any fun e => e.1 / tableEntries == table then (true, k)
  else
    match k.env.tables with
    | [] => (true, k)
    | answer :: rest => (answer, { k with env := { k.env with tables := rest } })

def setPte (addr : ℕ) (pte : Pte) : Kernel :=
  { k with mms := k.mms.modify id fun mm =>
    { mm with pageTable := mm.pageTable.insert (pageNumber addr) pte } }

/-- `map_page`. A page that is replaced by another is released. -/
def mapPage (addr : ℕ) (pfn : Pfn) (flags : PteFlags) :
    Bool × Kernel :=
  match k.mms.get? id with
  | none => (false, k)
  | some mm =>
    match mm.translate addr with
    | some old =>
      let k := if old.pfn = pfn then k else k.modifyFrame old.pfn .releaseReplaced
      (true, k.setPte id addr ⟨pfn, flags⟩)
    | none =>
      match k.reachLeafTable mm addr with
      | (false, k) => (false, k)
      | (true, k) => (true, k.setPte id addr ⟨pfn, flags⟩)

/-- `unmap_page`. The frame keeps its reference. -/
def unmapPage (addr : ℕ) : Kernel :=
  { k with mms := k.mms.modify id fun mm =>
    { mm with pageTable := mm.pageTable.erase (pageNumber addr) } }

/-- The page addresses of `[start, stop)`, as the loops with a cursor visit
them. -/
def pagesIn (start stop : ℕ) : List ℕ :=
  (List.range ((stop - start + (pageSize - 1)) / pageSize)).map fun i => start + i * pageSize

/-- One round of `unmap_and_release_pages`. -/
def unmapAndReleasePage (addr : ℕ) : Kernel :=
  match k.translate id addr with
  | none => k
  | some pte => (k.unmapPage id addr).modifyFrame pte.pfn .releaseUserMapped

def unmapAndReleasePages (start stop : ℕ) : Kernel :=
  (pagesIn start stop).foldl (fun k addr => k.unmapAndReleasePage id addr) k

end Kernel

end JanuaryOs.Virt

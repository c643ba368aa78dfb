import JanuaryOs.Virt.Txn

/-!
# Copying and releasing an address space (`mm/virt/vma.rs`)

`mm_clone` copies the areas, takes a reference to the backing of each and then
shares every present page: a private page loses its writable bit on both sides.
The new address space is entered into the state as soon as it has a page table,
so that the pages shared with it are counted; a failure takes it out again.
-/

namespace JanuaryOs.Virt

open Lib Fs

/-! ### Parts of an address space -/

/-- The backings of the file mappings of an address space, in the order of the
areas. -/
def Mm.backings (mm : Mm) : List ℕ := mm.vmaTree.toList.filterMap fun vma => vma.value.file

/-- What `mm_clone` copies before the areas. -/
def Mm.cloneLayout (src : Mm) : Mm :=
  { src with vmaTree := .new, vmaCount := 0, mmCount := 1, pageTable := .empty }

def releaseMmVmaBackings (mm : Mm) (fs : FsState) : FsState := releaseBackings mm.backings fs

namespace Kernel

/-! ### Teardown -/

variable (k : Kernel)

/-- `teardown_private_mm`: release the frame of every present page and drop the
address space. -/
def teardownPrivateMm (id : MmId) : Kernel :=
  match k.mms.get? id with
  | none => k
  | some mm =>
    let k := mm.pageTable.entries.foldl
      (fun k e => k.modifyFrame e.2.pfn .releaseUserMapped) k
    { k with mms := k.mms.erase id }

/-- The way out of `mm_clone` after a failure. -/
def abandonClone (id : MmId) : Kernel :=
  match k.mms.get? id with
  | none => k
  | some mm => { k with fs := releaseMmVmaBackings mm k.fs }.teardownPrivateMm id

/-! ### Sharing pages -/

/-- Flags of a shared private page. -/
def cowPteFlags (flags : VmFlags) : PteFlags :=
  if !flags.shared && flags.mayWrite then flags.toUserPteFlags.clearWritable
  else flags.toUserPteFlags

def countShared (f : Pfn) : Kernel :=
  (k.modifyFrame f .get).modifyFrame f .incMapcount

/-- One round of the inner loop of `clone_user_present_pages`. -/
def clonePage (src dst : MmId) (flags : VmFlags) (addr : ℕ) : Bool × Kernel :=
  match k.translate src addr with
  | none => (true, k)
  | some pte =>
    match k.mapPage dst addr pte.pfn (cowPteFlags flags) with
    | (false, k) => (false, k)
    | (true, k) =>
      if cowPteFlags flags = flags.toUserPteFlags then (true, k.countShared pte.pfn)
      else
        match k.mapPage src addr pte.pfn (cowPteFlags flags) with
        | (false, k) => (false, k.unmapPage dst addr)
        | (true, k) => (true, k.countShared pte.pfn)

/-- The inner loop of `clone_user_present_pages`. -/
def clonePages (src dst : MmId) (flags : VmFlags) : List ℕ → Kernel → Bool × Kernel
  | [], k => (true, k)
  | addr :: rest, k =>
    match k.clonePage src dst flags addr with
    | (false, k) => (false, k)
    | (true, k) => clonePages src dst flags rest k

/-- `clone_user_present_pages`, over the areas of the source. -/
def cloneUserPresentPages (src dst : MmId) : List Vma → Kernel → Bool × Kernel
  | [], k => (true, k)
  | vma :: rest, k =>
    match userVmaIntersection vma.start vma.stop with
    | none => cloneUserPresentPages src dst rest k
    | some (lo, hi) =>
      match clonePages src dst vma.value.flags (pagesIn lo hi) k with
      | (false, k) => (false, k)
      | (true, k) => cloneUserPresentPages src dst rest k

/-! ### Cloning -/

/-- The loop of `mm_clone` over the areas of the source. -/
def cloneVmas (dst : MmId) : List Vma → Mm → Kernel → Bool × Kernel
  | [], mm, k => (true, k.setMm dst mm)
  | vma :: rest, mm, k =>
    match userVmaIntersection vma.start vma.stop with
    | none => cloneVmas dst rest mm k
    | some (lo, hi) =>
      match mm.vmaTree.insert lo hi vma.value with
      | .error _ => (false, k.setMm dst mm)
      | .ok tree =>
        let clone := { mm with vmaTree := tree, vmaCount := satAdd u32Max mm.vmaCount 1 }
        match vma.value.file with
        | none => cloneVmas dst rest clone k
        | some backing =>
          match k.fs.retainMmapBacking backing with
          | (.ok _, fs) => cloneVmas dst rest clone { k with fs := fs }
          | (.error _, fs) => (false, { k with fs := fs }.setMm dst mm)

def mmClone (src : MmId) : Option MmId × Kernel :=
  match k.mms.get? src, k.env.mmAddr with
  | some mm, some dst =>
    if (k.mms.get? dst).isSome ∨ dst = initMm then (none, k)
    else
      match cloneVmas dst mm.vmaTree.toList mm.cloneLayout k with
      | (false, k) => (none, k.abandonClone dst)
      | (true, k) =>
        match cloneUserPresentPages src dst mm.vmaTree.toList k with
        | (false, k) => (none, k.abandonClone dst)
        | (true, k) => (some dst, k)
  | _, _ => (none, k)

/-! ### References -/

def mmRetain (id : MmId) : Kernel :=
  if id = initMm then k
  else { k with mms := k.mms.modify id fun mm => { mm with mmCount := u32Add mm.mmCount 1 } }

def mmRelease (id : MmId) : Kernel :=
  if id = initMm then k
  else
    match k.mms.get? id with
    | none => k
    | some mm =>
      if mm.mmCount ≤ 1 then { k with fs := releaseMmVmaBackings mm k.fs }.teardownPrivateMm id
      else k.setMm id { mm with mmCount := mm.mmCount - 1 }

end Kernel

end JanuaryOs.Virt

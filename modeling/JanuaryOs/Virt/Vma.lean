import JanuaryOs.Virt.Flags
import JanuaryOs.Libs.Mptree.Tree

/-!
# Address spaces and their virtual memory areas (`mm/virt/vma.rs`)

An `Mm` holds its areas in an interval tree, the layout of the program in it and
the page table of its user half. The page table is the map from page numbers to
leaf entries that walking the table levels computes. Three counters
(`locked_vm`, `shared_vm`, `data_vm`) and the user count are only ever copied
and are left out.
-/

namespace JanuaryOs.Virt

open Lib Libs.Mptree

/-! ### Areas -/

/-- What is known about an area; `file` is the backing of a file mapping. -/
structure VmaInfo where
  flags : VmFlags
  pgoff : ℕ := 0
  file : Option ℕ := none
  deriving Repr, DecidableEq

/-- An area with its bounds. -/
abbrev Vma := Interval VmaInfo

/-- A leaf entry of a page table. -/
structure Pte where
  pfn : Pfn
  flags : PteFlags
  deriving Repr, DecidableEq

/-- The page of an address. -/
def pageNumber (addr : ℕ) : ℕ := addr / pageSize

/-! ### Address spaces -/

/-- `Mm`, the address space of one or more processes. -/
structure Mm where
  vmaTree : MapleTree VmaInfo
  vmaCount : ℕ
  mmCount : ℕ
  /-- Leaf entries of the user half, by page number. -/
  pageTable : OrdMap ℕ Pte
  startCode : ℕ
  endCode : ℕ
  startData : ℕ
  endData : ℕ
  startBrk : ℕ
  brk : ℕ
  startStack : ℕ
  argStart : ℕ
  argEnd : ℕ
  envStart : ℕ
  envEnd : ℕ
  mmapBase : ℕ
  mmapLegacyBase : ℕ
  totalVm : ℕ
  execVm : ℕ
  stackVm : ℕ

namespace Mm

/-- `uninit` followed by `init`, with an empty page table. -/
def init : Mm where
  vmaTree := .new
  vmaCount := 0
  mmCount := 1
  pageTable := .empty
  startCode := 0
  endCode := 0
  startData := 0
  endData := 0
  startBrk := 0
  brk := 0
  startStack := 0
  argStart := 0
  argEnd := 0
  envStart := 0
  envEnd := 0
  mmapBase := userMmapBase
  mmapLegacyBase := userMmapBase
  totalVm := 0
  execVm := 0
  stackVm := 0

variable (mm : Mm)

/-- `translate_addr`, without the offset in the page. -/
def translate (addr : ℕ) : Option Pte := mm.pageTable.get? (pageNumber addr)

/-- The area that contains an address. -/
def findVma (addr : ℕ) : Option Vma := mm.vmaTree.find addr

/-- The first area that meets a range. -/
def findVmaIntersection (start stop : ℕ) : Option Vma :=
  mm.vmaTree.firstIntersecting start stop

/-- Room for a mapping, from a hint on. -/
def findFreeArea (hint size : ℕ) : Option ℕ :=
  let hint := pageAlignUp hint
  mm.vmaTree.findGap (pageAlignUp size) (if hint < userSpaceStart then userSpaceStart else hint)
    (userSpaceEnd - pageSize)

/-- Add an area and count its pages. -/
def insertVma (start stop : ℕ) (info : VmaInfo) : Bool × Mm :=
  let nrPages := u64Sub stop start / pageSize
  match mm.vmaTree.insert start stop info with
  | .error _ => (false, mm)
  | .ok tree =>
    (true, { mm with
      vmaTree := tree
      vmaCount := u32Add mm.vmaCount 1
      totalVm := u64Add mm.totalVm nrPages
      execVm := if info.flags.exec then u64Add mm.execVm nrPages else mm.execVm
      stackVm := if info.flags.growsdown then u64Add mm.stackVm nrPages else mm.stackVm })

/-- Take an area out and its pages off the counters. -/
def removeVma (start : ℕ) : Option Vma × Mm :=
  match mm.vmaTree.remove start with
  | (none, _) => (none, mm)
  | (some vma, tree) =>
    let nrPages := u64Sub vma.stop start / pageSize
    (some vma, { mm with
      vmaTree := tree
      vmaCount := u32Sub mm.vmaCount 1
      totalVm := u64Sub mm.totalVm nrPages
      execVm := if vma.value.flags.exec then u64Sub mm.execVm nrPages else mm.execVm
      stackVm := if vma.value.flags.growsdown then u64Sub mm.stackVm nrPages else mm.stackVm })

/-! ### The heap -/

/-- Flags of an area made by `brk`. -/
def heapFlags : VmFlags :=
  { read := true, write := true, mayWrite := true, anonymous := true, heap := true }

/-- The growing branch of `do_brk`. -/
def growBrk (oldBrk newBrk : ℕ) : Except String Unit × Mm :=
  if (mm.findVmaIntersection oldBrk newBrk).isSome then
    (.error "brk conflicts with existing VMA", mm)
  else
    match (mm.vmaTree.find (oldBrk - 1)).filter (·.value.flags.heap) with
    | some vma =>
      match mm.vmaTree.replace vma.start newBrk vma.value with
      | (.ok _, tree) =>
        (.ok (), { mm with
          vmaTree := tree
          totalVm := u64Add mm.totalVm ((newBrk - vma.stop) / pageSize) })
      | (.error _, tree) => (.error "brk expansion failed", { mm with vmaTree := tree })
    | none =>
      match mm.insertVma oldBrk newBrk { flags := heapFlags } with
      | (true, mm) => (.ok (), mm)
      | (false, mm) => (.error "brk create heap vma failed", mm)

/-- The shrinking branch of `do_brk`. The pages above the new break stay mapped. -/
def shrinkBrk (oldBrk newBrk : ℕ) : Except String Unit × Mm :=
  match (mm.vmaTree.find newBrk).filter
      (fun vma => vma.value.flags.heap && decide (vma.start ≤ newBrk)) with
  | some vma =>
    match mm.vmaTree.replace vma.start newBrk vma.value with
    | (.ok _, tree) =>
      (.ok (), { mm with
        vmaTree := tree
        totalVm := u64Sub mm.totalVm ((oldBrk - newBrk) / pageSize) })
    | (.error _, tree) => (.error "brk shrink failed", { mm with vmaTree := tree })
  | none => (.ok (), mm)

/-- `do_brk`: move the end of the heap. -/
def doBrk (newBrk : ℕ) : Except String ℕ × Mm :=
  let newBrk := pageAlignUp newBrk
  let oldBrk := mm.brk
  if newBrk < mm.startBrk then (.error "brk below start", mm)
  else if newBrk = oldBrk then (.ok oldBrk, mm)
  else
    match if oldBrk < newBrk then mm.growBrk oldBrk newBrk else mm.shrinkBrk oldBrk newBrk with
    | (.error e, mm) => (.error e, mm)
    | (.ok _, mm) => (.ok newBrk, { mm with brk := newBrk })

/-! ### The stack -/

/-- Above the highest byte of the stack. -/
def stackTopAddr : ℕ := if mm.startStack ≠ 0 then mm.startStack else userStackTop

/-- The stack does not grow below this. -/
def stackExpandMinAddr : ℕ := mm.stackTopAddr - userStackSize

/-- Move the start of a stack area down. -/
def expandStack (vmaStart newStart : ℕ) : Bool × Mm :=
  if vmaStart ≤ newStart then (false, mm)
  else
    match mm.vmaTree.moveStart vmaStart newStart with
    | (.ok _, tree) =>
      let delta := (vmaStart - newStart) / pageSize
      (true, { mm with
        vmaTree := tree
        stackVm := u64Add mm.stackVm delta
        totalVm := u64Add mm.totalVm delta })
    | (.error _, tree) => (false, { mm with vmaTree := tree })

/-- Growth for an access below the pages counted so far. -/
def expandStackForFault (faultAddr : ℕ) : Option Vma × Mm :=
  let pageAddr := pageAlignDown faultAddr
  let stackBottom := mm.stackTopAddr - mm.stackVm * pageSize % 2 ^ 64
  if pageAddr < mm.stackExpandMinAddr ∨ stackBottom ≤ pageAddr then (none, mm)
  else
    match mm.vmaTree.lowerBound pageAddr with
    | some vma =>
      if vma.value.flags.growsdown ∧ pageAddr < vma.start then
        match mm.expandStack vma.start pageAddr with
        | (false, mm) => (none, mm)
        | (true, mm) => (mm.findVma pageAddr, mm)
      else (none, mm)
    | none => (none, mm)

end Mm

/-! ### Arguments of `mmap` and `mprotect` -/

def mapShared : UInt32 := 0x01
def mapPrivate : UInt32 := 0x02
def mapFixed : UInt32 := 0x10
def mapAnonymous : UInt32 := 0x20
def mapGrowsdown : UInt32 := 0x0100
def mapLocked : UInt32 := 0x2000
def mapHugetlb : UInt32 := 0x40000

def protRead : UInt32 := 0x1
def protWrite : UInt32 := 0x2
def protExec : UInt32 := 0x4

/-- A bit of a flags word. -/
def hasBit (word bit : UInt32) : Bool := word &&& bit != 0

/-- `mmap_flags_to_vm_flags`. The caller has refused locked and huge mappings. -/
def mmapFlagsToVmFlags (prot flags : UInt32) : VmFlags where
  read := hasBit prot protRead
  write := hasBit prot protWrite
  mayWrite := hasBit prot protWrite
  exec := hasBit prot protExec
  shared := hasBit flags mapShared
  anonymous := hasBit flags mapAnonymous
  growsdown := hasBit flags mapGrowsdown

/-- `user_vma_intersection`: the part of an area in user space. -/
def userVmaIntersection (start stop : ℕ) : Option (ℕ × ℕ) :=
  let lo := max start userSpaceStart
  let hi := min stop userSpaceEnd
  if lo < hi then some (lo, hi) else none

end JanuaryOs.Virt

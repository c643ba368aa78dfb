import JanuaryOs.Proc.Process
import JanuaryOs.Virt.Kernel

/-!
# Page faults (`mm/virt/fault.rs`)

The error code of a fault is the three bits the handler reads. A fault in an
area without a file and without the anonymous flag looks for a page that
`execve` recorded; the list of recorded pages of the current process is an
argument.
-/

namespace JanuaryOs.Virt

open Proc (ExecMappedPage)

/-- The bits of a page fault error code. -/
structure PageFaultError where
  present : Bool
  write : Bool
  instr : Bool
  deriving Repr, DecidableEq

inductive FaultResult
  | retry
  | sigsegv
  | sigbus
  | kernelOops
  | oom
  deriving Repr, DecidableEq

/-- First address handled as a kernel fault. -/
def kernelFaultBase : ℕ := 0xFFFF800000000000

def checkAccessPermissions (flags : VmFlags) (error : PageFaultError) : Bool :=
  !(error.write && !flags.write) && !(error.instr && !flags.exec) &&
    !(!error.write && !error.instr && !flags.read)

namespace Kernel

variable (k : Kernel)

/-- Map a page that was just allocated, give it back if that fails, and count
the mapping. -/
def mapNewPage (id : MmId) (addr : ℕ) (f : Pfn) (flags : PteFlags) :
    FaultResult × Kernel :=
  match k.mapPage id addr f flags with
  | (false, k) => (.oom, k.freePage f)
  | (true, k) => (.retry, k.modifyFrame f .incMapcount)

def mapZeroPage (id : MmId) (vma : Vma) (addr : ℕ) : FaultResult × Kernel :=
  match k.allocPage with
  | (none, k) => (.oom, k)
  | (some f, k) => (k.fillPage f fun _ => 0).mapNewPage id addr f vma.value.flags.toUserPteFlags

/-- Where in its file a page of an area starts; nothing if that overflows. -/
def fileOffset (vma : Vma) (addr : ℕ) : Option ℕ :=
  let page := vma.value.pgoff + (addr - vma.start) / pageSize
  if addr < vma.start ∨ u64Max < page ∨ u64Max < page * pageSize then none
  else some (page * pageSize)

/-- The branch of `handle_file_fault` for an area with a backing. -/
def mapFilePage (id : MmId) (vma : Vma) (backing addr : ℕ) : FaultResult × Kernel :=
  match fileOffset vma addr with
  | none => (.sigbus, k)
  | some offset =>
    match k.allocPage with
    | (none, k) => (.oom, k)
    | (some f, k) =>
      match (k.fs.mmapBackings.get? backing).bind fun b => k.env.readPage b.inode offset with
      | none => (.sigbus, k.freePage f)
      | some data => (k.fillPage f data).mapNewPage id addr f vma.value.flags.toUserPteFlags

variable (recorded : List ExecMappedPage)

/-- The branch of `handle_file_fault` that maps a page recorded by `execve`
again. It takes no reference to the frame. -/
def mapRecordedPage (id : MmId) (addr : ℕ) :
    FaultResult × Kernel :=
  match recorded.find? fun m => m.virt = addr with
  | none => (.sigbus, k)
  | some m =>
    if m.phys = 0 then (.sigbus, k)
    else
      match k.mapPage id addr m.phys m.flags with
      | (false, k) => (.oom, k)
      | (true, k) => (.retry, k.modifyFrame m.phys .incMapcount)

def handleFileFault (id : MmId) (vma : Vma) (addr : ℕ) :
    FaultResult × Kernel :=
  match vma.value.file with
  | some backing => k.mapFilePage id vma backing addr
  | none => k.mapRecordedPage recorded id addr

def handleNotPresent (id : MmId) (vma : Vma) (addr : ℕ) :
    FaultResult × Kernel :=
  if vma.value.flags.anonymous then k.mapZeroPage id vma addr
  else k.handleFileFault recorded id vma addr

/-- `do_cow_fault`, for the entry that `handle_write_protection` has found. -/
def doCowFault (id : MmId) (vma : Vma) (addr : ℕ) (old : Pte) :
    FaultResult × Kernel :=
  match k.allocPage with
  | (none, k) => (.oom, k)
  | (some f, k) =>
    (k.fillPage f (k.memory old.pfn)).mapNewPage id addr f vma.value.flags.toUserPteFlags

def handleWriteProtection (id : MmId) (vma : Vma) (addr : ℕ) :
    FaultResult × Kernel :=
  if !vma.value.flags.mayWrite then (.sigsegv, k)
  else
    match k.translate id addr with
    | none => (.sigsegv, k)
    | some old =>
      if (k.frames old.pfn).refcount = 1 then
        match k.mapPage id addr old.pfn vma.value.flags.toUserPteFlags with
        | (false, k) => (.oom, k)
        | (true, k) => (.retry, k)
      else k.doCowFault id vma addr old

/-- Steps 4 and 5 of `handle_page_fault`, for the area of the address. -/
def handleVmaFault (id : MmId) (vma : Vma) (addr : ℕ)
    (error : PageFaultError) : FaultResult × Kernel :=
  let page := pageAlignDown addr
  if !checkAccessPermissions vma.value.flags error then (.sigsegv, k)
  else if !error.present then k.handleNotPresent recorded id vma page
  else if error.write then k.handleWriteProtection id vma page
  else (.sigsegv, k)

def handlePageFault (id : MmId) (addr : ℕ) (error : PageFaultError)
    : FaultResult × Kernel :=
  if kernelFaultBase ≤ addr then (.kernelOops, k)
  else
    match k.mms.get? id with
    | none => (.kernelOops, k)
    | some mm =>
      match mm.findVma addr with
      | some vma => k.handleVmaFault recorded id vma addr error
      | none =>
        match mm.expandStackForFault addr with
        | (some vma, mm) => (k.setMm id mm).handleVmaFault recorded id vma addr error
        | (none, mm) => (.sigsegv, k.setMm id mm)

end Kernel

end JanuaryOs.Virt

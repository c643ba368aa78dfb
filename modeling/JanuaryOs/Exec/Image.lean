import JanuaryOs.Exec.Elf
import JanuaryOs.Virt.Fault

/-!
# Exchanging the image of a process (`task/proc/exec.rs`)

Pages come and go through the page table `id` of the calling process. What was
mapped is recorded with its address, its frame and its flags, and everything
that is undone later (`rollback`, `unmap`, `remap`) goes by that record, not by
what the page table says at that time.
-/

namespace JanuaryOs.Virt.Frame

/-- `release_mapped_phys_page`: as `release_user_mapped_phys`, but a reserved
frame loses its reference as well. -/
def releaseMapped (f : Frame) : Frame := f.decMapcount.put

end JanuaryOs.Virt.Frame

namespace JanuaryOs.Exec

open Lib Virt Proc

/-! ### Pages of a plan -/

/-- A page to map for a new image, with the segment that fills it. -/
structure StagePage where
  virt : ℕ
  flags : PteFlags
  kind : ExecMappedPageKind
  segment : Option ExecLoadSegmentPlan

def ExecLoadSegmentPlan.stagePages (s : ExecLoadSegmentPlan) : List StagePage :=
  (List.range s.pageCount).map fun i =>
    ⟨s.pageStart + i * pageSize, s.mapFlags, .segment, some s⟩

namespace ExecLoadPlan

def stackBottom (plan : ExecLoadPlan) : ℕ := plan.stackTop - plan.stackPages * pageSize

/-- The pages of the initial stack, writable and not executable. -/
def stackStagePages (plan : ExecLoadPlan) : List StagePage :=
  (List.range plan.stackPages).map fun i =>
    ⟨plan.stackBottom + i * pageSize, ⟨true, true⟩, .stack, none⟩

/-- All pages of a new image in the order in which they are mapped. -/
def stagePages (plan : ExecLoadPlan) : List StagePage :=
  plan.segments.flatMap ExecLoadSegmentPlan.stagePages ++ plan.stackStagePages

end ExecLoadPlan

/-! ### Mapping pages -/

variable (k : Kernel)

def mapZeroPage (id : MmId) (virt : ℕ) (flags : PteFlags) :
    Except Errno Pfn × Kernel :=
  match k.allocPage with
  | (none, k) => (.error .ENOMEM, k)
  | (some f, k) =>
    match (k.fillPage f fun _ => 0).mapNewPage id virt f flags with
    | (.retry, k) => (.ok f, k)
    | (_, k) => (.error .ENOMEM, k)

/-- `copy_segment_page_data`, as what it makes of the page. -/
def copySegmentPageData (image : List UInt8) (s : ExecLoadSegmentPlan) (page : ℕ)
    (data : PageData) : Except Errno PageData :=
  if u64Max < s.vaddr + s.fileSize then .error .E2BIG
  else if s.fileSize = 0 then .ok data
  else if u64Max < page + pageSize then .error .E2BIG
  else
    let copyStart := max page s.vaddr
    let copyEnd := min (page + pageSize) (s.vaddr + s.fileSize)
    if copyEnd ≤ copyStart then .ok data
    else
      let src := s.fileOffset + (copyStart - s.vaddr)
      if u64Max < src + (copyEnd - copyStart) then .error .E2BIG
      else if image.length < src + (copyEnd - copyStart) then .error .EINVAL
      else .ok fun i =>
        if copyStart ≤ page + i ∧ page + i < copyEnd then
          image.getD (src + (page + i - copyStart)) 0
        else data i

/-- What a page is filled with after it was mapped. -/
def StagePage.fill (image : List UInt8) (p : StagePage) (data : PageData) : Except Errno PageData :=
  match p.segment with
  | none => .ok data
  | some s => copySegmentPageData image s p.virt data

/-- The loops of `stage_pt_load_mappings` over the pages; `mapped` are those
mapped so far. -/
def stageLoop (image : List UInt8) (id : MmId) :
    List StagePage → List ExecMappedPage → Kernel →
      Except Errno Unit × List ExecMappedPage × Kernel
  | [], mapped, k => (.ok (), mapped, k)
  | p :: rest, mapped, k =>
    match mapZeroPage k id p.virt p.flags with
    | (.error e, k) => (.error e, mapped, k)
    | (.ok f, k) =>
      let mapped := mapped ++ [⟨p.virt, f, p.flags, p.kind⟩]
      match p.fill image (k.memory f) with
      | .error e => (.error e, mapped, k)
      | .ok data => stageLoop image id rest mapped (k.fillPage f data)

def rangesOverlap (startA endA startB endB : ℕ) : Bool := startA < endB && startB < endA

variable (mm : Mm)

/-- The tests of `stage_pt_load_mappings` before the first page is mapped, with
`validate_target_unmapped` as the last. -/
def checkStage (plan : ExecLoadPlan) : Except Errno Unit :=
  if plan.stackTop < plan.stackPages * pageSize then .error .EINVAL
  else if plan.stackBottom < userSpaceStart then .error .EINVAL
  else if plan.stackTop ≤ plan.stackBottom then .error .EINVAL
  else if userSpaceEnd ≤ plan.stackBottom ∨ userSpaceEnd ≤ plan.stackTop - 1 then .error .EINVAL
  else if plan.segments.any fun s =>
      rangesOverlap s.pageStart s.pageEnd plan.stackBottom plan.stackTop then .error .EINVAL
  else if plan.stagePages.any fun p => (mm.translate p.virt).isSome then .error .EBUSY
  else .ok ()

/-! ### Recorded pages -/

/-- `rollback_exec_mappings`: the last page goes first. -/
def rollbackExecMappings (id : MmId) (mapped : List ExecMappedPage) : Kernel :=
  mapped.reverse.foldl
    (fun k m => (k.unmapPage id m.virt).modifyFrame m.phys .releaseMapped) k

/-- `unmap_exec_mappings`. The frames keep their references. -/
def unmapExecMappings (id : MmId) (mapped : List ExecMappedPage) : Kernel :=
  mapped.reverse.foldl (fun k m => k.unmapPage id m.virt) k

/-- The loop of `remap_exec_mappings`; `done` with the last page first. -/
def remapLoop (id : MmId) :
    List ExecMappedPage → List ExecMappedPage → Kernel → Except Errno Unit × Kernel
  | [], _, k => (.ok (), k)
  | m :: rest, done, k =>
    match k.mapPage id m.virt m.phys m.flags with
    | (false, k) => (.error .ENOMEM, done.foldl (fun k m => k.unmapPage id m.virt) k)
    | (true, k) => remapLoop id rest (m :: done) k

def remapExecMappings (id : MmId) (mapped : List ExecMappedPage) :
    Except Errno Unit × Kernel :=
  remapLoop id mapped [] k

def stagePtLoadMappings (id : MmId) (image : List UInt8) (plan : ExecLoadPlan) :
    Except Errno (List ExecMappedPage) × Kernel :=
  match k.mms.get? id with
  | none => (.error .ENOMEM, k)
  | some mm =>
    match checkStage mm plan with
    | .error e => (.error e, k)
    | .ok _ =>
      match stageLoop image id plan.stagePages [] k with
      | (.ok _, mapped, k) => (.ok mapped, k)
      | (.error e, mapped, k) => (.error e, rollbackExecMappings k id mapped)

/-! ### Areas -/

def ExecLoadSegmentPlan.vmFlags (s : ExecLoadSegmentPlan) : VmFlags where
  read := true
  anonymous := true
  exec := s.executable
  code := s.executable
  write := s.writable
  mayWrite := s.writable
  data := s.writable

def stackVmFlags : VmFlags :=
  { read := true, write := true, mayWrite := true, anonymous := true, growsdown := true }

def buildExecVmaPlan (plan : ExecLoadPlan) : List Vma :=
  plan.segments.map (fun s => ⟨s.pageStart, s.pageEnd, { flags := s.vmFlags }⟩) ++
    [⟨plan.stackBottom, plan.stackTop, { flags := stackVmFlags }⟩]

/-- The fields of an address space that describe the layout of a program. -/
structure ExecMmLayoutSnapshot where
  startCode : ℕ
  endCode : ℕ
  startData : ℕ
  endData : ℕ
  startBrk : ℕ
  brk : ℕ
  startStack : ℕ
  argStart : ℕ
  argEnd : ℕ
  envStart : ℕ
  envEnd : ℕ
  mmapBase : ℕ
  mmapLegacyBase : ℕ
  deriving Repr, DecidableEq

def snapshotMmLayout : ExecMmLayoutSnapshot where
  startCode := mm.startCode
  endCode := mm.endCode
  startData := mm.startData
  endData := mm.endData
  startBrk := mm.startBrk
  brk := mm.brk
  startStack := mm.startStack
  argStart := mm.argStart
  argEnd := mm.argEnd
  envStart := mm.envStart
  envEnd := mm.envEnd
  mmapBase := mm.mmapBase
  mmapLegacyBase := mm.mmapLegacyBase

def restoreMmLayout (layout : ExecMmLayoutSnapshot) : Mm :=
  { mm with
    startCode := layout.startCode
    endCode := layout.endCode
    startData := layout.startData
    endData := layout.endData
    startBrk := layout.startBrk
    brk := layout.brk
    startStack := layout.startStack
    argStart := layout.argStart
    argEnd := layout.argEnd
    envStart := layout.envStart
    envEnd := layout.envEnd
    mmapBase := layout.mmapBase
    mmapLegacyBase := layout.mmapLegacyBase }

/-- What is needed to undo the exchange of the areas. -/
structure ExecVmaRestorePoint where
  layout : ExecMmLayoutSnapshot
  userVmas : List Vma

def userVmas : List Vma :=
  mm.vmaTree.toList.filter fun a => userSpaceStart < a.stop && a.start < userSpaceEnd

/-- Remove areas, whatever comes of each. -/
def removeVmas (vmas : List Vma) : Mm :=
  vmas.foldl (fun mm a => (mm.removeVma a.start).2) mm

/-- Insert areas, whatever comes of each. -/
def insertVmas (vmas : List Vma) : Mm :=
  vmas.foldl (fun mm a => (mm.insertVma a.start a.stop a.value).2) mm

/-- The loop that inserts the new areas; `inserted` with the last one first. -/
def installLoop : List Vma → List Vma → Mm → Except (List Vma) Unit × Mm
  | [], _, mm => (.ok (), mm)
  | a :: rest, inserted, mm =>
    match mm.insertVma a.start a.stop a.value with
    | (false, mm) => (.error inserted, mm)
    | (true, mm) => installLoop rest (a :: inserted) mm

/-- Where code and data of a program lie. -/
structure ImageBounds where
  startCode : ℕ
  endCode : ℕ
  startData : ℕ
  endData : ℕ
  brkBase : ℕ

/-- One round of the loop over the segments that finds code and data. -/
def ImageBounds.add (b : ImageBounds) (s : ExecLoadSegmentPlan) : ImageBounds :=
  let b := if s.executable then
      { b with
        startCode := if b.startCode = 0 ∨ s.pageStart < b.startCode then s.pageStart
          else b.startCode
        endCode := max b.endCode s.pageEnd }
    else b
  if s.writable then
    { b with
      startData := if b.startData = 0 ∨ s.pageStart < b.startData then s.pageStart
        else b.startData
      endData := max b.endData s.pageEnd
      brkBase := max b.brkBase s.pageEnd }
  else b

def ExecLoadPlan.bounds (plan : ExecLoadPlan) : ImageBounds :=
  plan.segments.foldl ImageBounds.add ⟨0, 0, 0, 0, 0⟩

def ExecLoadPlan.layout (plan : ExecLoadPlan) : ExecMmLayoutSnapshot where
  startCode := plan.bounds.startCode
  endCode := plan.bounds.endCode
  startData := plan.bounds.startData
  endData := plan.bounds.endData
  startBrk := plan.bounds.brkBase
  brk := plan.bounds.brkBase
  startStack := plan.stackTop
  argStart := 0
  argEnd := 0
  envStart := 0
  envEnd := 0
  mmapBase := userMmapBase
  mmapLegacyBase := userMmapBase

def installCurrentExecVmas (plan : ExecLoadPlan) :
    Except Errno ExecVmaRestorePoint × Mm :=
  let layout := snapshotMmLayout mm
  let old := userVmas mm
  match installLoop (buildExecVmaPlan plan) [] (removeVmas mm old) with
  | (.error inserted, mm) =>
    (.error .EBUSY, restoreMmLayout (insertVmas (removeVmas mm inserted) old) layout)
  | (.ok _, mm) => (.ok ⟨layout, old⟩, restoreMmLayout mm plan.layout)

def restoreCurrentExecVmas (restore : ExecVmaRestorePoint) : Mm :=
  restoreMmLayout (insertVmas (removeVmas mm (userVmas mm)) restore.userVmas) restore.layout

end JanuaryOs.Exec

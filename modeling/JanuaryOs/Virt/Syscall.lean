import JanuaryOs.Virt.Txn

/-!
# `mmap`, `munmap`, `mprotect` and `brk` (`mm/syscall/`)

A call acts on the address space `id` of the calling process. `brk` never fails:
it answers the break that is in force.
-/

namespace JanuaryOs.Virt

open Lib Fs

/-! ### Checking arguments -/

def mmapProtAllowed : UInt32 := protRead ||| protWrite ||| protExec

def mmapFlagsAllowed : UInt32 :=
  mapShared ||| mapPrivate ||| mapFixed ||| mapAnonymous ||| mapGrowsdown ||| mapLocked |||
    mapHugetlb

def mmapFlagsUnsupported : UInt32 := mapLocked ||| mapHugetlb

def pageAlignUpUsize (value : ℕ) : Except Errno ℕ :=
  if u64Max < value + (pageSize - 1) then .error .E2BIG
  else .ok ((value + (pageSize - 1)) / pageSize * pageSize)

def parseFd (raw : ℕ) : Except Errno ℤ :=
  if 2147483647 < raw then .error .EBADF else .ok raw

def validateUserMmapRange (start len : ℕ) : Except Errno Unit :=
  if len = 0 then .error .EINVAL
  else if u64Max < start + len then .error .ENOMEM
  else if start < userSpaceStart then .error .EINVAL
  else if userSpaceEnd < start + len then .error .ENOMEM
  else .ok ()

namespace Mm

/-- `range_unmapped_in_page_table`. -/
def rangeUnmapped (mm : Mm) (start stop : ℕ) : Bool :=
  (Kernel.pagesIn start stop).all fun addr => (mm.translate addr).isNone

/-- A round of `mmap_select_addr` gives up, finds a place or moves on. -/
inductive Selection
  | found (start : ℕ)
  | next (hint : ℕ)

/-- The loops of `mmap_select_addr`: look for a gap between the areas in which
no page is present either. -/
def selectLoop (mm : Mm) (len : ℕ) : ℕ → ℕ → Except Errno Selection
  | 0, hint => .ok (.next hint)
  | rounds + 1, hint =>
    match mm.findFreeArea hint len with
    | none => .error .ENOMEM
    | some start =>
      match validateUserMmapRange start len with
      | .error e => .error e
      | .ok _ =>
        if mm.rangeUnmapped start (start + len) then .ok (.found start)
        else if userSpaceEnd ≤ start + len then .error .ENOMEM
        else selectLoop mm len rounds (start + len)

/-- Rounds of each loop of `mmap_select_addr`. -/
def selectRounds : ℕ := 1024

def mmapSelectAddr (mm : Mm) (reqAddr len : ℕ) (flags : UInt32) : Except Errno ℕ :=
  if hasBit flags mapFixed then
    if reqAddr % pageSize ≠ 0 then .error .EINVAL
    else (validateUserMmapRange reqAddr len).map fun _ => reqAddr
  else
    let hint :=
      max (if reqAddr = 0 then mm.mmapBase else pageAlignUp reqAddr) userSpaceStart
    match mm.selectLoop len selectRounds hint with
    | .error e => .error e
    | .ok (.found start) => .ok start
    | .ok (.next hint) =>
      if hint = userSpaceStart then .error .ENOMEM
      else
        match mm.selectLoop len selectRounds userSpaceStart with
        | .error e => .error e
        | .ok (.found start) => .ok start
        | .ok (.next _) => .error .ENOMEM

/-- The first call of `brk` places the heap. -/
def placeHeap (mm : Mm) : Mm :=
  if mm.startBrk = 0 then
    let hint := userSpaceStart + 0x1000000
    let base := (mm.findFreeArea hint pageSize).getD hint
    { mm with startBrk := base, brk := base }
  else mm

end Mm

namespace Kernel

/-! ### `mmap` and `munmap` -/

variable (k : Kernel) (id : MmId)

def unmapRanges (ranges : List (ℕ × ℕ)) : Kernel :=
  ranges.foldl (fun k r => k.unmapAndReleasePages id r.1 r.2) k

/-- Cut a range out of an address space: areas first, then pages. -/
def unmapRange (mm : Mm) (addr stop : ℕ) : Except Errno Unit × Kernel :=
  match k.collectUnmapRangesForMm id mm addr stop with
  | (.error e, k) => (.error e, k)
  | (.ok ranges, k) => (.ok (), k.unmapRanges id ranges)

def createBacking (pid : ProcessId) (flags : UInt32) (fdRaw : ℕ) :
    Except Errno (Option ℕ) × Kernel :=
  if hasBit flags mapAnonymous then (.ok none, k)
  else
    match parseFd fdRaw with
    | .error e => (.error e, k)
    | .ok fd =>
      match k.fs.createMmapBackingForPid pid fd with
      | (.error e, fs) => (.error e, { k with fs := fs })
      | (.ok backing, fs) => (.ok (some backing), { k with fs := fs })

/-- The end of `sys_mmap`: insert the area, or give its backing back. -/
def insertMapping (start stop : ℕ) (info : VmaInfo) :
    Except Errno ℕ × Kernel :=
  let refuse (k : Kernel) : Except Errno ℕ × Kernel :=
    (.error .EBUSY, { k with fs := releaseBackings info.file.toList k.fs })
  match k.mms.get? id with
  | none => (.error .ESRCH, k)
  | some mm =>
    if (mm.findVmaIntersection start stop).isSome then refuse k
    else
      match mm.insertVma start stop info with
      | (true, mm) => (.ok start, k.setMm id mm)
      | (false, mm) => refuse (k.setMm id mm)

/-- The arguments of `mmap`. -/
structure MmapArgs where
  addr : ℕ
  length : ℕ
  prot : UInt32
  flags : UInt32
  fd : ℕ
  offset : ℕ

/-- The tests of `sys_mmap` before it looks for an address; the answer is the
length in whole pages. -/
def checkMmapArgs (args : MmapArgs) : Except Errno ℕ :=
  if args.length = 0 then .error .EINVAL
  else if args.prot &&& ~~~mmapProtAllowed != 0 then .error .EINVAL
  else if args.flags &&& ~~~mmapFlagsAllowed != 0 then .error .EINVAL
  else if args.flags &&& mmapFlagsUnsupported != 0 then .error .EINVAL
  else if hasBit args.flags mapShared = hasBit args.flags mapPrivate then .error .EINVAL
  else if args.offset % pageSize ≠ 0 then .error .EINVAL
  else
    match pageAlignUpUsize args.length with
    | .error e => .error e
    | .ok len => if len = 0 then .error .E2BIG else .ok len

/-- `sys_mmap` once the range is chosen and, for a fixed mapping, cleared. -/
def mapCleared (pid : ProcessId) (args : MmapArgs) (start len : ℕ) :
    Except Errno ℕ × Kernel :=
  match k.createBacking pid args.flags args.fd with
  | (.error e, k) => (.error e, k)
  | (.ok backing, k) =>
    k.insertMapping id start (start + len)
      ⟨mmapFlagsToVmFlags args.prot args.flags, args.offset / pageSize, backing⟩

def sysMmap (pid : ProcessId) (args : MmapArgs) :
    Except Errno ℕ × Kernel :=
  match k.mms.get? id with
  | none => (.error .ESRCH, k)
  | some mm =>
    match checkMmapArgs args with
    | .error e => (.error e, k)
    | .ok len =>
      match mm.mmapSelectAddr args.addr len args.flags with
      | .error e => (.error e, k)
      | .ok start =>
        if hasBit args.flags mapFixed then
          match k.unmapRange id mm start (start + len) with
          | (.error e, k) => (.error e, k)
          | (.ok _, k) => k.mapCleared id pid args start len
        else k.mapCleared id pid args start len

/-- The range of `munmap` and `mprotect`, with the error for a range outside
user space. -/
def checkRange (addr length : ℕ) (outside : Errno) : Except Errno ℕ :=
  match pageAlignUpUsize length with
  | .error e => .error e
  | .ok len =>
    if u64Max < addr + len then .error .ENOMEM
    else if addr < userSpaceStart ∨ userSpaceEnd < addr + len ∨ addr + len ≤ addr then
      .error outside
    else .ok (addr + len)

def sysMunmap (addr length : ℕ) : Except Errno Unit × Kernel :=
  if length = 0 then (.error .EINVAL, k)
  else if addr % pageSize ≠ 0 then (.error .EINVAL, k)
  else
    match checkRange addr length .EINVAL with
    | .error e => (.error e, k)
    | .ok stop =>
      match k.mms.get? id with
      | none => (.error .ESRCH, k)
      | some mm => k.unmapRange id mm addr stop

/-! ### `mprotect` and `brk` -/

def sysMprotect (addr length : ℕ) (prot : UInt32) :
    Except Errno Unit × Kernel :=
  if length = 0 then (.error .EINVAL, k)
  else if addr % pageSize ≠ 0 then (.error .EINVAL, k)
  else if prot &&& ~~~mmapProtAllowed != 0 then (.error .EINVAL, k)
  else
    match checkRange addr length .ENOMEM with
    | .error e => (.error e, k)
    | .ok stop =>
      match k.mms.get? id with
      | none => (.error .ENOMEM, k)
      | some mm => k.mprotectRangeForMm id mm addr stop prot

def sysBrk (req : ℕ) : ℕ × Kernel :=
  match k.mms.get? id with
  | none => (0, k)
  | some mm =>
    let mm := mm.placeHeap
    if req < mm.startBrk ∨ userSpaceEnd ≤ req then (mm.brk, k.setMm id mm)
    else
      match mm.doBrk req with
      | (.ok newBrk, mm) => (newBrk, k.setMm id mm)
      | (.error _, mm) => (mm.brk, k.setMm id mm)

end Kernel

end JanuaryOs.Virt

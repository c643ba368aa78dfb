import JanuaryOs.Base
import JanuaryOs.Lib.OrdMap

/-!
# Descriptor tables and pipes (`fs/runtime/manager.rs`)

`FsState` keeps one table per process, the next descriptor number to try for it,
its working directory, the pipes and the file backings of memory mappings.
Descriptors are `i32` in the kernel: tables are keyed by integers and the one
addition made on a descriptor saturates at `i32Max`. The search for a free
number is a loop that does not end once it has reached a used `i32Max`, so
`scanFd`, and every call that allocates a number, returns an `Option` whose
`none` stands for a call that does not return.
-/

namespace JanuaryOs.Fs

open Lib

/-! ### Machine integers -/

/-- Largest `i32`. -/
def i32Max : ℤ := 2147483647

/-- `i32::saturating_add(1)`. -/
def satSuccI32 (x : ℤ) : ℤ := if x < i32Max then x + 1 else x

/-- `saturating_add(1)` for an unsigned type whose largest value is `max`. -/
def satSucc (max n : ℕ) : ℕ := if n < max then n + 1 else n

/-! ### State -/

/-- First descriptor handed out; 0, 1 and 2 are the terminal. -/
def firstUserFd : ℤ := 3

/-- Open flag: close on exec. -/
def oCloexec : UInt32 := 0o2000000

/-- Open flag: do not block. -/
def oNonblock : UInt32 := 0o4000

/-- Open flag: must be a directory. -/
def oDirectory : UInt32 := 0o200000

/-- Mask of the access mode. -/
def oAccmode : UInt32 := 0o3

inductive OpenFile
  | vfs (inode offset : ℕ) (cloexec : Bool)
  | dir (inode cursor : ℕ) (cloexec : Bool)
  | pipeRead (pipeId : ℕ) (nonblocking cloexec : Bool)
  | pipeWrite (pipeId : ℕ) (nonblocking cloexec : Bool)
  deriving Repr, DecidableEq

def OpenFile.setCloexec (b : Bool) : OpenFile → OpenFile
  | .vfs inode offset _ => .vfs inode offset b
  | .dir inode cursor _ => .dir inode cursor b
  | .pipeRead id nonblocking _ => .pipeRead id nonblocking b
  | .pipeWrite id nonblocking _ => .pipeWrite id nonblocking b

/-- A pipe: bytes in flight and the number of descriptors on each end. -/
structure PipeState where
  data : List UInt8
  readers : ℕ
  writers : ℕ
  deriving Repr, DecidableEq

/-- A pipe as `pipe2` creates it, with one descriptor on each end. -/
def PipeState.new : PipeState := ⟨[], 1, 1⟩

/-- What a file-backed memory mapping reads from, shared by reference count. -/
structure MmapBacking where
  inode : ℕ
  refs : ℕ
  deriving Repr, DecidableEq

abbrev FdTable := OrdMap ℤ OpenFile

structure FsState where
  openFiles : OrdMap ProcessId FdTable
  nextFd : OrdMap ProcessId ℤ
  cwd : OrdMap ProcessId String
  nextPipeId : ℕ
  pipes : OrdMap ℕ PipeState
  nextMmapBackingId : ℕ
  mmapBackings : OrdMap ℕ MmapBacking

namespace FsState

def new : FsState where
  openFiles := .empty
  nextFd := .empty
  cwd := .empty
  nextPipeId := 1
  pipes := .empty
  nextMmapBackingId := 1
  mmapBackings := .empty

variable (s : FsState) {table : FdTable} (pid : ProcessId)

/-- The table of a process, empty if it has none yet. -/
def tableOf : FdTable := (s.openFiles.get? pid).getD .empty

def lookup (fd : ℤ) : Option OpenFile :=
  (s.tableOf pid).get? fd

/-- `cwd_for_pid`. The kernel enters the root for a process that has none yet,
which nothing can tell from no entry. -/
def cwdForPid : String := (s.cwd.get? pid).getD "/"

/-- `table.insert` on the table of a process, created on demand. -/
def setFile (fd : ℤ) (f : OpenFile) : FsState :=
  { s with openFiles := s.openFiles.insert pid ((s.tableOf pid).insert fd f) }

/-! ### Allocating a number -/

/-- The loop of `alloc_fd_from`: step over used numbers, at most `fuel` times. -/
def scanFd (table : FdTable) : ℕ → ℤ → Option ℤ
  | 0, _ => none
  | fuel + 1, fd =>
    if (table.get? fd).isSome then scanFd table fuel (satSuccI32 fd) else some fd

/-- How many different numbers the loop can visit from `fd`. After that many
rounds it is stuck at `i32Max`. -/
def scanFuel (fd : ℤ) : ℕ := (i32Max - fd).toNat + 1

/-- Where the search of `alloc_fd_from` starts. -/
def scanStart (minFd : ℤ) : ℤ :=
  let start := max minFd firstUserFd
  max ((s.nextFd.get? pid).getD start) start

def allocFdFrom (minFd : ℤ) : Option (ℤ × FsState) :=
  let first := s.scanStart pid minFd
  match scanFd (s.tableOf pid) (scanFuel first) first with
  | none => none
  | some fd =>
    some (fd, { s with
      openFiles := s.openFiles.insert pid (s.tableOf pid)
      nextFd := s.nextFd.insert pid (satSuccI32 fd) })

/-- The search returns the first free number at or above its start. -/
theorem scanFd_spec {fuel : ℕ} {fd r : ℤ} (h : scanFd table fuel fd = some r) :
    fd ≤ r ∧ table.get? r = none ∧ (fd ≤ i32Max → r ≤ i32Max) ∧
      ∀ x, fd ≤ x → x < r → (table.get? x).isSome := by
  induction fuel generalizing fd with
  | zero => cases h
  | succ fuel ih =>
    rw [scanFd] at h
    split at h
    · rename_i hused
      obtain ⟨hle, hfree, hmax, hbelow⟩ := ih h
      unfold satSuccI32 at hle hmax hbelow
      split at hle
      · refine ⟨by omega, hfree, fun _ => hmax (by split <;> omega), fun x hx hxr => ?_⟩
        by_cases heq : x = fd
        · rw [heq]
          exact hused
        · exact hbelow x (by split <;> omega) hxr
      · rename_i hge
        refine ⟨hle, hfree, fun hfd => hmax (by split <;> omega), fun x hx hxr => ?_⟩
        exact hbelow x (by split <;> omega) hxr
    · rename_i hfree
      cases h
      exact ⟨le_rfl, by simpa using hfree, id, fun x hx hxr => absurd hxr (not_lt.2 hx)⟩

theorem scanFd_of_free {fd x : ℤ} (hx : fd ≤ x) (hmax : x ≤ i32Max) (hfree : table.get? x = none) :
    ∃ r, scanFd table (scanFuel fd) fd = some r ∧ r ≤ x := by
  have hgen : ∀ (fuel : ℕ) (fd : ℤ), (i32Max - fd).toNat < fuel → fd ≤ x →
      ∃ r, scanFd table fuel fd = some r ∧ r ≤ x := by
    intro fuel
    induction fuel with
    | zero => intro fd hlt; omega
    | succ fuel ih =>
      intro fd hlt hx
      rw [scanFd]
      split
      · rename_i hused
        have hne : fd ≠ x := fun heq => by simp [heq, hfree] at hused
        rw [satSuccI32, if_pos (by omega)]
        exact ih (fd + 1) (by omega) (by omega)
      · exact ⟨fd, rfl, hx⟩
  exact hgen _ fd (Nat.lt_succ_self _) hx

theorem allocFdFrom_inv {s s1 : FsState} {pid : ProcessId} {minFd fd : ℤ}
    (h : s.allocFdFrom pid minFd = some (fd, s1)) :
    s1 = { s with
      openFiles := s.openFiles.insert pid (s.tableOf pid)
      nextFd := s.nextFd.insert pid (satSuccI32 fd) } ∧
    s.scanStart pid minFd ≤ fd ∧ s.lookup pid fd = none ∧
    (s.scanStart pid minFd ≤ i32Max → fd ≤ i32Max) ∧
    ∀ x, s.scanStart pid minFd ≤ x → x < fd → (s.lookup pid x).isSome := by
  unfold allocFdFrom at h
  simp only [] at h
  split at h
  · cases h
  · rename_i r hscan
    cases h
    exact ⟨rfl, scanFd_spec hscan⟩

def allocFd : Option (ℤ × FsState) :=
  s.allocFdFrom pid firstUserFd

/-! ### Opening -/

inductive FileType
  | regular
  | directory
  | other
  deriving Repr, DecidableEq

/-- `open_for_pid`, for a path already looked up: `inode` and its type are the
hint. -/
def openForPid (path : String) (flags : UInt32) (inode : ℕ) (type : FileType) :
    Option (Except Errno ℤ × FsState) :=
  let cloexec := flags &&& oCloexec != 0
  if path.isEmpty then some (.error .ENOENT, s)
  else if flags &&& ~~~(oAccmode ||| oCloexec ||| oDirectory) != 0 then some (.error .EINVAL, s)
  else if flags &&& oAccmode != 0 then some (.error .EROFS, s)
  else
    let file : Except Errno OpenFile := match type with
      | .directory => .ok (.dir inode 0 cloexec)
      | .regular =>
        if flags &&& oDirectory != 0 then .error .ENOTDIR else .ok (.vfs inode 0 cloexec)
      | .other => .error .ENOENT
    match file with
    | .error e => some (.error e, s)
    | .ok f =>
      match s.allocFd pid with
      | none => none
      | some (fd, s1) => some (.ok fd, s1.setFile pid fd f)

/-- `pipe2_for_pid`: both numbers are allocated before either is put in the
table. -/
def pipe2ForPid (flags : UInt32) :
    Option (Except Errno (ℤ × ℤ) × FsState) :=
  if flags &&& ~~~(oNonblock ||| oCloexec) != 0 then some (.error .EINVAL, s)
  else
    let nonblocking := flags &&& oNonblock != 0
    let cloexec := flags &&& oCloexec != 0
    let id := s.nextPipeId
    let s1 := { s with nextPipeId := satSucc u64Max s.nextPipeId }
    match s1.allocFd pid with
    | none => none
    | some (readFd, s2) =>
      match s2.allocFd pid with
      | none => none
      | some (writeFd, s3) =>
        let s4 := s3.setFile pid readFd (.pipeRead id nonblocking cloexec)
        let s5 := s4.setFile pid writeFd (.pipeWrite id nonblocking cloexec)
        some (.ok (readFd, writeFd), { s5 with pipes := s5.pipes.insert id .new })

/-! ### Closing and duplicating -/

/-- Lower the counts of a pipe, and drop the pipe when both are zero. -/
def updatePipe (id : ℕ) (f : PipeState → PipeState) : FsState :=
  match s.pipes.get? id with
  | none => s
  | some pipe =>
    let pipe' := f pipe
    if pipe'.readers = 0 ∧ pipe'.writers = 0 then { s with pipes := s.pipes.erase id }
    else { s with pipes := s.pipes.insert id pipe' }

/-- What closing a descriptor does to its pipe. -/
def releaseFile : OpenFile → FsState
  | .pipeRead id _ _ => s.updatePipe id fun p => { p with readers := p.readers - 1 }
  | .pipeWrite id _ _ => s.updatePipe id fun p => { p with writers := p.writers - 1 }
  | .vfs _ _ _ => s
  | .dir _ _ _ => s

def removeFile (fd : ℤ) : FsState :=
  { s with openFiles := s.openFiles.modify pid (·.erase fd) }

def closeForPid (fd : ℤ) : Except Errno Unit × FsState :=
  match s.lookup pid fd with
  | none => (.error .EBADF, s)
  | some f => (.ok (), (s.removeFile pid fd).releaseFile f)

/-- `duplicate_open_file`: one more descriptor on the same end of the pipe. -/
def duplicateOpenFile : OpenFile → FsState
  | .pipeRead id _ _ =>
    { s with pipes := s.pipes.modify id fun p => { p with readers := satSucc u32Max p.readers } }
  | .pipeWrite id _ _ =>
    { s with pipes := s.pipes.modify id fun p => { p with writers := satSucc u32Max p.writers } }
  | .vfs _ _ _ => s
  | .dir _ _ _ => s

def dupForPid (oldfd minNewfd : ℤ) (cloexec : Bool) :
    Option (Except Errno ℤ × FsState) :=
  match s.lookup pid oldfd with
  | none => some (.error .EBADF, s)
  | some old =>
    let f := old.setCloexec cloexec
    match (s.duplicateOpenFile f).allocFdFrom pid minNewfd with
    | none => none
    | some (fd, s1) => some (.ok fd, s1.setFile pid fd f)

/-- Never hand out a number that `dup2` has just taken. -/
def bumpNextFd (newfd : ℤ) : FsState :=
  let next := (s.nextFd.get? pid).getD firstUserFd
  { s with nextFd := s.nextFd.insert pid (if next ≤ newfd then satSuccI32 newfd else next) }

def dup2ForPid (oldfd newfd : ℤ) (cloexec : Bool) :
    Except Errno ℤ × FsState :=
  if newfd < 0 then (.error .EBADF, s)
  else
    match s.lookup pid oldfd with
    | none => (.error .EBADF, s)
    | some old =>
      if oldfd = newfd then (.ok newfd, s)
      else
        let f := old.setCloexec cloexec
        let s1 := (s.closeForPid pid newfd).2
        let s2 := s1.duplicateOpenFile f
        (.ok newfd, (s2.setFile pid newfd f).bumpNextFd pid newfd)

/-- `fcntl` with `F_DUPFD` or `F_DUPFD_CLOEXEC`. -/
def fcntlDupfd (fd minFd : ℤ) (cloexec : Bool) :
    Option (Except Errno ℤ × FsState) :=
  if fd < 0 then some (.error .EBADF, s)
  else if minFd < 0 then some (.error .EINVAL, s)
  else s.dupForPid pid fd minFd cloexec

/-- `drop_process_fds`: the table goes first, then each descriptor is released. -/
def dropProcessFds : FsState :=
  let files := (s.tableOf pid).entries.map (·.2)
  let s1 := { s with
    openFiles := s.openFiles.erase pid
    nextFd := s.nextFd.erase pid
    cwd := s.cwd.erase pid }
  files.foldl releaseFile s1

/-! ### Backings of file mappings -/

def createMmapBackingForPid (fd : ℤ) :
    Except Errno ℕ × FsState :=
  match s.lookup pid fd with
  | some (.vfs inode _ _) =>
    let id := s.nextMmapBackingId
    (.ok id, { s with
      nextMmapBackingId := satSucc u64Max id
      mmapBackings := s.mmapBackings.insert id ⟨inode, 1⟩ })
  | some (.dir _ _ _) => (.error .EISDIR, s)
  | _ => (.error .EBADF, s)

def retainMmapBacking (id : ℕ) : Except Errno Unit × FsState :=
  match s.mmapBackings.get? id with
  | none => (.error .EBADF, s)
  | some b =>
    (.ok (), { s with
      mmapBackings := s.mmapBackings.insert id { b with refs := satSucc u64Max b.refs } })

def releaseMmapBacking (id : ℕ) : FsState :=
  match s.mmapBackings.get? id with
  | none => s
  | some b =>
    if b.refs > 1 then
      { s with mmapBackings := s.mmapBackings.insert id { b with refs := b.refs - 1 } }
    else { s with mmapBackings := s.mmapBackings.erase id }

end FsState

end JanuaryOs.Fs

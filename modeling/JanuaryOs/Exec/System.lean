import JanuaryOs.Exec.Execve
import JanuaryOs.Proc.Manager
import JanuaryOs.Virt.Clone

/-!
# The process table together with the memory it speaks about

Exit, signals and reaping are the functions of `Proc.Manager`; here their calls
to other subsystems are carried out. `rollback_exec_mappings` works on the page
table that is in force, which is the one of the calling task, whosever record it
is given. `clone_current` (`task/proc/fork.rs`) decides whether a child shares
the address space of its parent or gets a copy of it.
-/

namespace JanuaryOs.Exec

open Lib Virt Proc

structure System where
  memory : Kernel
  tasks : TaskManager

/-- The arguments of `clone_current`. -/
structure CloneArgs where
  flags : UInt64
  childStack : UInt64 := 0
  parentTid : UInt64 := 0
  childTid : UInt64 := 0
  tls : UInt64 := 0

namespace CloneArgs

def CSIGNAL : UInt64 := 0x000000ff
def CLONE_VM : UInt64 := 0x00000100
def CLONE_VFORK : UInt64 := 0x00004000
def CLONE_THREAD : UInt64 := 0x00010000
def CLONE_SETTLS : UInt64 := 0x00080000
def CLONE_PARENT_SETTID : UInt64 := 0x00100000
def CLONE_CHILD_CLEARTID : UInt64 := 0x00200000
def CLONE_DETACHED : UInt64 := 0x00400000
def CLONE_CHILD_SETTID : UInt64 := 0x01000000

/-- `CLONE_SUPPORTED_FLAGS`. -/
def supportedFlags : UInt64 := CSIGNAL ||| CLONE_VM ||| CLONE_VFORK

def maxSignal : ℕ := 64

/-- A bit of the flags. -/
def has (args : CloneArgs) (bit : UInt64) : Bool := args.flags &&& bit != 0

/-- The signal that the parent gets when the child exits. -/
def exitSignal (args : CloneArgs) : ℕ := (args.flags &&& CSIGNAL).toNat

/-- The tests at the beginning of `clone_current`. -/
def check (args : CloneArgs) : Except Errno Unit :=
  if args.flags &&& ~~~supportedFlags != 0 then .error .EINVAL
  else if args.has CLONE_VFORK && !args.has CLONE_VM then .error .EINVAL
  else if args.has CLONE_VM && !args.has CLONE_VFORK then .error .EINVAL
  else if args.childStack != 0 || args.parentTid != 0 || args.childTid != 0 || args.tls != 0 ||
      args.has CLONE_THREAD || args.has CLONE_PARENT_SETTID || args.has CLONE_CHILD_SETTID ||
      args.has CLONE_CHILD_CLEARTID || args.has CLONE_SETTLS || args.has CLONE_DETACHED then
    .error .EINVAL
  else if maxSignal < args.exitSignal then .error .EINVAL
  else .ok ()

end CloneArgs

/-- Where a child gets its address space from. -/
inductive SpawnMmMode
  | inheritShared
  | inheritPrivate
  | inheritInit
  | inheritInitPrivate
  deriving Repr, DecidableEq

namespace System

variable (s : System) (tid : TaskId)

def process : Option Process := s.tasks.findProcessByPid (s.tasks.tasks tid).pid

/-- `current_mm_ptr`, and the page table that is in force while the task runs. -/
def currentMm : MmId := ((s.process tid).map Process.mm).getD initMm

def recorded : List ExecMappedPage :=
  ((s.process tid).map Process.execMappings).getD []

/-! ### Calls of the task manager -/

/-- One call of the task manager to memory or files; `current` is the page table
in force. -/
def applyEffect (current : MmId) (k : Kernel) : Effect → Kernel
  | .rollbackExecMappings mappings => rollbackExecMappings k current mappings
  | .dropProcessFds pid => { k with fs := k.fs.dropProcessFds pid }
  | .mmRelease id => k.mmRelease id
  | .removeTasksByPid _ | .addTask _ => k

/-- The new process table and what the calls do. -/
def apply (current : MmId) (result : TaskManager × List Effect) : System where
  memory := result.2.foldl (applyEffect current) s.memory
  tasks := result.1

def exitCurrentProcess (code : ℤ) : System :=
  s.apply (s.currentMm tid) (s.tasks.exitCurrentProcess tid code)

/-- `send_signal`, called by a task. -/
def sendSignal (pid : ProcessId) (sig : ℤ) : System :=
  s.apply (s.currentMm tid) (s.tasks.sendSignal (some (s.tasks.tasks tid).pid) pid sig).2

/-- `reap_observed_child`, called by a task of the parent. -/
def reapObservedChild (child : ProcessId) : System :=
  s.apply (s.currentMm tid) (s.tasks.reapObservedChild tid child).2

/-- `reap_orphan_zombie_process`, called by any task. -/
def reapOrphanZombieProcess (pid : ProcessId) : System :=
  s.apply (s.currentMm tid) (s.tasks.reapOrphanZombieProcess pid)

/-! ### New processes -/

def resolveChildMm (parentMm : MmId) : SpawnMmMode → Option MmId × Kernel
  | .inheritShared => (some parentMm, s.memory.mmRetain parentMm)
  | .inheritPrivate => s.memory.mmClone parentMm
  | .inheritInit => (some initMm, s.memory.mmRetain initMm)
  | .inheritInitPrivate => s.memory.mmClone initMm

/-- `clone_current` up to the new process; `pid` and `child` are the numbers it
gets. A parent that has to wait for a `vfork` child does so afterwards and
changes nothing. -/
def cloneCurrent (args : CloneArgs) (pid : ProcessId) (child : TaskId) :
    Except Errno ProcessId × System :=
  match args.check with
  | .error e => (.error e, s)
  | .ok _ =>
    let mode : SpawnMmMode :=
      if args.has CloneArgs.CLONE_VM then .inheritShared else .inheritPrivate
    match s.resolveChildMm (s.currentMm tid) mode with
    | (none, k) => (.error .ENOMEM, { s with memory := k })
    | (some mm, k) =>
      let isCloneChild := args.exitSignal != 0 && (args.exitSignal : ℤ) != TaskManager.SIGCHLD
      (.ok pid, ⟨k, (s.tasks.spawnMinimalChild (some tid) pid child mm isCloneChild).1⟩)

/-- `sys_execve` for a task, with its arguments read; nothing if the machine
stops. -/
def execve (x : ExecEnv) (payload : ExecPayload) : Option System :=
  match s.process tid with
  | none => some s
  | some p =>
    match execvePayload x p.mm p.execMappings payload s.memory with
    | none => none
    | some (_, k, recorded) =>
      some ⟨k, s.tasks.setProcess (s.tasks.tasks tid).pid { p with execMappings := recorded }⟩

end System

end JanuaryOs.Exec

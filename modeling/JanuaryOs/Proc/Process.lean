import JanuaryOs.Virt.Flags

/-!
# Process and task records (`task/proc/process.rs`, `task/thread/task.rs`)

A process keeps its own list of tasks; the task objects themselves are shared,
so the list holds identifiers and the objects live in the task manager's heap.
-/

namespace JanuaryOs.Proc

open Virt (PteFlags)

inductive TaskStatus
  | ready
  | running
  /-- Switched away from, context not yet saved. -/
  | switching
  | blocked
  | exited
  deriving Repr, DecidableEq, Inhabited

structure Task where
  pid : ProcessId
  status : TaskStatus
  exitCode : Option ℤ := none
  deriving Repr, DecidableEq, Inhabited

inductive ProcessStatus
  | running
  | stopped
  | exiting
  | zombie
  deriving Repr, DecidableEq, Inhabited

/-- Why `execve` mapped a page. -/
inductive ExecMappedPageKind
  | segment
  | stack
  deriving Repr, DecidableEq

/-- A page mapped by `execve`, as it was when it was mapped. -/
structure ExecMappedPage where
  virt : ℕ
  /-- The frame it was mapped to. -/
  phys : Pfn
  flags : PteFlags
  kind : ExecMappedPageKind
  deriving Repr, DecidableEq

structure Process where
  pid : ProcessId
  pgid : ProcessId
  mm : MmId
  isCloneChild : Bool := false
  status : ProcessStatus := .running
  parent : Option ProcessId := none
  parentTid : Option TaskId := none
  children : List ProcessId := []
  tasks : List TaskId := []
  exitCode : Option ℤ := none
  waitStopSignal : Option ℤ := none
  waitStopReported : Bool := false
  waitContinuedPending : Bool := false
  execMappings : List ExecMappedPage := []
  deriving Repr, DecidableEq

namespace Process

variable (p : Process)

/-- Record a child, once. -/
def addChild (child : ProcessId) : Process :=
  if child ∈ p.children then p else { p with children := p.children ++ [child] }

def removeChild (child : ProcessId) : Process :=
  { p with children := p.children.erase child }

/-- Start exiting with a code; pending wait events are dropped. -/
def markExiting (code : ℤ) : Process :=
  { p with
    status := .exiting
    exitCode := some code
    waitStopSignal := none
    waitStopReported := false
    waitContinuedPending := false }

/-- Become a zombie; the exit code stays. -/
def markZombie : Process :=
  { p with
    status := .zombie
    waitStopSignal := none
    waitStopReported := false
    waitContinuedPending := false }

def markStopped (signal : ℤ) : Process :=
  { p with
    status := .stopped
    waitStopSignal := some signal
    waitStopReported := false
    waitContinuedPending := false }

def markContinued : Process :=
  { p with
    status := .running
    waitStopSignal := none
    waitStopReported := false
    waitContinuedPending := true }

/-- The stop has been reported to a waiting parent. -/
def markWaitStoppedReported : Process := { p with waitStopReported := true }

/-- The continuation has been reported to a waiting parent. -/
def clearWaitContinuedPending : Process :=
  { p with waitContinuedPending := false }

/-- Take the recorded exec pages, leaving none. -/
def takeExecMappings : List ExecMappedPage × Process :=
  (p.execMappings, { p with execMappings := [] })

end Process

end JanuaryOs.Proc

import JanuaryOs.Lib.OrdMap
import JanuaryOs.Proc.Process

/-!
# The task manager (`task/runtime/manager.rs`, `task/proc/signal.rs`)

Process table, task objects, exit, signals and reaping.

Each operation is split along the lock it runs under. What it does to the
process table and to the task objects is the returned `TaskManager`; what it
asks of the rest of the kernel (descriptors, address spaces, run queues) is the
returned list of `Effect`s, in the order in which the source makes the calls.
None of those calls writes a process status or a task status, so statements
about statuses need the first component only, and statements about memory
interpret the second.

"Current" is a parameter: `exitCurrentTask s tid code` is the call made by task
`tid`.
-/

namespace JanuaryOs.Proc

open Lib Function

/-- A call an operation makes to another subsystem. -/
inductive Effect
  /-- Undo recorded exec pages in the address space of the calling process. -/
  | rollbackExecMappings (mappings : List ExecMappedPage)
  /-- Close every descriptor of a process. -/
  | dropProcessFds (pid : ProcessId)
  /-- Drop one reference to an address space. -/
  | mmRelease (mm : MmId)
  /-- Take the tasks of a process off the run queues. -/
  | removeTasksByPid (pid : ProcessId)
  | addTask (tid : TaskId)
  deriving Repr, DecidableEq

/-- The process table and the task objects. The manager's own table of tasks is
left out: what is modelled here reaches a task through its process. -/
structure TaskManager where
  processes : OrdMap ProcessId Process
  /-- The task objects: shared pointers, so a lookup always succeeds. -/
  tasks : TaskId → Task

namespace TaskManager

/-- `process_ref.lock()` followed by a write. -/
def setProcess (s : TaskManager) (pid : ProcessId) (p : Process) : TaskManager :=
  { s with processes := s.processes.insert pid p }

def setTask (s : TaskManager) (tid : TaskId) (t : Task) : TaskManager :=
  { s with tasks := update s.tasks tid t }

def findProcessByPid (s : TaskManager) (pid : ProcessId) : Option Process :=
  s.processes.get? pid

def exitTask (s : TaskManager) (code : ℤ) (tid : TaskId) : TaskManager :=
  s.setTask tid { s.tasks tid with status := .exited, exitCode := some code }

def exitTasks (s : TaskManager) (code : ℤ) (tids : List TaskId) : TaskManager :=
  tids.foldl (fun s tid => s.exitTask code tid) s

/-- `remove_process_by_pid`. -/
def removeProcess (s : TaskManager) (pid : ProcessId) : TaskManager :=
  { s with processes := s.processes.erase pid }

/-- `reap_orphan_zombie_process`: a zombie without a parent is removed on the
spot. -/
def reapOrphanZombieProcess (s : TaskManager) (pid : ProcessId) :
    TaskManager × List Effect :=
  match s.findProcessByPid pid with
  | none => (s, [])
  | some p =>
    if p.parent = none ∧ p.status = .zombie then
      (s.removeProcess pid, [.dropProcessFds pid, .mmRelease p.mm, .removeTasksByPid pid])
    else (s, [])

/-- `exit_current_task`: the process becomes a zombie with the last of its
tasks. -/
def exitCurrentTask (s : TaskManager) (tid : TaskId) (code : ℤ) : TaskManager × List Effect :=
  let s1 := s.exitTask code tid
  let pid := (s.tasks tid).pid
  match s1.findProcessByPid pid with
  | none => (s1, [])
  | some p =>
    if p.tasks.all (fun t => (s1.tasks t).status = .exited) then
      let taken := (p.markExiting code).markZombie.takeExecMappings
      let s2 := s1.setProcess pid taken.2
      let rollback := if taken.1.isEmpty then [] else [.rollbackExecMappings taken.1]
      if p.parent = none then
        let reaped := s2.reapOrphanZombieProcess pid
        (reaped.1, rollback ++ reaped.2)
      else (s2, rollback)
    else (s1, [])

/-- `exit_current_process`: all tasks exit and the process becomes a zombie. -/
def exitCurrentProcess (s : TaskManager) (tid : TaskId) (code : ℤ) :
    TaskManager × List Effect :=
  let pid := (s.tasks tid).pid
  match s.findProcessByPid pid with
  | none => (s.exitTask code tid, [])
  | some p =>
    let s1 := s.exitTasks code p.tasks
    let taken := (p.markExiting code).markZombie.takeExecMappings
    let s2 := s1.setProcess pid taken.2
    let rollback := if taken.1.isEmpty then [] else [.rollbackExecMappings taken.1]
    if p.parent = none then
      let reaped := s2.reapOrphanZombieProcess pid
      (reaped.1, rollback ++ [.removeTasksByPid pid] ++ reaped.2)
    else (s2, rollback ++ [.removeTasksByPid pid])

/-! ### Signals -/

/-- Signal numbers with a meaning of their own. -/
def SIGCHLD : ℤ := 17
def SIGKILL : ℤ := 9
def SIGTERM : ℤ := 15
def SIGSTOP : ℤ := 19
def SIGCONT : ℤ := 18

/-- Block a task unless it has exited. -/
def blockTask (s : TaskManager) (tid : TaskId) : TaskManager :=
  if (s.tasks tid).status ≠ .exited then s.setTask tid { s.tasks tid with status := .blocked }
  else s

/-- Make a blocked task ready; tell whether it was blocked. -/
def wakeTask (s : TaskManager) (tid : TaskId) : TaskManager × Bool :=
  if (s.tasks tid).status = .blocked then
    (s.setTask tid { s.tasks tid with status := .ready }, true)
  else (s, false)

/-- Wake and queue the blocked tasks of a list, one after the other. -/
def wakeTasks (s : TaskManager) : List TaskId → TaskManager × List Effect
  | [] => (s, [])
  | tid :: tids =>
    let woken := s.wakeTask tid
    let rest := woken.1.wakeTasks tids
    (rest.1, if woken.2 then .addTask tid :: rest.2 else rest.2)

/-- The result of `send_signal`: whether the target is the caller, the new state
and the calls made. -/
abbrev SignalResult := Except Errno Bool × TaskManager × List Effect

/-- `send_signal`; `current` is the process of the caller. No case looks at the
status of the target. -/
def sendSignal (s : TaskManager) (current : Option ProcessId) (pid : ProcessId) (sig : ℤ) :
    SignalResult :=
  match s.findProcessByPid pid with
  | none => (.error .ESRCH, s, [])
  | some p =>
    if sig = 0 ∨ sig = SIGCHLD then (.ok false, s, [])
    else if sig = SIGTERM ∨ sig = SIGKILL then
      let code := 128 + sig
      let s1 := s.exitTasks code p.tasks
      (.ok (current = some pid), s1.setProcess pid (p.markExiting code).markZombie,
        [.removeTasksByPid pid])
    else if sig = SIGSTOP then
      let s1 := s.setProcess pid (p.markStopped SIGSTOP)
      (.ok (current = some pid), p.tasks.foldl blockTask s1, [.removeTasksByPid pid])
    else if sig = SIGCONT then
      let woken := (s.setProcess pid p.markContinued).wakeTasks p.tasks
      (.ok false, woken.1, woken.2)
    else (.error .EINVAL, s, [])

/-! ### Waiting -/

/-- The event a waiting parent acknowledges. -/
inductive WaitChildConsumeEvent
  | stopped
  | continued
  deriving Repr, DecidableEq

/-- `parent_owns_child`: the calling process, if the child is one of its own. -/
def parentOwnsChild (s : TaskManager) (tid : TaskId) (child : ProcessId) : Option Process :=
  match s.findProcessByPid (s.tasks tid).pid with
  | none => none
  | some parent => if child ∈ parent.children then some parent else none

/-- `reap_observed_child`: collect a zombie child. -/
def reapObservedChild (s : TaskManager) (tid : TaskId) (child : ProcessId) :
    Option (ProcessId × ℤ) × TaskManager × List Effect :=
  match s.parentOwnsChild tid child with
  | none => (none, s, [])
  | some _ =>
    match s.findProcessByPid child with
    | none => (none, s, [])
    | some c =>
      if c.status ≠ .zombie then (none, s, [])
      else
        let taken := c.takeExecMappings
        let s1 := s.setProcess child taken.2
        -- the parent is locked again here: it may be the child itself
        let ppid := (s.tasks tid).pid
        let s2 := match s1.findProcessByPid ppid with
          | none => s1
          | some parent => s1.setProcess ppid (parent.removeChild child)
        let rollback := if taken.1.isEmpty then [] else [.rollbackExecMappings taken.1]
        (some (child, c.exitCode.getD 0), s2.removeProcess child,
          [.dropProcessFds child, .mmRelease c.mm, .removeTasksByPid child] ++ rollback)

/-- `consume_observed_wait_event`: acknowledge a stop or a continuation of a
child. -/
def consumeObservedWaitEvent (s : TaskManager) (tid : TaskId) (child : ProcessId)
    (event : WaitChildConsumeEvent) : Bool × TaskManager :=
  match s.parentOwnsChild tid child with
  | none => (false, s)
  | some _ =>
    match s.findProcessByPid child with
    | none => (false, s)
    | some c =>
      match event with
      | .stopped =>
        if c.status ≠ .stopped ∨ c.waitStopReported then (false, s)
        else (true, s.setProcess child c.markWaitStoppedReported)
      | .continued =>
        if !c.waitContinuedPending then (false, s)
        else (true, s.setProcess child c.clearWaitContinuedPending)

/-! ### Spawning -/

/-- `Process::new_kernel_with_pid` with its task, as a child of the calling
task's process. -/
def newKernelWithPid (s : TaskManager) (current : Option TaskId) (pid : ProcessId)
    (tid : TaskId) (mm : MmId) : Process :=
  let parent := current.map fun t => (s.tasks t).pid
  { pid := pid
    pgid := ((parent.bind s.findProcessByPid).map Process.pgid).getD pid
    mm := mm
    parent := parent
    parentTid := current
    tasks := [tid] }

/-- `spawn_kernel_thread_with_mm_mode_checked`: a new process with one task.
`current` is the calling task, if there is one; `pid`, `tid` and `mm` are the
numbers and the address space the child gets. -/
def spawnKernelThread (s : TaskManager) (current : Option TaskId) (pid : ProcessId)
    (tid : TaskId) (mm : MmId) : TaskManager × List Effect :=
  let process := s.newKernelWithPid current pid tid mm
  let s1 : TaskManager :=
    { processes := s.processes.insert pid process
      tasks := update s.tasks tid ⟨pid, .ready, none⟩ }
  let s2 := match process.parent with
    | none => s1
    | some ppid =>
      match s1.findProcessByPid ppid with
      | none => s1
      | some p => s1.setProcess ppid (p.addChild pid)
  (s2, [.addTask tid])

/-- `spawn_minimal_child`: the child of `fork`, `vfork` or `clone`. -/
def spawnMinimalChild (s : TaskManager) (current : Option TaskId) (pid : ProcessId)
    (tid : TaskId) (mm : MmId) (isCloneChild : Bool) : TaskManager × List Effect :=
  let spawned := s.spawnKernelThread current pid tid mm
  match spawned.1.findProcessByPid pid with
  | none => spawned
  | some p => (spawned.1.setProcess pid { p with isCloneChild := isCloneChild }, spawned.2)

/-! ### What each helper touches -/

section Frame

variable (s : TaskManager)

@[simp] theorem find_setProcess (q pid : ProcessId) (p : Process) :
    (s.setProcess q p).findProcessByPid pid = if pid = q then some p else s.findProcessByPid pid :=
  OrdMap.get?_insert _ _ _ _

@[simp] theorem tasks_setProcess (q : ProcessId) (p : Process) :
    (s.setProcess q p).tasks = s.tasks := rfl

@[simp] theorem find_exitTask (code : ℤ) (tid : TaskId) (pid : ProcessId) :
    (s.exitTask code tid).findProcessByPid pid = s.findProcessByPid pid := rfl

@[simp] theorem find_removeProcess (q pid : ProcessId) :
    (s.removeProcess q).findProcessByPid pid = if pid = q then none else s.findProcessByPid pid :=
  OrdMap.get?_erase _ _ _

@[simp] theorem tasks_removeProcess (q : ProcessId) : (s.removeProcess q).tasks = s.tasks := rfl

theorem status_setTask (tid t : TaskId) (x : Task) :
    ((s.setTask tid x).tasks t).status = if t = tid then x.status else (s.tasks t).status := by
  unfold setTask
  by_cases h : t = tid
  · subst h
    simp
  · simp [h]

theorem status_exitTask (code : ℤ) (tid t : TaskId) :
    ((s.exitTask code tid).tasks t).status = if t = tid then .exited else (s.tasks t).status :=
  status_setTask s tid t _

@[simp] theorem find_exitTasks (code : ℤ) (tids : List TaskId) (pid : ProcessId) :
    (s.exitTasks code tids).findProcessByPid pid = s.findProcessByPid pid := by
  induction tids generalizing s with
  | nil => rfl
  | cons tid tids ih => exact (ih _).trans (find_exitTask s code tid pid)

theorem status_exitTasks (code : ℤ) (tids : List TaskId) (t : TaskId) :
    ((s.exitTasks code tids).tasks t).status
      = if t ∈ tids then .exited else (s.tasks t).status := by
  induction tids generalizing s with
  | nil => simp [exitTasks]
  | cons tid tids ih =>
    refine (ih _).trans ?_
    rw [status_exitTask]
    by_cases h : t = tid <;> by_cases h' : t ∈ tids <;> simp [h, h']

@[simp] theorem find_blockTask (tid : TaskId) (pid : ProcessId) :
    (s.blockTask tid).findProcessByPid pid = s.findProcessByPid pid := by
  unfold blockTask
  split <;> rfl

@[simp] theorem find_foldl_blockTask (tids : List TaskId) (pid : ProcessId) :
    (tids.foldl blockTask s).findProcessByPid pid = s.findProcessByPid pid := by
  induction tids generalizing s with
  | nil => rfl
  | cons tid tids ih => exact (ih _).trans (find_blockTask s tid pid)

@[simp] theorem find_wakeTask (tid : TaskId) (pid : ProcessId) :
    (s.wakeTask tid).1.findProcessByPid pid = s.findProcessByPid pid := by
  unfold wakeTask
  split <;> rfl

@[simp] theorem find_wakeTasks (tids : List TaskId) (pid : ProcessId) :
    (s.wakeTasks tids).1.findProcessByPid pid = s.findProcessByPid pid := by
  induction tids generalizing s with
  | nil => rfl
  | cons tid tids ih => exact (ih _).trans (find_wakeTask s tid pid)

/-! Stopping and waking skip exited tasks. -/

variable {s} {tids : List TaskId} {t : TaskId}

section

variable (h : (s.tasks t).status = .exited)

include h

theorem exited_blockTask {tid : TaskId} :
    ((s.blockTask tid).tasks t).status = .exited := by
  unfold blockTask
  split
  · rename_i hne
    rw [status_setTask, if_neg]
    · exact h
    · rintro rfl
      exact hne h
  · exact h

theorem exited_foldl_blockTask :
    ((tids.foldl blockTask s).tasks t).status = .exited := by
  induction tids generalizing s with
  | nil => exact h
  | cons tid tids ih => exact ih (exited_blockTask h)

theorem exited_wakeTask {tid : TaskId} :
    ((s.wakeTask tid).1.tasks t).status = .exited := by
  unfold wakeTask
  split
  · rename_i hblocked
    rw [status_setTask, if_neg]
    · exact h
    · rintro rfl
      rw [h] at hblocked
      cases hblocked
  · exact h

theorem exited_wakeTasks :
    ((s.wakeTasks tids).1.tasks t).status = .exited := by
  induction tids generalizing s with
  | nil => exact h
  | cons tid tids ih => exact ih (exited_wakeTask h)

end

end Frame

end TaskManager

end JanuaryOs.Proc

import JanuaryOs.Proc.Process

/-!
# The scheduler (`task/sched/mod.rs`) and who else moves tasks

The others are stdin wake-ups (`fs/syscall/stdin.rs`) and signals
(`task/proc/signal.rs`).

Several CPUs run `schedule()` at once, so the model is a step relation. A step
is what happens under one lock: `enqueue_on_cpu` takes two (one for the first
check of the status, one for the search of the queues and the insertion),
`schedule()` takes one for each of its stages, and between any two steps of one
CPU there may be steps of the others. The stage a CPU has reached, with the
tasks it holds in local variables, is its `Phase`. A caller of `add_task` that
is between the two sections of `enqueue_on_cpu` is an `EnqueueCall`.

The time accounting of `on_switch_in` and `on_switch_out` and the page table
switch have no influence on the queues and are left out. Slots and CPUs have the
same numbers: there are `n` of each.
-/

namespace JanuaryOs.Sched

open Function

open Proc (TaskStatus)

/-! ### State -/

/-- Where a CPU is in `schedule()`. `next` is nothing where the CPU goes idle. -/
inductive Phase
  /-- Not in `schedule()`. -/
  | user
  /-- The deferred tasks that are still to be pushed back; the first one may
  have passed the first section of `enqueue_on_cpu`. -/
  | flushing (ready : List TaskId) (marked : Bool)
  /-- In `pick_next`, after as many slots have been tried. -/
  | picking (tried : ℕ)
  /-- `pick_next` has returned a task. -/
  | picked (next : TaskId)
  /-- `pick_next` has returned nothing. -/
  | noTask
  /-- `prev` is no longer current, its status has not been looked at. -/
  | leaving (prev : TaskId) (next : Option TaskId)
  /-- `prev` has been marked `Switching`. -/
  | deferring (prev : TaskId) (next : Option TaskId)
  /-- About to call `do_switch`; the context of `prev` has not been saved. -/
  | switching (prev next : Option TaskId) (deferred : Bool)
  deriving DecidableEq, Repr

/-- A call of `enqueue_on_cpu`, before or after its first section. -/
structure EnqueueCall (n : ℕ) where
  task : TaskId
  cpu : Fin n
  marked : Bool
  deriving DecidableEq

instance : LawfulBEq (EnqueueCall n) := inferInstance

/-- The machine of the sample runs has two CPUs. -/
instance twoCpus : NeZero 2 := ⟨by decide⟩

/-- The state of the scheduler on a machine with `n` CPUs. -/
structure SchedState (n : ℕ) where
  status : TaskId → TaskStatus
  pid : TaskId → ProcessId
  runqueues : Fin n → List TaskId
  current : Fin n → Option TaskId
  deferred : List (Fin n × TaskId)
  /-- Whether the idle context of a CPU has been saved. -/
  idleSaved : Fin n → Bool
  phase : Fin n → Phase
  calls : List (EnqueueCall n)

namespace SchedState

variable {n : ℕ}

/-- Before the first task is added. New tasks are `Ready`. -/
def boot (n : ℕ) (pid : TaskId → ProcessId) : SchedState n where
  status := fun _ => .ready
  pid := pid
  runqueues := fun _ => []
  current := fun _ => none
  deferred := []
  idleSaved := fun _ => false
  phase := fun _ => .user
  calls := []

variable (s : SchedState n) (t : TaskId)

def setStatus (st : TaskStatus) : SchedState n :=
  { s with status := update s.status t st }

variable (c : Fin n)

def setPhase (p : Phase) : SchedState n :=
  { s with phase := update s.phase c p }

def setQueue (slot : Fin n) (q : List TaskId) : SchedState n :=
  { s with runqueues := update s.runqueues slot q }

def setCurrent (t : Option TaskId) : SchedState n :=
  { s with current := update s.current c t }

/-! ### Enqueueing -/

/-- A task that is neither `Exited` nor `Running`. -/
def Schedulable : Prop :=
  s.status t ≠ .exited ∧ s.status t ≠ .running
deriving Decidable

/-- `mark_task_ready_if_schedulable`. -/
def markReady : Option (SchedState n) :=
  if s.Schedulable t then some (s.setStatus t .ready) else none

def ContainsTaskAnywhere : Prop := ∃ slot, t ∈ s.runqueues slot
deriving Decidable

/-- The second section of `enqueue_on_cpu`, under `ENQUEUE_SERIALIZE`. -/
def enqueueOnCpu (cpu : Fin n) : SchedState n :=
  if s.ContainsTaskAnywhere t then s
  else
    match s.markReady t with
    | none => s
    | some s => s.setQueue cpu (s.runqueues cpu ++ [t])

/-! ### Picking -/

/-- The loop of `pick_next_from_slot`: at most as many tasks as given are taken
from the front. An exited one is dropped, a ready one is chosen, another one
goes to the back. -/
def pickLoop (status : TaskId → TaskStatus) : ℕ → List TaskId → Option TaskId × List TaskId
  | 0, q => (none, q)
  | _ + 1, [] => (none, [])
  | k + 1, t :: q =>
    match status t with
    | .exited => pickLoop status k q
    | .ready => (some t, q)
    | _ => pickLoop status k (q ++ [t])

def pickNextFromSlot (status : TaskId → TaskStatus) (q : List TaskId) :
    Option TaskId × List TaskId :=
  pickLoop status q.length q

/-- `steal_from_slot`, the same from the back. -/
def stealFromSlot (status : TaskId → TaskStatus) (q : List TaskId) :
    Option TaskId × List TaskId :=
  let (found, rest) := pickLoop status q.length q.reverse
  (found, rest.reverse)

/-- The slot `pick_next` tries on a CPU after `tried` others. -/
def victim (tried : ℕ) : Fin n := ⟨(c + tried) % n, Nat.mod_lt _ c.pos⟩

/-- One slot of `pick_next`. -/
def pickFrom (tried : ℕ) : SchedState n :=
  let slot := victim c tried
  let (found, rest) :=
    if tried = 0 then pickNextFromSlot s.status (s.runqueues slot)
    else stealFromSlot s.status (s.runqueues slot)
  let s := s.setQueue slot rest
  match found with
  | some t => (s.setStatus t .running).setPhase c (.picked t)
  | none => s.setPhase c (if tried + 1 < n then .picking (tried + 1) else .noTask)

/-! ### Steps -/

/-- What `schedule()` does next when the tasks `ready` are left to push back. -/
def flushRest (ready : List TaskId) : Phase :=
  if ready = [] then .picking 0 else .flushing ready false

/-- `schedule()` starts and takes the tasks this CPU has deferred. -/
def flush : Option (SchedState n) :=
  match s.phase c with
  | .user =>
    let mine := s.deferred.filter fun x => x.1 = c
    let retained := s.deferred.filter fun x => x.1 ≠ c
    some ({ s with deferred := retained }.setPhase c (flushRest (mine.map Prod.snd)))
  | _ => none

/-- The first section of `push_back` for the next deferred task. -/
def flushMark : Option (SchedState n) :=
  match s.phase c with
  | .flushing (t :: ready) false =>
    match s.markReady t with
    | none => some (s.setPhase c (flushRest ready))
    | some s => some (s.setPhase c (.flushing (t :: ready) true))
  | _ => none

/-- The second one. -/
def flushCommit : Option (SchedState n) :=
  match s.phase c with
  | .flushing (t :: ready) true => some ((s.enqueueOnCpu t c).setPhase c (flushRest ready))
  | _ => none

def pick : Option (SchedState n) :=
  match s.phase c with
  | .picking tried => some (s.pickFrom c tried)
  | _ => none

/-- `replace_current_task`. -/
def replaceCurrent : Option (SchedState n) :=
  match s.phase c with
  | .picked next =>
    let phase :=
      match s.current c with
      | some prev => .leaving prev (some next)
      | none => .switching none (some next) false
    some ((s.setCurrent c (some next)).setPhase c phase)
  | _ => none

/-- No task was found: the current one is given up if there is an idle context
to go to. -/
def goIdle : Option (SchedState n) :=
  match s.phase c with
  | .noTask =>
    if s.idleSaved c then
      match s.current c with
      | some prev => some ((s.setCurrent c none).setPhase c (.leaving prev none))
      | none => some (s.setPhase c .user)
    else some (s.setPhase c .user)
  | _ => none

/-- The previous task is marked, unless it is `Exited` or `Blocked`. -/
def markPrev : Option (SchedState n) :=
  match s.phase c with
  | .leaving prev next =>
    match s.status prev with
    | .exited | .blocked => some (s.setPhase c (.switching (some prev) next false))
    | _ => some ((s.setStatus prev .switching).setPhase c (.deferring prev next))
  | _ => none

/-- `enqueue_deferred_requeue`. -/
def deferPrev : Option (SchedState n) :=
  match s.phase c with
  | .deferring prev next =>
    some ({ s with deferred := s.deferred ++ [(c, prev)] }.setPhase c
      (.switching (some prev) next true))
  | _ => none

/-- `do_switch` saves the context of the previous task, or the idle context, and
goes on with the next one. -/
def doSwitch : Option (SchedState n) :=
  match s.phase c with
  | .switching none _ _ =>
    some ({ s with idleSaved := update s.idleSaved c true }.setPhase c .user)
  | .switching (some _) _ _ => some (s.setPhase c .user)
  | _ => none

/-- `enqueue_current_stdin_waiter`: the current task is about to wait. -/
def block : Option (SchedState n) :=
  match s.phase c, s.current c with
  | .user, some t => if s.status t = .exited then none else some (s.setStatus t .blocked)
  | _, _ => none

/-- A `Blocked` task becomes `Ready`, and the caller goes on to `add_task`. -/
def resume (cpu : Fin n) : Option (SchedState n) :=
  if s.status t = .blocked then
    some { s.setStatus t .ready with calls := ⟨t, cpu, false⟩ :: s.calls }
  else some s

/-- The first section of `add_task`. -/
def addTask (cpu : Fin n) : Option (SchedState n) :=
  match s.markReady t with
  | none => some s
  | some s => some { s with calls := ⟨t, cpu, true⟩ :: s.calls }

/-- The first section of an `add_task` whose caller has changed the status
before. -/
def callMark (call : EnqueueCall n) : Option (SchedState n) :=
  if call ∈ s.calls ∧ call.marked = false then
    let rest := s.calls.erase call
    match s.markReady call.task with
    | none => some { s with calls := rest }
    | some s => some { s with calls := { call with marked := true } :: rest }
  else none

/-- The second section of an `add_task`. -/
def callCommit (call : EnqueueCall n) : Option (SchedState n) :=
  if call ∈ s.calls ∧ call.marked = true then
    some ({ s with calls := s.calls.erase call }.enqueueOnCpu call.task call.cpu)
  else none

/-- One task in the loop of `SIGSTOP`. -/
def stop : Option (SchedState n) :=
  if s.status t = .exited then some s else some (s.setStatus t .blocked)

/-- One slot of `remove_tasks_by_pid`. -/
def removeTasks (pid : ProcessId) (slot : Fin n) : Option (SchedState n) :=
  some (s.setQueue slot ((s.runqueues slot).filter fun t => s.pid t ≠ pid))

end SchedState

/-- The steps. Those of `schedule()` come first, in their order. -/
inductive SchedStep (n : ℕ)
  | flush (c : Fin n)
  | flushMark (c : Fin n)
  | flushCommit (c : Fin n)
  | pick (c : Fin n)
  | replaceCurrent (c : Fin n)
  | goIdle (c : Fin n)
  | markPrev (c : Fin n)
  | deferPrev (c : Fin n)
  | doSwitch (c : Fin n)
  | block (c : Fin n)
  /-- A task is marked `Exited`, by itself or by a signal. -/
  | exit (t : TaskId)
  | wakeStdin (t : TaskId) (cpu : Fin n)
  | sigCont (t : TaskId) (cpu : Fin n)
  | sigStop (t : TaskId)
  | removeTasks (pid : ProcessId) (slot : Fin n)
  | addTask (t : TaskId) (cpu : Fin n)
  | callMark (call : EnqueueCall n)
  | callCommit (call : EnqueueCall n)
  deriving DecidableEq

/-- What a step does; nothing if it cannot be taken. -/
def SchedState.step {n : ℕ} (s : SchedState n) : SchedStep n → Option (SchedState n)
  | .flush c => s.flush c
  | .flushMark c => s.flushMark c
  | .flushCommit c => s.flushCommit c
  | .pick c => s.pick c
  | .replaceCurrent c => s.replaceCurrent c
  | .goIdle c => s.goIdle c
  | .markPrev c => s.markPrev c
  | .deferPrev c => s.deferPrev c
  | .doSwitch c => s.doSwitch c
  | .block c => s.block c
  | .exit t => some (s.setStatus t .exited)
  | .wakeStdin t cpu => s.resume t cpu
  | .sigCont t cpu => s.resume t cpu
  | .sigStop t => s.stop t
  | .removeTasks pid slot => s.removeTasks pid slot
  | .addTask t cpu => s.addTask t cpu
  | .callMark call => s.callMark call
  | .callCommit call => s.callCommit call

end JanuaryOs.Sched

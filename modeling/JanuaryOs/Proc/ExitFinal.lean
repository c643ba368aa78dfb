import JanuaryOs.Lib.Trace
import JanuaryOs.Proc.Manager

/-!
# When is exit final? A zombie should keep its status and exit code until it is reaped

Two invariants carry the answer. `ZombiesExited` holds in every run: whichever
operation turns a process into a zombie has seen, or made, all its tasks exited,
and no operation revives an exited task. `Settled` (the process is gone, or a
zombie with code `c`) only survives the steps of `KeepsZombies`: `send_signal`
never looks at the status of its target, so a stop, a continuation or a second
fatal signal rewrites a zombie, and so does an exit call of a zombie's own task
that was still running when the process was killed.
-/

namespace JanuaryOs.Proc

open Lib TaskManager

inductive ProcOp
  | exitCurrentTask (tid : TaskId) (code : ℤ)
  | exitCurrentProcess (tid : TaskId) (code : ℤ)
  | sendSignal (current : Option ProcessId) (pid : ProcessId) (sig : ℤ)
  | consumeObservedWaitEvent (tid : TaskId) (child : ProcessId)
      (event : WaitChildConsumeEvent)
  | reapObservedChild (tid : TaskId) (child : ProcessId)
  deriving Repr, DecidableEq

variable (s : TaskManager)

def TaskManager.step : ProcOp → TaskManager
  | .exitCurrentTask tid code => (s.exitCurrentTask tid code).1
  | .exitCurrentProcess tid code => (s.exitCurrentProcess tid code).1
  | .sendSignal current pid sig => (s.sendSignal current pid sig).2.1
  | .consumeObservedWaitEvent tid child event => (s.consumeObservedWaitEvent tid child event).2
  | .reapObservedChild tid child => (s.reapObservedChild tid child).2.1

def ZombiesExited : Prop :=
  ∀ pid p, s.findProcessByPid pid = some p → p.status = .zombie →
    ∀ t ∈ p.tasks, (s.tasks t).status = .exited

/-- Process `pid` is a zombie with exit code `c`, and all its tasks have exited. -/
def ZombieWith (pid : ProcessId) (c : ℤ) : Prop :=
  ∃ p, s.findProcessByPid pid = some p ∧ p.status = .zombie ∧ p.exitCode = some c ∧
    ∀ t ∈ p.tasks, (s.tasks t).status = .exited

/-- Process `pid` is gone, or a zombie with exit code `c`. -/
def Settled (pid : ProcessId) (c : ℤ) : Prop :=
  s.findProcessByPid pid = none ∨ ZombieWith s pid c

/-- An exit call of a task of a zombie that has a parent repeats the zombie's
code. -/
def ExitKeeps (tid : TaskId) (code : ℤ) : Prop :=
  ∀ p c, s.findProcessByPid (s.tasks tid).pid = some p → p.status = .zombie →
    p.exitCode = some c → p.parent = none ∨ code = c

/-- A signal to a zombie is neither a stop nor a continuation, and if it is
fatal it carries the zombie's code. -/
def SignalKeeps (pid : ProcessId) (sig : ℤ) : Prop :=
  ∀ p c, s.findProcessByPid pid = some p → p.status = .zombie → p.exitCode = some c →
    sig ≠ SIGSTOP ∧ sig ≠ SIGCONT ∧ (sig = SIGTERM ∨ sig = SIGKILL → 128 + sig = c)

/-- The calls that do not rewrite a zombie. -/
def KeepsZombies : ProcOp → Prop
  | .exitCurrentTask tid code => ExitKeeps s tid code
  | .exitCurrentProcess tid code => ExitKeeps s tid code
  | .sendSignal _ pid sig => SignalKeeps s pid sig
  | .consumeObservedWaitEvent _ _ _ => True
  | .reapObservedChild _ _ => True

/-! ### The end of an exit call -/

/-- The zombie an exit call leaves in the table. -/
def zombieOf (p : Process) (code : ℤ) : Process :=
  (p.markExiting code).markZombie.takeExecMappings.2

/-- The state an exit call of `p` leaves: the zombie stays for a parent to
collect, and is removed when there is none. -/
def afterExit (pid : ProcessId) (p : Process) (code : ℤ) : TaskManager :=
  let s' := s.setProcess pid (zombieOf p code)
  if p.parent = none then (s'.reapOrphanZombieProcess pid).1 else s'

theorem find_afterExit (pid q : ProcessId) (p : Process) (code : ℤ) :
    (afterExit s pid p code).findProcessByPid q
      = if q = pid then (if p.parent = none then none else some (zombieOf p code))
        else s.findProcessByPid q := by
  unfold afterExit
  by_cases hparent : p.parent = none
  · have hz : (zombieOf p code).parent = none ∧ (zombieOf p code).status = .zombie :=
      ⟨hparent, rfl⟩
    simp only [hparent, if_true, reapOrphanZombieProcess, find_setProcess]
    rw [if_pos hz, find_removeProcess, find_setProcess]
    split <;> rfl
  · simp only [hparent, if_false, find_setProcess]

theorem tasks_reapOrphan (pid : ProcessId) :
    (s.reapOrphanZombieProcess pid).1.tasks = s.tasks := by
  unfold reapOrphanZombieProcess
  split
  · rfl
  · split <;> rfl

theorem tasks_afterExit (pid : ProcessId) (p : Process) (code : ℤ) :
    (afterExit s pid p code).tasks = s.tasks := by
  unfold afterExit
  by_cases hparent : p.parent = none
  · simp only [hparent, if_true, tasks_reapOrphan, tasks_setProcess]
  · simp only [hparent, if_false, tasks_setProcess]

/-- All tasks of the process, the caller included, have exited. -/
def AllExited (p : Process) : Prop :=
  ∀ t ∈ p.tasks, (s.tasks t).status = .exited

variable {s : TaskManager} {tid : TaskId} {code : ℤ} {p : Process} {a : ProcOp} {t : TaskId}

theorem exitCurrentTask_last (hp : s.findProcessByPid (s.tasks tid).pid = some p)
    (hall : AllExited (s.exitTask code tid) p) :
    (s.exitCurrentTask tid code).1 = afterExit (s.exitTask code tid) (s.tasks tid).pid p code := by
  have hall' : p.tasks.all fun t => ((s.exitTask code tid).tasks t).status = .exited := by
    simpa [AllExited] using hall
  unfold exitCurrentTask afterExit
  simp only [find_exitTask, hp, hall', if_true]
  split <;> rfl

theorem exitCurrentTask_quiet
    (h : ∀ p, s.findProcessByPid (s.tasks tid).pid = some p → ¬ AllExited (s.exitTask code tid) p) :
    (s.exitCurrentTask tid code).1 = s.exitTask code tid := by
  unfold exitCurrentTask
  simp only [find_exitTask]
  cases hp : s.findProcessByPid (s.tasks tid).pid with
  | none => rfl
  | some p =>
    have hall : ¬ (p.tasks.all fun t => ((s.exitTask code tid).tasks t).status = .exited) := by
      simpa [AllExited] using h p hp
    simp only [hall, if_false, Bool.false_eq_true]

theorem exitCurrentProcess_some (hp : s.findProcessByPid (s.tasks tid).pid = some p) :
    (s.exitCurrentProcess tid code).1
      = afterExit (s.exitTasks code p.tasks) (s.tasks tid).pid p code := by
  unfold exitCurrentProcess afterExit
  simp only [hp]
  split <;> rfl

theorem exitCurrentProcess_none (hp : s.findProcessByPid (s.tasks tid).pid = none) :
    (s.exitCurrentProcess tid code).1 = s.exitTask code tid := by
  simp only [exitCurrentProcess, hp]

/-! ### What one call does to one process -/

/-- Call `a` puts process `q` to rest with this exit code. -/
inductive EndsWith (s : TaskManager) (q : ProcessId) : ProcOp → ℤ → Prop
  | task (tid : TaskId) (code : ℤ) : (s.tasks tid).pid = q →
      (∀ p, s.findProcessByPid q = some p → p.parent ≠ none) →
      EndsWith s q (.exitCurrentTask tid code) code
  | process (tid : TaskId) (code : ℤ) : (s.tasks tid).pid = q →
      (∀ p, s.findProcessByPid q = some p → p.parent ≠ none) →
      EndsWith s q (.exitCurrentProcess tid code) code
  | signal (current : Option ProcessId) (sig : ℤ) : sig = SIGTERM ∨ sig = SIGKILL →
      EndsWith s q (.sendSignal current q sig) (128 + sig)

/-- How a call `a` from `s` to `s'` takes the entry of process `q` from one
value to another. -/
inductive Evolves (s s' : TaskManager) (a : ProcOp) (q : ProcessId) :
    Option Process → Option Process → Prop
  /-- The process is not, or no longer, in the table. -/
  | gone (o : Option Process) : Evolves s s' a q o none
  /-- Its status, code and tasks are untouched. -/
  | same (p p' : Process) : p'.status = p.status → p'.exitCode = p.exitCode →
      p'.tasks = p.tasks → Evolves s s' a q (some p) (some p')
  /-- It ends, and its tasks have exited. -/
  | ends (p p' : Process) (code : ℤ) : EndsWith s q a code → p'.status = .zombie →
      p'.exitCode = some code → p'.tasks = p.tasks →
      (∀ t ∈ p.tasks, (s'.tasks t).status = .exited) → Evolves s s' a q (some p) (some p')
  /-- It is stopped or continued. -/
  | moves (p p' : Process) (current : Option ProcessId) (sig : ℤ) :
      a = .sendSignal current q sig → sig = SIGSTOP ∨ sig = SIGCONT → p'.status ≠ .zombie →
      Evolves s s' a q (some p) (some p')

theorem Evolves.refl (s s' : TaskManager) (a : ProcOp) (q : ProcessId) :
    ∀ o : Option Process, Evolves s s' a q o o
  | none => .gone none
  | some p => .same p p rfl rfl rfl

/-! ### What a call does to the table -/

/-- The process that the call turns into a zombie. -/
def dying (s : TaskManager) : ProcOp → Option ProcessId
  | .exitCurrentTask tid code =>
    match s.findProcessByPid (s.tasks tid).pid with
    | none => none
    | some p =>
      if p.tasks.all (fun t => ((s.exitTask code tid).tasks t).status = .exited) then
        some (s.tasks tid).pid
      else none
  | .exitCurrentProcess tid _ => some (s.tasks tid).pid
  | .sendSignal _ pid sig => if sig = SIGTERM ∨ sig = SIGKILL then some pid else none
  | .consumeObservedWaitEvent .. | .reapObservedChild .. => none

/-- The call is `send_signal`. -/
def isSignal : ProcOp → Bool
  | .sendSignal .. => true
  | _ => false

/-- What a call `a` from `s` to `s'` does to the process table. -/
inductive TableChange (s : TaskManager) (a : ProcOp) (s' : TaskManager) : Prop
  | keep : (∀ q, s'.findProcessByPid q = s.findProcessByPid q) → TableChange s a s'
  /-- A record is written; its family is the same. -/
  | write (pid : ProcessId) (p p' : Process) : s.findProcessByPid pid = some p →
      p'.parent = p.parent → p'.children = p.children →
      (p'.execMappings = [] ∨ p'.execMappings = p.execMappings) →
      Evolves s s' a pid (some p) (some p') →
      (p'.status = .zombie → p.status = .zombie ∨ dying s a = some pid ∧
        (p.parent = none → isSignal a = true)) →
      (∀ q, s'.findProcessByPid q = if q = pid then some p' else s.findProcessByPid q) →
      TableChange s a s'
  /-- A process without a parent ends and is removed. -/
  | orphan (pid : ProcessId) (p : Process) : s.findProcessByPid pid = some p →
      dying s a = some pid →
      (∀ q, s'.findProcessByPid q = if q = pid then none else s.findProcessByPid q) →
      TableChange s a s'
  /-- A zombie is collected. -/
  | reap (ppid child : ProcessId) (pp c : Process) : s.findProcessByPid child = some c →
      c.status = .zombie → (ppid ≠ child → s.findProcessByPid ppid = some pp) →
      (∀ q, s'.findProcessByPid q = if q = child then none
        else if q = ppid then some (pp.removeChild child) else s.findProcessByPid q) →
      TableChange s a s'

theorem afterExit_table {s1 : TaskManager} {pid : ProcessId} (hp : s.findProcessByPid pid = some p)
    (hdies : dying s a = some pid)
    (hends : (∀ p, s.findProcessByPid pid = some p → p.parent ≠ none) → EndsWith s pid a code)
    (hs1 : ∀ q, s1.findProcessByPid q = s.findProcessByPid q) (hexited : AllExited s1 p) :
    TableChange s a (afterExit s1 pid p code) := by
  by_cases hparent : p.parent = none
  · refine .orphan pid p hp hdies fun q => ?_
    rw [find_afterExit, if_pos hparent, hs1]
  have hends' : EndsWith s pid a code := hends fun p' hp' => by
    rw [hp] at hp'
    cases hp'
    exact hparent
  refine .write pid p (zombieOf p code) hp rfl rfl (.inl rfl)
    (.ends p _ code hends' rfl rfl rfl ?_) (fun _ => .inr ⟨hdies, fun h => absurd h hparent⟩)
    fun q => ?_
  · rw [tasks_afterExit]
    exact hexited
  · rw [find_afterExit, if_neg hparent, hs1]

theorem exitCurrentTask_table (s : TaskManager) (tid : TaskId) (code : ℤ) :
    TableChange s (.exitCurrentTask tid code) (s.exitCurrentTask tid code).1 := by
  by_cases h : ∃ p, s.findProcessByPid (s.tasks tid).pid = some p ∧
      AllExited (s.exitTask code tid) p
  · obtain ⟨p, hp, hall⟩ := h
    rw [exitCurrentTask_last hp hall]
    refine afterExit_table hp ?_ (.task tid code rfl) (find_exitTask s code tid) hall
    have hall' : p.tasks.all fun t => ((s.exitTask code tid).tasks t).status = .exited := by
      simpa [AllExited] using hall
    simp only [dying, hp, hall', if_true]
  · rw [exitCurrentTask_quiet fun p hp hall => h ⟨p, hp, hall⟩]
    exact .keep (find_exitTask s code tid)

theorem exitCurrentProcess_table (s : TaskManager) (tid : TaskId) (code : ℤ) :
    TableChange s (.exitCurrentProcess tid code) (s.exitCurrentProcess tid code).1 := by
  cases hp : s.findProcessByPid (s.tasks tid).pid with
  | none =>
    rw [exitCurrentProcess_none hp]
    exact .keep (find_exitTask s code tid)
  | some p =>
    rw [exitCurrentProcess_some hp]
    refine afterExit_table hp rfl (.process tid code rfl) (find_exitTasks _ _ _) fun t ht => ?_
    rw [status_exitTasks, if_pos ht]

theorem sendSignal_table (s : TaskManager) (current : Option ProcessId) (pid : ProcessId)
    (sig : ℤ) :
    TableChange s (.sendSignal current pid sig) (s.sendSignal current pid sig).2.1 := by
  unfold sendSignal
  cases hp : s.findProcessByPid pid with
  | none => exact .keep fun _ => rfl
  | some p =>
    dsimp only
    split
    · exact .keep fun _ => rfl
    split
    · rename_i hfatal
      refine .write pid p (p.markExiting (128 + sig)).markZombie hp rfl rfl (.inr rfl)
        (.ends p _ _ (.signal current sig hfatal) rfl rfl rfl fun t ht => ?_)
        (fun _ => .inr ⟨if_pos hfatal, fun _ => rfl⟩) fun q => ?_
      · rw [tasks_setProcess, status_exitTasks, if_pos ht]
      · rw [find_setProcess, find_exitTasks]
    split
    · rename_i hstop
      refine .write pid p (p.markStopped SIGSTOP) hp rfl rfl (.inr rfl)
        (.moves p _ current sig rfl (.inl hstop) nofun) nofun fun q => ?_
      rw [find_foldl_blockTask, find_setProcess]
    split
    · rename_i hcont
      refine .write pid p p.markContinued hp rfl rfl (.inr rfl)
        (.moves p _ current sig rfl (.inr hcont) nofun) nofun fun q => ?_
      rw [find_wakeTasks, find_setProcess]
    · exact .keep fun _ => rfl

theorem consumeObservedWaitEvent_table (s : TaskManager) (tid : TaskId) (child : ProcessId)
    (event : WaitChildConsumeEvent) :
    TableChange s (.consumeObservedWaitEvent tid child event)
      (s.consumeObservedWaitEvent tid child event).2 := by
  unfold consumeObservedWaitEvent
  split
  · exact .keep fun _ => rfl
  cases hc : s.findProcessByPid child with
  | none => exact .keep fun _ => rfl
  | some c =>
    cases event with
    | stopped =>
      dsimp only
      split
      · exact .keep fun _ => rfl
      · exact .write child c c.markWaitStoppedReported hc rfl rfl (.inr rfl)
          (.same _ _ rfl rfl rfl) .inl fun q => find_setProcess s child q _
    | continued =>
      dsimp only
      split
      · exact .keep fun _ => rfl
      · exact .write child c c.clearWaitContinuedPending hc rfl rfl (.inr rfl)
          (.same _ _ rfl rfl rfl) .inl fun q => find_setProcess s child q _

theorem reapObservedChild_table (s : TaskManager) (tid : TaskId) (child : ProcessId) :
    TableChange s (.reapObservedChild tid child) (s.reapObservedChild tid child).2.1 := by
  unfold reapObservedChild
  cases howns : s.parentOwnsChild tid child with
  | none => exact .keep fun _ => rfl
  | some parent =>
    -- the caller is in the table
    obtain ⟨pp, hpp⟩ : ∃ pp, s.findProcessByPid (s.tasks tid).pid = some pp := by
      unfold parentOwnsChild at howns
      split at howns
      · cases howns
      · exact ⟨_, by assumption⟩
    dsimp only
    cases hc : s.findProcessByPid child with
    | none => exact .keep fun _ => rfl
    | some c =>
      dsimp only
      split
      · exact .keep fun _ => rfl
      rename_i hzombie
      refine .reap (s.tasks tid).pid child pp c hc (not_not.1 hzombie) (fun _ => hpp)
        fun q => ?_
      rw [find_removeProcess]
      by_cases hq : q = child
      · rw [if_pos hq, if_pos hq]
      rw [if_neg hq, if_neg hq]
      by_cases hself : (s.tasks tid).pid = child
      · -- a process that collects itself
        simp only [hself, find_setProcess, if_true, if_neg hq]
      · simp only [find_setProcess, if_neg hself, hpp, if_neg hq]

theorem step_table (s : TaskManager) (a : ProcOp) : TableChange s a (s.step a) := by
  cases a with
  | exitCurrentTask tid code => exact exitCurrentTask_table s tid code
  | exitCurrentProcess tid code => exact exitCurrentProcess_table s tid code
  | sendSignal current pid sig => exact sendSignal_table s current pid sig
  | consumeObservedWaitEvent tid child event =>
    exact consumeObservedWaitEvent_table s tid child event
  | reapObservedChild tid child => exact reapObservedChild_table s tid child

theorem step_evolves (s : TaskManager) (a : ProcOp) (q : ProcessId) :
    Evolves s (s.step a) a q (s.findProcessByPid q) ((s.step a).findProcessByPid q) := by
  cases step_table s a with
  | keep hsame =>
    rw [hsame]
    exact .refl _ _ _ _ _
  | write pid p p' hp _ _ _ hev _ hfind =>
    rw [hfind]
    by_cases hq : q = pid
    · subst hq
      rw [if_pos rfl, hp]
      exact hev
    · rw [if_neg hq]
      exact .refl _ _ _ _ _
  | orphan pid p hp _ hfind =>
    rw [hfind]
    split
    · exact .gone _
    · exact .refl _ _ _ _ _
  | reap ppid child pp c _ _ hpp hfind =>
    rw [hfind]
    split
    · exact .gone _
    rename_i hq
    split
    · rename_i hqp
      subst hqp
      rw [hpp hq]
      exact .same _ _ rfl rfl rfl
    · exact .refl _ _ _ _ _

/-! ### Exited tasks stay exited -/

theorem exited_exitTask (h : (s.tasks t).status = .exited) :
    ((s.exitTask code tid).tasks t).status = .exited := by
  rw [status_exitTask, h, ite_self]

theorem step_exited (a : ProcOp) (h : (s.tasks t).status = .exited) :
    ((s.step a).tasks t).status = .exited := by
  cases a with
  | exitCurrentTask tid code =>
    show ((s.exitCurrentTask tid code).1.tasks t).status = _
    by_cases hlast : ∃ p, s.findProcessByPid (s.tasks tid).pid = some p ∧
        AllExited (s.exitTask code tid) p
    · obtain ⟨p, hp, hall⟩ := hlast
      rw [exitCurrentTask_last hp hall, tasks_afterExit]
      exact exited_exitTask h
    · rw [exitCurrentTask_quiet fun p hp hall => hlast ⟨p, hp, hall⟩]
      exact exited_exitTask h
  | exitCurrentProcess tid code =>
    show ((s.exitCurrentProcess tid code).1.tasks t).status = _
    cases hp : s.findProcessByPid (s.tasks tid).pid with
    | none =>
      rw [exitCurrentProcess_none hp]
      exact exited_exitTask h
    | some p =>
      rw [exitCurrentProcess_some hp, tasks_afterExit, status_exitTasks, h, ite_self]
  | sendSignal current pid sig =>
    show ((s.sendSignal current pid sig).2.1.tasks t).status = _
    unfold sendSignal
    split
    · exact h
    split
    · exact h
    split
    · rw [tasks_setProcess, status_exitTasks, h, ite_self]
    split
    · exact exited_foldl_blockTask h
    split
    · exact exited_wakeTasks h
    · exact h
  | consumeObservedWaitEvent tid child event =>
    show ((s.consumeObservedWaitEvent tid child event).2.tasks t).status = _
    unfold consumeObservedWaitEvent
    split
    · exact h
    split
    · exact h
    cases event with
    | stopped
    | continued => simp only []; split <;> exact h
  | reapObservedChild tid child =>
    show ((s.reapObservedChild tid child).2.1.tasks t).status = _
    unfold reapObservedChild
    split
    · exact h
    split
    · exact h
    split
    · exact h
    · rw [tasks_removeProcess]
      split <;> exact h

/-! ### Invariants of a run -/

theorem step_zombiesExited (a : ProcOp) (h : ZombiesExited s) : ZombiesExited (s.step a) := by
  intro q p' hp' hz t ht
  have hev := step_evolves s a q
  rw [hp'] at hev
  cases hfind : s.findProcessByPid q with
  | none =>
    rw [hfind] at hev
    cases hev
  | some p =>
    rw [hfind] at hev
    cases hev with
    | same p p' hstatus _ htasks =>
      rw [htasks] at ht
      exact step_exited a (h q p hfind (hstatus ▸ hz) t ht)
    | ends p p' code _ _ _ htasks hexited => exact hexited t (htasks ▸ ht)
    | moves p p' current sig _ _ hne => exact absurd hz hne

/-- A call that does not rewrite zombies leaves a settled process settled. -/
theorem step_settled {q : ProcessId} {c : ℤ} (hok : KeepsZombies s a) (h : Settled s q c) :
    Settled (s.step a) q c := by
  have hev := step_evolves s a q
  rcases h with hnone | ⟨p, hp, hz, hc, hexited⟩
  · rw [hnone] at hev
    generalize hnew : (s.step a).findProcessByPid q = o at hev
    cases hev
    exact .inl hnew
  rw [hp] at hev
  generalize hnew : (s.step a).findProcessByPid q = o at hev
  cases hev with
  | gone => exact .inl hnew
  | same _ p' hstatus hcode htasks =>
    refine .inr ⟨p', hnew, hstatus.trans hz, hcode.trans hc, fun t ht => ?_⟩
    exact step_exited a (hexited t (htasks ▸ ht))
  | ends _ p' code hends hz' hc' htasks hexited' =>
    refine .inr ⟨p', hnew, hz', ?_, fun t ht => hexited' t (htasks ▸ ht)⟩
    rw [hc']
    -- the guard says that the new code is the old one
    cases hends with
    | task tid _ hpid hparent
    | process tid _ hpid hparent =>
      subst hpid
      rw [(hok p c hp hz hc).resolve_left (hparent p hp)]
    | signal current sig hfatal => rw [(hok p c hp hz hc).2.2 hfatal]
  | moves _ p' current sig ha hsig _ =>
    subst ha
    obtain ⟨hstop, hcont, -⟩ := hok p c hp hz hc
    exact absurd hsig (by simp [hstop, hcont])

/-- **Exit is final** along the calls that do not rewrite zombies: whatever led
to a zombie with code `c`, from then on the process is that zombie, with all its
tasks exited, until it is gone from the table. -/
theorem zombie_final {s0 s s' : TaskManager} {as bs : List ProcOp} {pid : ProcessId} {p : Process}
    {c : ℤ} (hinit : ZombiesExited s0) (hreach : Run (ofFun TaskManager.step) s0 as s)
    (hp : s.findProcessByPid pid = some p) (hz : p.status = .zombie) (hc : p.exitCode = some c)
    (hrun : Run (Guarded KeepsZombies (ofFun TaskManager.step)) s bs s') :
    s'.findProcessByPid pid = none ∨ ZombieWith s' pid c := by
  have hexited : ZombiesExited s := by
    refine Run.invariant ZombiesExited ?_ hreach hinit
    rintro s a _ h rfl
    exact step_zombiesExited a h
  have hsettled : Settled s pid c := .inr ⟨p, hp, hz, hc, hexited pid p hp hz⟩
  refine Run.invariant (Settled · pid c) ?_ hrun hsettled
  rintro s a _ h ⟨hok, rfl⟩
  exact step_settled hok h

/-- A parent (process 1, task 10) and its child (process 2, task 20), both
running. -/
def parentAndChild : TaskManager where
  processes :=
    (OrdMap.empty.insert 1 { pid := 1, pgid := 1, mm := 1, children := [2], tasks := [10] }).insert
      2 { pid := 2, pgid := 1, mm := 2, parent := some 1, tasks := [20] }
  tasks tid := if tid = 20 then ⟨2, .running, none⟩ else ⟨1, .running, none⟩

/-- The child exits with code 7 and stays a zombie with code 7 while signals 0
and `SIGCHLD` arrive. -/
theorem zombie_final_parentAndChild :
    ZombiesExited parentAndChild ∧
    Settled (((parentAndChild.step (.exitCurrentProcess 20 7)).step
      (.sendSignal (some 1) 2 0)).step (.sendSignal (some 1) 2 SIGCHLD)) 2 7 := by
  have hinit : ZombiesExited parentAndChild := by
    intro pid p hp hz
    have hmem := OrdMap.mem_entries_iff.2 hp
    simp only [parentAndChild, OrdMap.insert, OrdMap.empty, insertKV] at hmem
    simp at hmem
    rcases hmem with ⟨-, rfl⟩ | ⟨-, rfl⟩ <;> cases hz
  have hreach : Run (ofFun TaskManager.step) parentAndChild [.exitCurrentProcess 20 7]
      (parentAndChild.step (.exitCurrentProcess 20 7)) := .cons rfl (.nil _)
  refine ⟨hinit, zombie_final hinit hreach rfl rfl rfl
    (.cons (a := .sendSignal (some 1) 2 0) ⟨?_, rfl⟩
      (.cons (a := .sendSignal (some 1) 2 SIGCHLD) ⟨?_, rfl⟩ (.nil _)))⟩
  · intro p c _ _ _
    exact ⟨by decide, by decide, fun h => absurd h (by decide)⟩
  · intro p c _ _ _
    exact ⟨by decide, by decide, fun h => absurd h (by decide)⟩

/-- The child exits with code 7 and is a zombie. A stop signal makes it a
stopped process again, and a termination signal rewrites its exit code to 143. -/
theorem zombie_rewritten_by_signals :
    ZombieWith (parentAndChild.step (.exitCurrentProcess 20 7)) 2 7 ∧
    ¬ Settled ((parentAndChild.step (.exitCurrentProcess 20 7)).step
      (.sendSignal (some 1) 2 SIGSTOP)) 2 7 ∧
    ¬ Settled ((parentAndChild.step (.exitCurrentProcess 20 7)).step
      (.sendSignal (some 1) 2 SIGTERM)) 2 7 := by
  refine ⟨⟨_, rfl, rfl, rfl, by decide⟩, ?_, ?_⟩
  · rintro (h | ⟨p, hp, hz, -⟩)
    · cases h
    · cases hp
      cases hz
  · rintro (h | ⟨p, hp, -, hc, -⟩)
    · cases h
    · cases hp
      cases hc

end JanuaryOs.Proc

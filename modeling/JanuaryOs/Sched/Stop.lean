import JanuaryOs.Sched.Effects

/-!
# Stopping a process with `SIGSTOP` (`task/proc/signal.rs`)

`send_signal` is a loop over the tasks of the process, one lock after the other,
followed for `SIGSTOP`, `SIGKILL` and `SIGTERM` by the removal from the run
queues, one slot after the other. A `SignalCall` is a call that is under way.
`SIGSTOP` does not do more to a task than set its status to `Blocked`, and
`mark_task_ready_if_schedulable` takes a `Blocked` task for one that may run. So
a task stays stopped only if nothing is on its way to put it back into a queue:
it is not deferred, not in an `add_task`, and no stdin wake-up comes for it.
-/

namespace JanuaryOs.Sched

open Lib Function List
open Proc (TaskStatus)

/-! ### Stopped tasks in the scheduler -/

namespace SchedState

variable {n : ℕ}

/-- The task has exited, or is `Blocked` and nothing is on its way to queue it. -/
def Quiet (s : SchedState n) (t : TaskId) : Prop :=
  s.status t = .exited ∨ s.status t = .blocked ∧ ¬ s.Pending t

/-- The step makes the task runnable if it is `Blocked`. -/
def Revives (t : TaskId) : SchedStep n → Prop
  | .wakeStdin x _ | .sigCont x _ | .addTask x _ => x = t
  | _ => False

instance (t : TaskId) : (a : SchedStep n) → Decidable (Revives t a)
  | .wakeStdin .. | .sigCont .. | .addTask .. => inferInstanceAs (Decidable (_ = _))
  | .flush _ | .flushMark _ | .flushCommit _ | .pick _ | .replaceCurrent _ | .goIdle _
  | .markPrev _ | .deferPrev _ | .doSwitch _ | .block _ | .exit _ | .sigStop _ | .removeTasks ..
  | .callMark _ | .callCommit _ => inferInstanceAs (Decidable False)

instance : (p : Phase) → (t : TaskId) → Decidable (Requeues p t)
  | .flushing ready _, t => inferInstanceAs (Decidable (t ∈ ready))
  | .deferring prev _, t => inferInstanceAs (Decidable (prev = t))
  | .user, _ | .picking _, _ | .picked _, _ | .noTask, _ | .leaving .., _ | .switching .., _ =>
    inferInstanceAs (Decidable False)

instance (s : SchedState n) (t : TaskId) : Decidable (s.Pending t) :=
  inferInstanceAs (Decidable (_ ∨ _ ∨ _))

variable {s s' : SchedState n} {a : SchedStep n} {t : TaskId}

theorem Quiet.step (h : s.Quiet t) (hs : s.step a = some s')
    (hok : s.status t = .blocked → ¬ Revives t a) : s'.Quiet t := by
  rcases h with hexited | ⟨hblocked, hidle⟩
  · exact .inl (exited_step hexited hs)
  have hok := hok hblocked
  have hidle' : ¬ s'.Pending t := fun hpending => by
    rcases step_pending hs hpending with hpending | hrecalls
    · exact hidle hpending
    cases hrecalls with
    | markPrev c next _ _ hnot => exact hnot hblocked
    | wakeStdin cpu _
    | sigCont cpu _
    | addTask cpu _ => exact hok rfl
  rcases step_status hs t with hsame | hchange
  · exact .inr ⟨hsame.trans hblocked, hidle'⟩
  unfold Quiet
  generalize s'.status t = st at hchange
  cases hchange with
  | flushMark c ready hphase _
  | flushCommit c ready hphase _ =>
    exact absurd (.inr (.inl ⟨c, by rw [hphase]; exact mem_cons_self⟩)) hidle
  | callMark call hcall htask _
  | callCommit call hcall htask _ => exact absurd (.inr (.inr ⟨call, hcall, htask⟩)) hidle
  | addTask cpu _
  | wakeStdin cpu _
  | sigCont cpu _ => exact absurd rfl hok
  | pick c slot _ hready => rw [hready] at hblocked; cases hblocked
  | markPrev c next _ _ hnot => exact absurd hblocked hnot
  | block c _ _ _
  | sigStop _ => exact .inr ⟨rfl, hidle'⟩
  | exit => exact .inl rfl

/-- `SIGSTOP` makes a task quiet if nothing is on its way to queue it. -/
theorem quiet_sigStop (hidle : s.status t ≠ .exited → ¬ s.Pending t)
    (hs : s.step (.sigStop t) = some s') : s'.Quiet t := by
  simp only [SchedState.step, stop] at hs
  split at hs
  · rename_i hexited
    cases hs
    exact .inl hexited
  · rename_i hexited
    cases hs
    exact .inr ⟨update_self .., hidle hexited⟩

theorem Quiet.not_picked (h : s.Quiet t) {c : Fin n} (hs : s.step (.pick c) = some s') :
    s'.phase c ≠ .picked t := by
  have hready : s.status t ≠ .ready := by
    rcases h with h | ⟨h, -⟩ <;> rw [h] <;> decide
  cases step_to hs with
  | picked _ slot tried x rest _ hx =>
    simp only [setPhase, update_self, ne_eq, Phase.picked.injEq]
    rintro rfl
    exact hready hx
  | nextSlot _ slot tried rest p _ _ hp =>
    simp only [setPhase, update_self]
    rcases hp with rfl | rfl <;> simp

end SchedState

/-! ### Signals -/

/-- The signals that act on tasks; `SIGTERM` does what `SIGKILL` does. -/
inductive Signal
  | stop
  | cont
  | kill
  deriving DecidableEq, Repr

/-- A call of `send_signal` that is under way: the tasks that are still to be
visited and the slots that are still to be cleared. -/
structure SignalCall (n : ℕ) where
  sig : Signal
  pid : ProcessId
  todo : List TaskId
  slots : List (Fin n)
  cpu : Fin n
  deriving DecidableEq

/-- The scheduler with the calls of `send_signal`. -/
structure StopState (n : ℕ) where
  sched : SchedState n
  /-- All tasks; those of a process are the ones with its number. -/
  tasks : List TaskId
  signals : List (SignalCall n)
  /-- `SIGSTOP` has returned, and neither `SIGCONT` nor a fatal signal has been
  sent since. -/
  stopped : ProcessId → Bool

inductive StopStep (n : ℕ)
  | sched (a : SchedStep n)
  | send (sig : Signal) (pid : ProcessId) (cpu : Fin n)
  | visit (call : SignalCall n)
  | clear (call : SignalCall n)
  | finish (call : SignalCall n)
  deriving DecidableEq

namespace StopState

variable {n : ℕ}

def boot (n : ℕ) (pid : TaskId → ProcessId) (tasks : List TaskId) : StopState n where
  sched := .boot n pid
  tasks := tasks
  signals := []
  stopped := fun _ => false

variable (s : StopState n)

/-- `process.tasks`. -/
def tasksOf (pid : ProcessId) : List TaskId :=
  s.tasks.filter fun t => s.sched.pid t = pid

/-- The step of the scheduler that a signal makes for a task. -/
def taskStep (call : SignalCall n) (t : TaskId) : SchedStep n :=
  match call.sig with
  | .stop => .sigStop t
  | .cont => .sigCont t call.cpu
  | .kill => .exit t

/-- `send_signal` starts: it copies the list of tasks. -/
def send (sig : Signal) (pid : ProcessId) (cpu : Fin n) : StopState n :=
  { s with
    signals := ⟨sig, pid, s.tasksOf pid, finRange n, cpu⟩ :: s.signals
    stopped := if sig = .stop then s.stopped else update s.stopped pid false }

/-- One round of the loop over the tasks. -/
def visit (call : SignalCall n) : Option (StopState n) :=
  if call ∈ s.signals then
    match call.todo with
    | [] => none
    | t :: rest => (s.sched.step (taskStep call t)).map fun sched =>
      { s with sched := sched, signals := { call with todo := rest } :: s.signals.erase call }
  else none

/-- One slot of `remove_tasks_by_pid`. -/
def clear (call : SignalCall n) : Option (StopState n) :=
  if call ∈ s.signals ∧ call.todo = [] ∧ call.sig ≠ .cont then
    match call.slots with
    | [] => none
    | slot :: rest => (s.sched.step (.removeTasks call.pid slot)).map fun sched =>
      { s with sched := sched, signals := { call with slots := rest } :: s.signals.erase call }
  else none

/-- `send_signal` returns. -/
def finish (call : SignalCall n) : Option (StopState n) :=
  if call ∈ s.signals ∧ call.todo = [] ∧ (call.sig = .cont ∨ call.slots = []) then
    some { s with
      signals := s.signals.erase call
      stopped := if call.sig = .stop then update s.stopped call.pid true else s.stopped }
  else none

/-- What a step does. Signals reach the tasks through `visit` only. -/
def step : StopStep n → Option (StopState n)
  | .sched (.sigStop _) | .sched (.sigCont ..) => none
  | .sched a => (s.sched.step a).map fun sched => { s with sched := sched }
  | .send sig pid cpu => some (s.send sig pid cpu)
  | .visit call => s.visit call
  | .clear call => s.clear call
  | .finish call => s.finish call

/-- `SIGSTOP` has visited the task: it has returned, or is still at work. -/
def Held (t : TaskId) : Prop :=
  t ∈ s.tasks ∧ (s.stopped (s.sched.pid t) = true ∨
    ∃ call ∈ s.signals, call.sig = .stop ∧ call.pid = s.sched.pid t ∧ t ∉ call.todo)
deriving Decidable

/-- What a signal asks of the task it visits: nothing is about to queue the task
that `SIGSTOP` stops, and `SIGCONT` does not come for one that is held. -/
def VisitOk (call : SignalCall n) : Prop :=
  ∀ t ∈ call.todo.head?,
    (call.sig = .stop → s.sched.status t ≠ .exited → ¬ s.sched.Pending t) ∧
      (call.sig = .cont → s.sched.status t = .blocked → ¬ s.Held t)

instance (call : SignalCall n) : Decidable (s.VisitOk call) :=
  match h : call.todo.head? with
  | none => .isTrue fun t ht => by rw [h] at ht; cases ht
  | some t => decidable_of_iff
      ((call.sig = .stop → s.sched.status t ≠ .exited → ¬ s.sched.Pending t) ∧
        (call.sig = .cont → s.sched.status t = .blocked → ¬ s.Held t)) (by
      simp only [VisitOk, h, Option.mem_def, Option.some.injEq, forall_eq'])

/-- The steps that leave stopped tasks stopped. -/
def StopOk : StopStep n → Prop
  | .sched a => ∀ t ∈ s.tasks, s.sched.status t = .blocked → SchedState.Revives t a → ¬ s.Held t
  | .visit call => s.VisitOk call
  | _ => True

instance : (a : StopStep n) → Decidable (s.StopOk a)
  | .sched _ => inferInstanceAs (Decidable (∀ t ∈ s.tasks, _))
  | .visit call => inferInstanceAs (Decidable (s.VisitOk call))
  | .send .. | .clear _ | .finish _ => inferInstanceAs (Decidable True)

/-! ### The invariant -/

/-- Held tasks are quiet. -/
def Inv : Prop := ∀ t, s.Held t → s.sched.Quiet t

variable {s s' : StopState n} {call : SignalCall n}

theorem inv_boot (pid : TaskId → ProcessId) (tasks : List TaskId) : (boot n pid tasks).Inv := by
  rintro t ⟨-, hstopped | ⟨call, hcall, -⟩⟩
  · cases hstopped
  · cases hcall

/-- The scheduler moves, and no task becomes held that was not. -/
theorem Inv.sched_step (h : s.Inv) {a : SchedStep n} {r : SchedState n}
    (hr : s.sched.step a = some r)
    (hok : ∀ t, s.Held t → s.sched.status t = .blocked → ¬ SchedState.Revives t a)
    (hsched : s'.sched = r) (hheld : ∀ t, s'.Held t → s.Held t ∨ r.Quiet t) : s'.Inv := by
  intro t ht
  rw [hsched]
  rcases hheld t ht with hold | hquiet
  · exact (h t hold).step hr (hok t hold)
  · exact hquiet

theorem send_inv (h : s.Inv) (sig : Signal) (pid : ProcessId) (cpu : Fin n) :
    (s.send sig pid cpu).Inv := by
  rintro t ⟨htask, hheld⟩
  refine h t ⟨htask, ?_⟩
  rcases hheld with hstopped | ⟨call, hcall, hsig, hpid, htodo⟩
  · left
    simp only [send] at hstopped
    split at hstopped
    · exact hstopped
    by_cases hp : s.sched.pid t = pid
    · rw [hp, update_self] at hstopped
      cases hstopped
    · rwa [update_of_ne hp] at hstopped
  · rcases mem_cons.1 hcall with rfl | hcall
    · -- the new call has visited nobody
      exact absurd (mem_filter.2 ⟨htask, decide_eq_true hpid.symm⟩) htodo
    · exact .inr ⟨call, hcall, hsig, hpid, htodo⟩

theorem visit_inv (h : s.Inv) (hok : s.VisitOk call) (hs : s.visit call = some s') : s'.Inv := by
  unfold visit at hs
  split at hs
  · rename_i hcall
    split at hs
    · cases hs
    rename_i x rest htodo
    obtain ⟨r, hr, rfl⟩ := Option.map_eq_some_iff.1 hs
    obtain ⟨hstop, hcont⟩ := hok x (by rw [htodo]; rfl)
    refine h.sched_step hr (fun t ht hblocked hrev => ?_) rfl fun t ht => ?_
    · -- only `SIGCONT` revives, and it does not come for a held task
      unfold taskStep at hrev
      cases hsig : call.sig with
      | stop
      | kill => rw [hsig] at hrev; exact hrev
      | cont =>
        rw [hsig] at hrev
        have hxt : x = t := hrev
        subst hxt
        exact hcont hsig hblocked ht
    · obtain ⟨htask, hstopped | ⟨call', hcall', hsig, hpid, hnot⟩⟩ := ht
      · rw [(SchedState.step_frame hr).pid] at hstopped
        exact .inl ⟨htask, .inl hstopped⟩
      · rw [(SchedState.step_frame hr).pid] at hpid
        rcases mem_cons.1 hcall' with rfl | hcall'
        · by_cases hxt : t = x
          · subst hxt
            have hsig : call.sig = .stop := hsig
            rw [taskStep, hsig] at hr
            exact .inr (SchedState.quiet_sigStop (hstop hsig) hr)
          · refine .inl ⟨htask, .inr ⟨call, hcall, hsig, hpid, fun hmem => ?_⟩⟩
            rw [htodo] at hmem
            exact hnot ((mem_cons.1 hmem).resolve_left hxt)
        · exact .inl ⟨htask, .inr ⟨call', mem_of_mem_erase hcall', hsig, hpid, hnot⟩⟩
  · cases hs

theorem clear_inv (h : s.Inv) (hs : s.clear call = some s') : s'.Inv := by
  unfold clear at hs
  split at hs
  · rename_i hcall
    split at hs
    · cases hs
    rename_i slot rest hslots
    obtain ⟨r, hr, rfl⟩ := Option.map_eq_some_iff.1 hs
    refine h.sched_step hr (fun t _ _ hrev => hrev) rfl fun t ht => .inl ?_
    obtain ⟨htask, hstopped | ⟨call', hcall', hsig, hpid, hnot⟩⟩ := ht
    · rw [(SchedState.step_frame hr).pid] at hstopped
      exact ⟨htask, .inl hstopped⟩
    rw [(SchedState.step_frame hr).pid] at hpid
    rcases mem_cons.1 hcall' with rfl | hcall'
    · exact ⟨htask, .inr ⟨call, hcall.1, hsig, hpid, hnot⟩⟩
    · exact ⟨htask, .inr ⟨call', mem_of_mem_erase hcall', hsig, hpid, hnot⟩⟩
  · cases hs

/-- When `SIGSTOP` returns it has visited every task. -/
theorem finish_inv (h : s.Inv) (hs : s.finish call = some s') : s'.Inv := by
  unfold finish at hs
  split at hs
  · rename_i hcall
    obtain ⟨hmem, htodo, -⟩ := hcall
    cases hs
    rintro t ⟨htask, hstopped | ⟨call', hcall', hsig, hpid, hnot⟩⟩
    · refine h t ⟨htask, ?_⟩
      simp only at hstopped
      split at hstopped
      · rename_i hsig
        by_cases hp : s.sched.pid t = call.pid
        · exact .inr ⟨call, hmem, hsig, hp.symm, by rw [htodo]; exact nofun⟩
        · rw [update_of_ne hp] at hstopped
          exact .inl hstopped
      · exact .inl hstopped
    · exact h t ⟨htask, .inr ⟨call', mem_of_mem_erase hcall', hsig, hpid, hnot⟩⟩
  · cases hs

theorem Inv.step (h : s.Inv) {a : StopStep n} (hok : s.StopOk a) (hs : s.step a = some s') :
    s'.Inv := by
  have hmove : ∀ a r, s.sched.step a = some r → s.StopOk (.sched a) →
      ({ s with sched := r } : StopState n).Inv := fun a r hr hok => by
    refine h.sched_step hr (fun t ht hblocked hrev => hok t ht.1 hblocked hrev ht) rfl
      fun t ht => .inl ?_
    unfold Held at ht ⊢
    rwa [(SchedState.step_frame hr).pid] at ht
  cases a with
  | sched a =>
    unfold StopState.step at hs
    split at hs
    · cases hs
    · cases hs
    · rename_i heq
      cases heq
      obtain ⟨r, hr, rfl⟩ := Option.map_eq_some_iff.1 hs
      exact hmove _ r hr hok
    all_goals rename_i heq; cases heq
  | send sig pid cpu =>
    cases hs
    exact send_inv h sig pid cpu
  | visit call => exact visit_inv h hok hs
  | clear call => exact clear_inv h hs
  | finish call => exact finish_inv h hs

/-! ### Runs -/

/-- In every run in which nothing is about to queue the tasks that `SIGSTOP`
visits, and no stdin wake-up, `add_task` or older `SIGCONT` comes for a stopped
task: once `SIGSTOP` has returned no CPU picks a task of the process, until
`SIGCONT` or a fatal signal is sent. -/
theorem stopped_not_picked (n : ℕ) (pid : TaskId → ProcessId) (tasks : List TaskId)
    {as : List (StopStep n)} {s s' : StopState n}
    (hrun : Run (Guarded StopOk (ofPartial step)) (boot n pid tasks) as s) {p : ProcessId}
    (hstopped : s.stopped p = true) {t : TaskId} (ht : t ∈ s.tasksOf p) {c : Fin n}
    (hpick : s.step (.sched (.pick c)) = some s') : s'.sched.phase c ≠ .picked t := by
  have hinv : s.Inv := by
    refine hrun.invariant Inv ?_ (inv_boot pid tasks)
    rintro s a s' hs ⟨hok, hstep⟩
    exact hs.step hok hstep
  obtain ⟨htask, hp⟩ := mem_filter.1 ht
  have hheld : s.Held t := ⟨htask, .inl (by rw [of_decide_eq_true hp]; exact hstopped)⟩
  obtain ⟨r, hr, rfl⟩ := Option.map_eq_some_iff.1 hpick
  exact (hinv t hheld).not_picked hr

/-- Task 7 starts on CPU 0. -/
def startTask : List (StopStep 1) :=
  [.sched (.addTask 7 0), .sched (.callCommit ⟨7, 0, true⟩), .sched (.flush 0), .sched (.pick 0),
    .sched (.replaceCurrent 0), .sched (.doSwitch 0)]

/-- `SIGSTOP` is sent to its process and returns. -/
def stopTask : List (StopStep 1) :=
  [.send .stop 7 0, .visit ⟨.stop, 7, [7], [0], 0⟩, .clear ⟨.stop, 7, [], [0], 0⟩,
    .finish ⟨.stop, 7, [], [], 0⟩]

theorem stopped_not_picked_running :
    ∃ s s', Run (Guarded StopOk (ofPartial step)) (boot 1 id [7])
        (startTask ++ stopTask ++ [.sched (.flush 0)]) s ∧
      s.stopped 7 = true ∧ 7 ∈ s.tasksOf 7 ∧ s.step (.sched (.pick 0)) = some s' ∧
      s'.sched.phase 0 ≠ .picked 7 := by
  have hexec : Executes StopOk step (boot 1 id [7]) (startTask ++ stopTask ++ [.sched (.flush 0)])
      fun s => s.stopped 7 = true ∧ 7 ∈ s.tasksOf 7 ∧ (s.step (.sched (.pick 0))).isSome := by
    decide
  obtain ⟨s, hrun, hstopped, ht, hsome⟩ := Run.exists_of_exec hexec fun _ _ h => h
  obtain ⟨s', hpick⟩ := Option.isSome_iff_exists.1 hsome
  exact ⟨s, s', hrun, hstopped, ht, hpick, stopped_not_picked 1 id [7] hrun hstopped ht hpick⟩

/-- Task 7 sleeps in a read from stdin and its process is stopped; then input
arrives, and the wake-up queues the task. -/
def wokenByInput : List (StopStep 1) :=
  startTask ++ [.sched (.block 0), .sched (.flush 0), .sched (.pick 0), .sched (.goIdle 0),
    .sched (.markPrev 0), .sched (.doSwitch 0)] ++ stopTask ++
  [.sched (.wakeStdin 7 0), .sched (.callMark ⟨7, 0, false⟩), .sched (.callCommit ⟨7, 0, true⟩),
    .sched (.flush 0)]

/-- Task 7 has made room for task 8 and is deferred when its process is stopped;
the next `schedule()` requeues it. -/
def requeuedByFlush : List (StopStep 1) :=
  startTask ++ [.sched (.addTask 8 0), .sched (.callCommit ⟨8, 0, true⟩), .sched (.flush 0),
    .sched (.pick 0), .sched (.replaceCurrent 0), .sched (.markPrev 0), .sched (.deferPrev 0),
    .sched (.doSwitch 0)] ++ stopTask ++
  [.sched (.flush 0), .sched (.flushMark 0), .sched (.flushCommit 0)]

/-- After the run task 7 is stopped, and is picked. -/
def PicksStopped (as : List (StopStep 1)) : Prop :=
  ∃ s s', Run (ofPartial step) (boot 1 id [7, 8]) as s ∧ s.stopped 7 = true ∧ 7 ∈ s.tasksOf 7 ∧
    s.step (.sched (.pick 0)) = some s' ∧ s'.sched.phase 0 = .picked 7

theorem picksStopped_of_exec {as : List (StopStep 1)}
    (hexec : Executes (fun _ _ => True) step (boot 1 id [7, 8]) as fun s => s.stopped 7 = true ∧
      7 ∈ s.tasksOf 7 ∧ ∃ s' ∈ s.step (.sched (.pick 0)), s'.sched.phase 0 = .picked 7) :
    PicksStopped as := by
  obtain ⟨s, hrun, hstopped, ht, s', hpick⟩ := Run.exists_of_exec_free _ hexec fun _ _ h => h
  exact ⟨s, s', hrun, hstopped, ht, hpick⟩

theorem stopped_picked : PicksStopped wokenByInput ∧ PicksStopped requeuedByFlush :=
  ⟨picksStopped_of_exec (by decide), picksStopped_of_exec (by decide)⟩

end StopState

end JanuaryOs.Sched

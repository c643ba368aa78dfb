import JanuaryOs.Sched.Effects

/-!
# How a forked child starts (`task/proc/fork.rs`, `task/runtime/manager.rs`)

`clone_current` copies the frame with which the parent entered the kernel, then
makes the process and the task of the child, hands the task to
`SCHEDULER.add_task`, and only then stores the frame in the child's
`fork_return_frame`. The parent does not call `schedule()` on this way, so
nothing runs in between on its own CPU, but the other CPUs go on. A child begins
in `syscall_child_return_stub`, which takes the frame and returns to user space
with it, or exits with code 127 if there is none.

So all is well as long as no other CPU picks the child between `add_task` and
the store: a child on a CPU has been picked before, and by then its frame was in
its task.
-/

namespace JanuaryOs.Sched

open Lib Function

/-! ### Frames -/

/-- The registers that the system call entry saves. -/
structure SavedSyscallFrame where
  userRsp : UInt64
  userRflags : UInt64
  userRip : UInt64
  r15 : UInt64
  r14 : UInt64
  r13 : UInt64
  r12 : UInt64
  rbp : UInt64
  rbx : UInt64
  r9 : UInt64
  r8 : UInt64
  r10 : UInt64
  rdx : UInt64
  rsi : UInt64
  rdi : UInt64
  rax : UInt64
  deriving DecidableEq

/-- The registers with which a child returns to user space. -/
structure ForkReturnFrame where
  rip : UInt64
  rsp : UInt64
  rflags : UInt64
  r15 : UInt64
  r14 : UInt64
  r13 : UInt64
  r12 : UInt64
  rbp : UInt64
  rbx : UInt64
  r9 : UInt64
  r8 : UInt64
  r10 : UInt64
  rdx : UInt64
  rsi : UInt64
  rdi : UInt64
  rax : UInt64
  deriving DecidableEq

/-- `current_fork_return_frame`: the child sees the parent's registers and a
result of 0. -/
def SavedSyscallFrame.forkReturnFrame (frame : SavedSyscallFrame) : ForkReturnFrame where
  rip := frame.userRip
  rsp := frame.userRsp
  rflags := frame.userRflags
  r15 := frame.r15
  r14 := frame.r14
  r13 := frame.r13
  r12 := frame.r12
  rbp := frame.rbp
  rbx := frame.rbx
  r9 := frame.r9
  r8 := frame.r8
  r10 := frame.r10
  rdx := frame.rdx
  rsi := frame.rsi
  rdi := frame.rdi
  rax := 0

/-! ### State -/

/-- Where a CPU is in `clone_current`. -/
inductive SpawnPhase (n : ℕ)
  | outside
  /-- The process and the task are in the tables. -/
  | created (child : TaskId) (frame : SavedSyscallFrame)
  /-- `add_task` has been called. -/
  | enqueued (child : TaskId) (cpu : Fin n) (frame : SavedSyscallFrame)
  deriving DecidableEq

/-- The child whose frame is not stored yet, and the frame. -/
def SpawnPhase.job {n : ℕ} : SpawnPhase n → Option (TaskId × SavedSyscallFrame)
  | .outside => none
  | .created child frame | .enqueued child _ frame => some (child, frame)

/-- The scheduler with the calls of `clone_current`. -/
structure ForkState (n : ℕ) where
  sched : SchedState n
  spawn : Fin n → SpawnPhase n
  forkReturnFrame : TaskId → Option ForkReturnFrame
  /-- The frame with which the parent of a child has entered `clone_current`. -/
  savedFrame : TaskId → Option SavedSyscallFrame
  /-- What a child has found when it ran the stub for the first time. -/
  found : TaskId → Option (Option ForkReturnFrame)

inductive ForkStep (n : ℕ)
  | sched (a : SchedStep n)
  | clone (c : Fin n) (child : TaskId) (frame : SavedSyscallFrame)
  | enqueue (c cpu : Fin n)
  | store (c : Fin n)
  | runStub (c : Fin n)
  deriving DecidableEq

namespace ForkState

variable {n : ℕ}

def boot (n : ℕ) (pid : TaskId → ProcessId) : ForkState n where
  sched := .boot n pid
  spawn := fun _ => .outside
  forkReturnFrame := fun _ => none
  savedFrame := fun _ => none
  found := fun _ => none

variable (s : ForkState n)

/-- A child that has not run the stub. -/
def Unstarted (t : TaskId) : Prop :=
  s.savedFrame t ≠ none ∧ s.found t = none
deriving Decidable

/-- What runs on the CPU is free to make a system call: it is not in
`clone_current`, nor is it a child that has the stub before it. -/
def Free (c : Fin n) : Prop :=
  s.spawn c = .outside ∧ ∀ t ∈ s.sched.current c, ¬ s.Unstarted t
deriving Decidable

/-- A step of the scheduler. `schedule()` and a blocking read begin where a task
is free to call them; an `add_task` of this kind is for a kernel thread, not for
a child. -/
def schedStep (a : SchedStep n) : Option (ForkState n) :=
  let next := (s.sched.step a).map fun sched => { s with sched := sched }
  match a with
  | .flush c | .block c => if s.Free c then next else none
  | .addTask t _ => if s.savedFrame t = none then next else none
  | _ => next

/-- `clone_current` up to the entries in the tables. The number of the child is
new. -/
def clone (c : Fin n) (child : TaskId) (frame : SavedSyscallFrame) :
    Option (ForkState n) :=
  if s.sched.phase c = .user ∧ s.sched.current c ≠ none ∧ s.Free c ∧
      s.savedFrame child = none ∧ s.sched.Parked child then
    some { s with
      spawn := update s.spawn c (.created child frame)
      savedFrame := update s.savedFrame child (some frame)
      forkReturnFrame := update s.forkReturnFrame child none
      found := update s.found child none }
  else none

/-- `SCHEDULER.add_task`, its first section. -/
def enqueue (c cpu : Fin n) : Option (ForkState n) :=
  match s.spawn c with
  | .created child frame => (s.sched.step (.addTask child cpu)).map fun sched =>
    { s with sched := sched, spawn := update s.spawn c (.enqueued child cpu frame) }
  | _ => none

/-- The frame is stored, after `add_task` has returned. -/
def store (c : Fin n) : Option (ForkState n) :=
  match s.spawn c with
  | .enqueued child cpu frame =>
    if ⟨child, cpu, true⟩ ∈ s.sched.calls then none
    else some { s with
      spawn := update s.spawn c .outside
      forkReturnFrame := update s.forkReturnFrame child (some frame.forkReturnFrame) }
  | _ => none

/-- `syscall_child_return_stub`, when it is run for the first time. -/
def runStub (c : Fin n) : Option (ForkState n) :=
  match s.sched.phase c, s.sched.current c with
  | .user, some t =>
    if s.Unstarted t then
      some { s with
        -- without a frame the child exits
        sched := if s.forkReturnFrame t = none then s.sched.setStatus t .exited else s.sched
        forkReturnFrame := update s.forkReturnFrame t none
        found := update s.found t (some (s.forkReturnFrame t)) }
    else none
  | _, _ => none

/-- What a step does; nothing if it cannot be taken. -/
def step : ForkStep n → Option (ForkState n)
  | .sched a => s.schedStep a
  | .clone c child frame => s.clone c child frame
  | .enqueue c cpu => s.enqueue c cpu
  | .store c => s.store c
  | .runStub c => s.runStub c

/-- The task is a child whose frame its parent has still to store. -/
def Spawning (t : TaskId) : Prop := ∃ c, ∃ job ∈ (s.spawn c).job, job.1 = t
deriving Decidable

/-- The task that `pick_next` would take now on a CPU. -/
def picks (c : Fin n) : Option TaskId :=
  (s.sched.step (.pick c)).bind fun r =>
    match r.phase c with
    | .picked t => some t
    | _ => none

/-- No CPU picks a child whose frame is still to be stored. -/
def PickOk : ForkStep n → Prop
  | .sched (.pick c) => ∀ t ∈ s.picks c, ¬ s.Spawning t
  | _ => True

instance : (a : ForkStep n) → Decidable (s.PickOk a)
  | .sched (.pick c) => inferInstanceAs (Decidable (∀ t ∈ s.picks c, ¬ s.Spawning t))
  | .sched (.flush _) | .sched (.flushMark _) | .sched (.flushCommit _) | .sched (.replaceCurrent _)
  | .sched (.goIdle _) | .sched (.markPrev _) | .sched (.deferPrev _) | .sched (.doSwitch _)
  | .sched (.block _) | .sched (.exit _) | .sched (.wakeStdin ..) | .sched (.sigCont ..)
  | .sched (.sigStop _) | .sched (.removeTasks ..) | .sched (.addTask ..) | .sched (.callMark _)
  | .sched (.callCommit _) | .clone .. | .enqueue .. | .store _ | .runStub _ =>
    inferInstanceAs (Decidable True)

/-! ### Steps of the scheduler -/

variable {s s' : ForkState n} {c : Fin n}

theorem schedStep_eq {a : SchedStep n} (hs : s.schedStep a = some s') :
    ∃ r, s.sched.step a = some r ∧ s' = { s with sched := r } := by
  have hnext : ∀ {o : Option (ForkState n)},
      o = (s.sched.step a).map (fun sched => { s with sched := sched }) → o = some s' →
      ∃ r, s.sched.step a = some r ∧ s' = { s with sched := r } := by
    rintro o rfl ho
    obtain ⟨r, hr, rfl⟩ := Option.map_eq_some_iff.1 ho
    exact ⟨r, hr, rfl⟩
  unfold schedStep at hs
  dsimp only at hs
  split at hs
  · split at hs
    · exact hnext rfl hs
    · cases hs
  · split at hs
    · exact hnext rfl hs
    · cases hs
  · split at hs
    · exact hnext rfl hs
    · cases hs
  · exact hnext rfl hs

/-! ### Where the frame is -/

theorem spawning_iff {t : TaskId} :
    s.Spawning t ↔ ∃ c frame, (s.spawn c).job = some (t, frame) := by
  constructor
  · rintro ⟨c, ⟨t, frame⟩, hjob, rfl⟩
    exact ⟨c, frame, hjob⟩
  · rintro ⟨c, frame, hjob⟩
    exact ⟨c, _, hjob, rfl⟩

/-- A task in no place is not on a CPU. -/
theorem not_onCpu_of_parked {t : TaskId} (h : s.sched.Parked t) : t ∉ s.sched.onCpu c := by
  rw [SchedState.mem_onCpu]
  rintro (hcurrent | hpicked)
  · exact h.2.1 c hcurrent
  · have hholds := SchedState.holds_of_picked hpicked
    rw [h.2.2.1 c] at hholds
    cases hholds

/-- Each child's frame is with its parent's CPU or in its task, until the stub
takes it; and a child on a CPU has it in its task. -/
structure Inv (s : ForkState n) : Prop where
  spawning : ∀ c child frame, (s.spawn c).job = some (child, frame) →
    s.savedFrame child = some frame
  waiting : ∀ t frame, s.savedFrame t = some frame → s.found t = none →
    s.forkReturnFrame t = some frame.forkReturnFrame ∨ ∃ c, (s.spawn c).job = some (t, frame)
  found : ∀ t found, s.found t = some found →
    ∃ frame, s.savedFrame t = some frame ∧ found = some frame.forkReturnFrame
  away : ∀ c, ∀ t ∈ s.sched.onCpu c, ¬ s.Spawning t

theorem inv_boot (pid : TaskId → ProcessId) : (boot n pid).Inv where
  spawning := nofun
  waiting := nofun
  found := nofun
  away := nofun

theorem job_update {c' : Fin n} {p : SpawnPhase n} {job : TaskId × SavedSyscallFrame}
    (h : (update s.spawn c p c').job = some job) :
    c' = c ∧ p.job = some job ∨ c' ≠ c ∧ (s.spawn c').job = some job := by
  by_cases hc : c' = c
  · subst hc
    rw [update_self] at h
    exact .inl ⟨rfl, h⟩
  · rw [update_of_ne hc] at h
    exact .inr ⟨hc, h⟩

theorem clone_inv (h : s.Inv) {child : TaskId} {frame : SavedSyscallFrame}
    (hs : s.clone c child frame = some s') : s'.Inv := by
  unfold clone at hs
  split at hs
  · rename_i hok
    obtain ⟨-, -, ⟨houtside, -⟩, hnew, hparked⟩ := hok
    cases hs
    -- no other CPU has a job for the new child
    have hother : ∀ c' t frame', (s.spawn c').job = some (t, frame') → t ≠ child := by
      rintro c' t frame' hjob rfl
      rw [h.spawning c' t frame' hjob] at hnew
      cases hnew
    refine ⟨fun c' t frame' hjob => ?_, fun t frame' hsaved hfound => ?_, fun t o hfound => ?_,
      fun c' t ht hspawning => ?_⟩
    · rcases job_update hjob with ⟨-, hjob⟩ | ⟨-, hjob⟩
      · cases hjob
        exact update_self ..
      · exact (update_of_ne (hother c' t frame' hjob) ..).trans
          (h.spawning c' t frame' hjob)
    · dsimp only at hsaved hfound ⊢
      by_cases ht : t = child
      · subst ht
        rw [update_self] at hsaved
        cases hsaved
        exact .inr ⟨c, by rw [update_self]; rfl⟩
      · rw [update_of_ne ht] at hsaved hfound
        rcases h.waiting t frame' hsaved hfound with hstored | ⟨c', hjob⟩
        · exact .inl (by rw [update_of_ne ht]; exact hstored)
        refine .inr ⟨c', ?_⟩
        rw [update_of_ne]
        · exact hjob
        · rintro rfl
          rw [houtside] at hjob
          cases hjob
    · dsimp only at hfound ⊢
      by_cases ht : t = child
      · subst ht
        rw [update_self] at hfound
        cases hfound
      · rw [update_of_ne ht] at hfound ⊢
        exact h.found t o hfound
    · obtain ⟨c1, frame', hjob⟩ := spawning_iff.1 hspawning
      rcases job_update hjob with ⟨-, hjob⟩ | ⟨-, hjob⟩
      · cases hjob
        exact not_onCpu_of_parked hparked ht
      · exact h.away c' t ht (spawning_iff.2 ⟨c1, frame', hjob⟩)
  · cases hs

theorem enqueue_inv (h : s.Inv) {cpu : Fin n} (hs : s.enqueue c cpu = some s') : s'.Inv := by
  unfold enqueue at hs
  split at hs
  · rename_i child frame hspawn
    obtain ⟨r, hr, rfl⟩ := Option.map_eq_some_iff.1 hs
    -- every CPU keeps its job
    have hjob : ∀ c', (update s.spawn c (.enqueued child cpu frame) c').job
        = (s.spawn c').job := by
      intro c'
      by_cases hc : c' = c
      · subst hc
        rw [update_self, hspawn]
        rfl
      · rw [update_of_ne hc]
    refine ⟨fun c' t frame' hj => ?_, fun t frame' hsaved hfound => ?_, h.found,
      fun c' t ht hspawning => ?_⟩
    · exact h.spawning c' t frame' ((hjob c').symm.trans hj)
    · exact (h.waiting t frame' hsaved hfound).imp id fun ⟨c', hj⟩ => ⟨c', (hjob c').trans hj⟩
    · obtain ⟨c1, frame', hj⟩ := spawning_iff.1 hspawning
      rcases SchedState.onCpu_step hr ht with hold | ⟨hpick, -⟩
      · exact h.away c' t hold (spawning_iff.2 ⟨c1, frame', (hjob c1).symm.trans hj⟩)
      · cases hpick
  · cases hs

theorem store_inv (h : s.Inv) (hs : s.store c = some s') : s'.Inv := by
  unfold store at hs
  split at hs
  · rename_i child cpu frame hspawn
    split at hs
    · cases hs
    cases hs
    have hsaved : s.savedFrame child = some frame :=
      h.spawning c child frame (by rw [hspawn]; rfl)
    refine ⟨fun c' t frame' hjob => ?_, fun t frame' hsaved' hfound => ?_, h.found,
      fun c' t ht hspawning => ?_⟩
    · rcases job_update hjob with ⟨-, hjob⟩ | ⟨-, hjob⟩
      · cases hjob
      · exact h.spawning c' t frame' hjob
    · dsimp only at hsaved' ⊢
      by_cases ht : t = child
      · subst ht
        rw [hsaved] at hsaved'
        cases hsaved'
        exact .inl (update_self ..)
      rcases h.waiting t frame' hsaved' hfound with hstored | ⟨c', hjob⟩
      · exact .inl (by rw [update_of_ne ht]; exact hstored)
      refine .inr ⟨c', ?_⟩
      rw [update_of_ne]
      · exact hjob
      · rintro rfl
        rw [hspawn] at hjob
        cases hjob
        exact ht rfl
    · obtain ⟨c1, frame', hjob⟩ := spawning_iff.1 hspawning
      rcases job_update hjob with ⟨-, hjob⟩ | ⟨-, hjob⟩
      · cases hjob
      · exact h.away c' t ht (spawning_iff.2 ⟨c1, frame', hjob⟩)
  · cases hs

theorem runStub_inv (h : s.Inv) (hs : s.runStub c = some s') : s'.Inv := by
  unfold runStub at hs
  split at hs
  · rename_i t hphase hcurrent
    split at hs
    · rename_i hunstarted
      obtain ⟨hsaved, hnew⟩ := hunstarted
      obtain ⟨frame, hframe⟩ := Option.ne_none_iff_exists'.1 hsaved
      -- the child is on a CPU, so its parent is done with it
      have hstored : s.forkReturnFrame t = some frame.forkReturnFrame := by
        rcases h.waiting t frame hframe hnew with hstored | ⟨c', hjob⟩
        · exact hstored
        · exact absurd (spawning_iff.2 ⟨c', frame, hjob⟩)
            (h.away c t (SchedState.mem_onCpu.2 (.inl hcurrent)))
      cases hs
      refine ⟨h.spawning, fun t' frame' hsaved' hfound => ?_, fun t' o hfound => ?_,
        fun c' t' ht' => ?_⟩
      · dsimp only at hfound ⊢
        by_cases ht : t' = t
        · subst ht
          rw [update_self] at hfound
          cases hfound
        · rw [update_of_ne ht] at hfound
          rw [update_of_ne ht]
          exact h.waiting t' frame' hsaved' hfound
      · dsimp only at hfound
        by_cases ht : t' = t
        · subst ht
          rw [update_self, hstored] at hfound
          cases hfound
          exact ⟨frame, hframe, rfl⟩
        · rw [update_of_ne ht] at hfound
          exact h.found t' o hfound
      · refine h.away c' t' ?_
        dsimp only at ht'
        split at ht' <;> exact ht'
    · cases hs
  · cases hs

theorem Inv.step (h : s.Inv) {a : ForkStep n} (hok : s.PickOk a)
    (hs : s.step a = some s') : s'.Inv := by
  cases a with
  | sched a =>
    obtain ⟨r, hr, rfl⟩ := schedStep_eq hs
    refine ⟨h.spawning, h.waiting, h.found, fun c t ht => ?_⟩
    rcases SchedState.onCpu_step hr ht with hold | ⟨rfl, hpicked, -⟩
    · exact h.away c t hold
    · have hpicks : s.picks c = some t := by rw [picks, hr, Option.bind_some, hpicked]
      exact hok t hpicks
  | clone c child frame => exact clone_inv h hs
  | enqueue c cpu => exact enqueue_inv h hs
  | store c => exact store_inv h hs
  | runStub c => exact runStub_inv h hs

/-! ### Runs -/

theorem run_inv {pid : TaskId → ProcessId} {as : List (ForkStep n)}
    (hrun : Run (Guarded PickOk (ofPartial step)) (boot n pid) as s) : s.Inv := by
  refine hrun.invariant Inv ?_ (inv_boot pid)
  rintro s a s' hs ⟨hok, hstep⟩
  exact hs.step hok hstep

/-- The frame of a parent. -/
def parentFrame : SavedSyscallFrame :=
  ⟨0x7fff0000, 0x202, 0x401000, 15, 14, 13, 12, 5, 3, 9, 8, 10, 2, 6, 7, 57⟩

/-- Task 1 starts on CPU 0, calls `fork` and puts its child into the queue of
CPU 1. -/
def forkChild : List (ForkStep 2) :=
  [.sched (.addTask 1 0), .sched (.callCommit ⟨1, 0, true⟩), .sched (.flush 0), .sched (.pick 0),
    .sched (.replaceCurrent 0), .sched (.doSwitch 0), .clone 0 2 parentFrame, .enqueue 0 1,
    .sched (.callCommit ⟨2, 1, true⟩)]

/-- CPU 1 picks the child and switches to it. -/
def startChild : List (ForkStep 2) :=
  [.sched (.flush 1), .sched (.pick 1), .sched (.replaceCurrent 1), .sched (.doSwitch 1)]

end ForkState

end JanuaryOs.Sched

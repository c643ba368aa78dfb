import JanuaryOs.Sched.Effects

/-!
# When the address space of a dead process is torn down

From `task/runtime/manager.rs`, `task/proc/signal.rs` and `mm_release` in
`mm/virt/vma.rs`.

A process becomes `Zombie` when its tasks are marked `Exited`, by itself or by a
fatal signal. A task that is marked may still be the current one of some CPU.
Whoever reaps the process takes it from the table and gives its reference to the
address space back; the last reference tears the address space down. The work of
a CPU in these functions is a `Job`, whose constructors are the sections that
are still to come; between any two sections the other CPUs go on.

Nothing in these sections waits until the tasks of a dead process have left
their CPUs. Runs in which they have when the process is taken from the table are
safe: its tasks have exited, so they do not come to a CPU again, and `mm_count`
counts the processes that are still in the table.

The processes are those of a given table. Descriptors and recorded exec pages
have no influence on the order of these sections and are left out.
-/

namespace JanuaryOs.Sched

open Lib Function List

/-! ### State -/

/-- The table of processes: their tasks, families and address spaces. -/
structure Procs where
  pid : TaskId → ProcessId
  tasksOf : ProcessId → List TaskId
  mem_tasksOf : ∀ t p, t ∈ tasksOf p ↔ pid t = p
  parent : ProcessId → Option ProcessId
  children : ProcessId → List ProcessId
  mm : ProcessId → MmId
  /-- The processes that hold a reference to an address space. -/
  usersOf : MmId → Finset ProcessId
  mem_usersOf : ∀ p m, m ≠ initMm → (p ∈ usersOf m ↔ mm p = m)

/-- What a CPU has still to do in `send_signal`, `exit_current_task`,
`exit_current_process`, `reap_observed_child` or `reap_orphan_zombie_process`. -/
inductive Job (n : ℕ)
  | idle
  /-- The tasks that are still to be marked `Exited`; then the process becomes
  `Zombie`. -/
  | exiting (p : ProcessId) (todo : List TaskId) (self : Bool)
  /-- The slots `remove_tasks_by_pid` has before it, and whether an orphan is
  then reaped. -/
  | clearing (p : ProcessId) (slots : List (Fin n)) (orphan : Bool)
  /-- `exit_current_task` has marked its task and looks for the process. -/
  | findOwn (p : ProcessId)
  | lastTask (p : ProcessId)
  | findOrphan (p : ProcessId)
  | checkOrphan (p : ProcessId)
  /-- `reap_observed_child` knows that the caller owns the child. -/
  | findChild (parent p : ProcessId)
  | checkChild (parent p : ProcessId)
  | removeChild (parent p : ProcessId)
  | removeProcess (p : ProcessId)
  /-- The process is no longer in the table, its reference is still to be given
  back. -/
  | release (p : ProcessId)
  /-- The reference was the last one. -/
  | teardown (p : ProcessId)
  deriving DecidableEq

/-- The scheduler with the processes of a table. -/
structure TeardownState (n : ℕ) where
  sched : SchedState n
  inTable : ProcessId → Bool
  zombie : ProcessId → Bool
  children : ProcessId → List ProcessId
  mmCount : MmId → ℕ
  job : Fin n → Job n

inductive TeardownStep (n : ℕ)
  | sched (a : SchedStep n)
  | kill (c : Fin n) (p : ProcessId)
  | exitTask (c : Fin n)
  | exitProcess (c : Fin n)
  | reap (c : Fin n) (p : ProcessId)
  /-- The next section of a CPU's job. -/
  | run (c : Fin n)
  deriving DecidableEq

namespace TeardownState

variable {n : ℕ} (P : Procs)

/-- All processes are alive. -/
def boot (n : ℕ) : TeardownState n where
  sched := .boot n P.pid
  inTable := fun _ => true
  zombie := fun _ => false
  children := P.children
  mmCount := fun m => (P.usersOf m).card
  job := fun _ => .idle

variable (s : TeardownState n)

def setJob (c : Fin n) (j : Job n) : TeardownState n :=
  { s with job := update s.job c j }

/-- `task.status = Exited`. -/
def exit (t : TaskId) : TeardownState n :=
  { s with sched := s.sched.setStatus t .exited }

/-- `mark_exiting` and `mark_zombie`. -/
def markZombie (p : ProcessId) : TeardownState n :=
  { s with zombie := update s.zombie p true }

/-- The task that runs on the CPU outside `schedule()`, with nothing else to do. -/
def caller (c : Fin n) : Option TaskId :=
  if s.sched.phase c = .user ∧ s.job c = .idle then s.sched.current c else none

/-- `send_signal` with `SIGKILL` or `SIGTERM`. -/
def kill (c : Fin n) (p : ProcessId) : Option (TeardownState n) :=
  match s.caller c with
  | some _ =>
    if s.inTable p = true then some (s.setJob c (.exiting p (P.tasksOf p) false)) else none
  | none => none

/-- `exit_current_task` up to the end of its first section. -/
def exitTask (c : Fin n) : Option (TeardownState n) :=
  match s.caller c with
  | some t => some ((s.exit t).setJob c (.findOwn (P.pid t)))
  | none => none

/-- `exit_current_process` up to the list of tasks. -/
def exitProcess (c : Fin n) : Option (TeardownState n) :=
  match s.caller c with
  | some t =>
    if s.inTable (P.pid t) = true then
      some (s.setJob c (.exiting (P.pid t) (P.tasksOf (P.pid t)) true))
    else some (s.exit t)
  | none => none

/-- `parent_owns_child`, the beginning of `reap_observed_child`. -/
def reap (c : Fin n) (p : ProcessId) : Option (TeardownState n) :=
  match s.caller c with
  | some t =>
    if s.inTable (P.pid t) = true ∧ p ∈ s.children (P.pid t) then
      some (s.setJob c (.findChild (P.pid t) p))
    else none
  | none => none

/-- `mm_release`: the reference is given back. The initial address space is not
counted. -/
def release (c : Fin n) (p : ProcessId) : TeardownState n :=
  let m := P.mm p
  let rest := Job.clearing p (finRange n) false
  if m = initMm then s.setJob c rest
  else
    { s with mmCount := update s.mmCount m (s.mmCount m - 1) }.setJob c
      (if s.mmCount m ≤ 1 then .teardown p else rest)

def run (c : Fin n) : Option (TeardownState n) :=
  match s.job c with
  | .idle => none
  | .exiting p (t :: todo) self => some ((s.exit t).setJob c (.exiting p todo self))
  | .exiting p [] self =>
    some ((s.markZombie p).setJob c
      (.clearing p (finRange n) (self && (P.parent p).isNone)))
  | .clearing p (slot :: slots) orphan => (s.sched.step (.removeTasks p slot)).map fun sched =>
    { s with sched := sched }.setJob c (.clearing p slots orphan)
  | .clearing p [] orphan => some (s.setJob c (if orphan then .findOrphan p else .idle))
  | .findOwn p => some (s.setJob c (if s.inTable p then .lastTask p else .idle))
  | .lastTask p =>
    if ∀ t ∈ P.tasksOf p, s.sched.status t = .exited then
      some ((s.markZombie p).setJob c (if (P.parent p).isNone then .findOrphan p else .idle))
    else some (s.setJob c .idle)
  | .findOrphan p => some (s.setJob c (if s.inTable p then .checkOrphan p else .idle))
  | .checkOrphan p =>
    some (s.setJob c
      (if (P.parent p).isNone ∧ s.zombie p = true then .removeProcess p else .idle))
  | .findChild parent p =>
    some (s.setJob c (if s.inTable p then .checkChild parent p else .idle))
  | .checkChild parent p =>
    some (s.setJob c (if s.zombie p = true then .removeChild parent p else .idle))
  | .removeChild parent p =>
    some ({ s with
      children := update s.children parent
        ((s.children parent).filter fun q => q ≠ p) }.setJob c (.removeProcess p))
  | .removeProcess p =>
    if s.inTable p = true then
      some ({ s with inTable := update s.inTable p false }.setJob c (.release p))
    else some (s.setJob c .idle)
  | .release p => some (s.release P c p)
  | .teardown p => some (s.setJob c (.clearing p (finRange n) false))

/-- A step of the scheduler. A CPU enters `schedule()` when its job is done;
tasks are marked `Exited` by the jobs. -/
def schedStep (a : SchedStep n) : Option (TeardownState n) :=
  let next := (s.sched.step a).map fun sched => { s with sched := sched }
  match a with
  | .flush c => if s.job c = .idle then next else none
  | .exit _ => none
  | _ => next

def step : TeardownStep n → Option (TeardownState n)
  | .sched a => s.schedStep a
  | .kill c p => s.kill P c p
  | .exitTask c => s.exitTask P c
  | .exitProcess c => s.exitProcess P c
  | .reap c p => s.reap P c p
  | .run c => s.run P c

/-- When a process is taken from the table, its tasks have left their CPUs. The
CPU that takes it may still run one of them, if no other process has the address
space. -/
def RemovalOk : TeardownStep n → Prop
  | .run c =>
    match s.job c with
    | .removeProcess p => s.inTable p = true → P.mm p ≠ initMm → ∀ c', ∀ t ∈ s.sched.onCpu c',
      P.pid t = p → c' = c ∧ s.mmCount (P.mm p) ≤ 1
    | _ => True
  | _ => True

instance : (a : TeardownStep n) → Decidable (s.RemovalOk P a)
  | .run c =>
    match h : s.job c with
    | .removeProcess p => decidable_of_iff
        (s.inTable p = true → P.mm p ≠ initMm → ∀ c', ∀ t ∈ s.sched.onCpu c',
          P.pid t = p → c' = c ∧ s.mmCount (P.mm p) ≤ 1)
        (by simp only [RemovalOk, h])
    | .idle | .exiting .. | .clearing .. | .findOwn _ | .lastTask _ | .findOrphan _
    | .checkOrphan _ | .findChild .. | .checkChild .. | .removeChild .. | .release _
    | .teardown _ => .isTrue (by simp only [RemovalOk, h])
  | .sched _ | .kill .. | .exitTask _ | .exitProcess _ | .reap .. =>
    inferInstanceAs (Decidable True)

/-! ### The invariant -/

/-- A job that holds a reference to the address space. -/
def holds (m : MmId) : Job n → ℕ
  | .release p => if P.mm p = m then 1 else 0
  | _ => 0

/-- The processes in the table that have the address space. -/
def users (m : MmId) : ℕ :=
  ∑ p ∈ P.usersOf m, if s.inTable p then 1 else 0

/-- The references that are being given back. -/
def released (m : MmId) : ℕ := ∑ c, holds P m (s.job c)

/-- The process whose reference a job is giving back, or has given back as the
last one. -/
def gives : Job n → Option ProcessId
  | .release p | .teardown p => some p
  | _ => none

/-- Nobody but the CPU has anything to do with the address space. -/
def Alone (c : Fin n) (m : MmId) : Prop :=
  (∀ q, P.mm q = m → s.inTable q = false) ∧ ∀ c', c' ≠ c → ∀ q ∈ gives (s.job c'), P.mm q ≠ m

/-- What a job knows about the state. -/
def JobOk : Job n → Prop
  | .exiting p todo _ => ∀ t ∈ P.tasksOf p, s.sched.status t = .exited ∨ t ∈ todo
  | .removeChild _ p | .removeProcess p => s.zombie p = true
  | .teardown p => P.mm p ≠ initMm ∧ ∀ q, P.mm q = P.mm p → s.inTable q = false
  | _ => True

/-- The tasks of dead processes have exited, `mm_count` counts the processes in
the table and the references on their way back, and a CPU on which a task of a
removed process still is has the address space for itself. -/
structure Inv (s : TeardownState n) : Prop where
  zombie : ∀ p, s.zombie p = true → ∀ t ∈ P.tasksOf p, s.sched.status t = .exited
  table : ∀ p, s.inTable p = false → s.zombie p = true
  job : ∀ c, s.JobOk P (s.job c)
  count : ∀ m, m ≠ initMm → s.mmCount m = s.users P m + s.released P m
  alone : ∀ c, ∀ t ∈ s.sched.onCpu c, s.inTable (P.pid t) = false → P.mm (P.pid t) ≠ initMm →
    s.Alone P c (P.mm (P.pid t))

variable {P} {s s' : TeardownState n} {p : ProcessId} {c : Fin n}

theorem inv_boot (n : ℕ) : (boot P n).Inv P where
  zombie := nofun
  table := nofun
  job := fun _ => trivial
  count := fun m _ => by
    simp only [users, released, boot, holds, if_true, Finset.sum_const, smul_eq_mul, mul_one,
      mul_zero, add_zero]
  alone := nofun

@[simp] theorem holds_release (m : MmId) (p : ProcessId) :
    holds P m (.release p : Job n) = if P.mm p = m then 1 else 0 := rfl

theorem released_setJob (s : TeardownState n) (c : Fin n) (j : Job n) (m : MmId) :
    (s.setJob c j).released P m + holds P m (s.job c) = s.released P m + holds P m j :=
  sum_update (Finset.mem_univ c) (fun _ => holds P m) s.job j

/-- The scheduler moves. The tasks of dead processes have exited, so none of
them comes to a CPU again. -/
theorem Inv.sched (h : s.Inv P) {a : SchedStep n} {r : SchedState n}
    (hr : s.sched.step a = some r) : ({ s with sched := r } : TeardownState n).Inv P := by
  have hexited : ∀ t, s.sched.status t = .exited → r.status t = .exited :=
    fun t ht => SchedState.exited_step ht hr
  refine ⟨fun p hp t ht => hexited t (h.zombie p hp t ht), h.table, fun c => ?_, h.count,
    fun c t ht hgone hinit => ?_⟩
  · have hjob := h.job c
    show JobOk P _ (s.job c)
    generalize s.job c = j at hjob
    cases j with
    | exiting p todo self => exact fun t ht => (hjob t ht).imp (hexited t) id
    | _ => exact hjob
  · rcases SchedState.onCpu_step hr ht with hold | ⟨-, -, hready⟩
    · exact h.alone c t hold hgone hinit
    · have hdead := h.zombie _ (h.table _ hgone) t ((P.mem_tasksOf t _).2 rfl)
      rw [hdead] at hready
      cases hready

/-- A CPU goes on to a job that has nothing to do with a reference. -/
theorem Inv.setJob (h : s.Inv P) {j0 j : Job n} (hjob : s.job c = j0) (hj : s.JobOk P j)
    (hgives : gives j = none) (hholds : ∀ m, m ≠ initMm → holds P m j = holds P m j0) :
    (s.setJob c j).Inv P := by
  refine ⟨h.zombie, h.table, ?_, fun m hm => ?_, fun c1 t ht hgone hinit => ?_⟩
  · exact (forall_update_iff s.job fun _ => JobOk P s).2 ⟨hj, fun c' _ => h.job c'⟩
  · have hsum := s.released_setJob (P := P) c j m
    have hcount := h.count m hm
    rw [hjob, hholds m hm] at hsum
    show s.mmCount m = s.users P m + (s.setJob c j).released P m
    omega
  · obtain ⟨hnobody, hothers⟩ := h.alone c1 t ht hgone hinit
    refine ⟨hnobody, (forall_update_iff s.job fun c' j =>
      c' ≠ c1 → ∀ q ∈ gives j, P.mm q ≠ _).2 ⟨fun _ q hq => ?_, fun c' _ => hothers c'⟩⟩
    rw [hgives] at hq
    cases hq

theorem Inv.setJob_ite (h : s.Inv P) {j0 j j' : Job n} {q : Prop} [Decidable q]
    (hjob : s.job c = j0) (hj : q → s.JobOk P j) (hj' : s.JobOk P j')
    (hgives : gives j = none) (hgives' : gives j' = none)
    (hholds : ∀ m, holds P m j = holds P m j0) (hholds' : ∀ m, holds P m j' = holds P m j0) :
    (s.setJob c (if q then j else j')).Inv P := by
  split
  · rename_i hq
    exact h.setJob hjob (hj hq) hgives fun m _ => hholds m
  · exact h.setJob hjob hj' hgives' fun m _ => hholds' m

/-- A process whose tasks have all exited becomes `Zombie`. -/
theorem Inv.markZombie (h : s.Inv P) (hp : ∀ t ∈ P.tasksOf p, s.sched.status t = .exited) :
    (s.markZombie p).Inv P := by
  have hkeep : ∀ q, s.zombie q = true → (s.markZombie p).zombie q = true := by
    intro q hq
    by_cases hqp : q = p
    · subst hqp
      exact update_self ..
    · exact (update_of_ne hqp ..).trans hq
  refine ⟨fun q hq => ?_, fun q hq => hkeep q (h.table q hq), fun c => ?_, h.count, h.alone⟩
  · by_cases hqp : q = p
    · subst hqp
      exact hp
    · exact h.zombie q ((update_of_ne hqp ..).symm.trans hq)
  · have hjob := h.job c
    show JobOk P _ (s.job c)
    generalize s.job c = j at hjob
    cases j with
    | removeChild parent q
    | removeProcess q => exact hkeep q hjob
    | _ => exact hjob

theorem Inv.exit (h : s.Inv P) (t : TaskId) : (s.exit t).Inv P :=
  h.sched (show s.sched.step (.exit t) = some _ from rfl)

/-- The processes in the table, without one of them. -/
theorem users_remove (hp : s.inTable p = true) {m : MmId} (hm : m ≠ initMm) :
    ({ s with inTable := update s.inTable p false } : TeardownState n).users P m
      + (if P.mm p = m then 1 else 0) = s.users P m := by
  show ∑ q ∈ P.usersOf m, (if update s.inTable p false q then 1 else 0) + _
    = ∑ q ∈ P.usersOf m, if s.inTable q then 1 else 0
  by_cases hmem : p ∈ P.usersOf m
  · have husers := sum_update hmem (fun _ (b : Bool) => if b then 1 else 0) s.inTable false
    simp only [hp, if_true, Bool.false_eq_true, if_false] at husers
    rw [if_pos ((P.mem_usersOf p m hm).1 hmem)]
    omega
  · rw [if_neg fun hmm => hmem ((P.mem_usersOf p m hm).2 hmm), Nat.add_zero]
    refine Finset.sum_congr rfl fun q hq => ?_
    rw [update_of_ne]
    rintro rfl
    exact hmem hq

/-- An address space without users is that of no process in the table. -/
theorem gone_of_users {m : MmId} (hm : m ≠ initMm) (h : s.users P m = 0) (q : ProcessId)
    (hq : P.mm q = m) : s.inTable q = false := by
  have hzero := (Finset.sum_eq_zero_iff.1 h) q ((P.mem_usersOf q _ hm).2 hq)
  cases hin : s.inTable q with
  | false => rfl
  | true => rw [hin] at hzero; cases hzero

/-- The CPU that takes the last process of an address space has it for itself. -/
theorem Inv.alone_removed (h : s.Inv P) (hp : s.inTable p = true) (hinit : P.mm p ≠ initMm)
    (hlast : s.mmCount (P.mm p) ≤ 1) :
    ({ s with inTable := update s.inTable p false }.setJob c (.release p)).Alone P c (P.mm p) := by
  have husers := users_remove (s := s) (P := P) hp hinit
  have hcount := h.count _ hinit
  rw [if_pos rfl] at husers
  have hnobody : ({ s with inTable := update s.inTable p false } : TeardownState n).users P (P.mm p)
      = 0 := by omega
  refine ⟨gone_of_users hinit hnobody, fun c' hc q hq hmm => ?_⟩
  -- no reference was on its way back
  have hnone : holds P (P.mm p) (s.job c') = 0 :=
    Finset.sum_eq_zero_iff.1 (show s.released P (P.mm p) = 0 by omega) c' (Finset.mem_univ c')
  have hjob : s.job c' = (update s.job c (.release p)) c' := (update_of_ne hc ..).symm
  have hok := h.job c'
  change q ∈ gives (update s.job c (.release p) c') at hq
  rw [← hjob] at hq
  generalize s.job c' = j at hq hok hnone
  cases j with
  | release r =>
    cases hq
    rw [holds, if_pos hmm] at hnone
    cases hnone
  | teardown r =>
    cases hq
    rw [hok.2 p hmm.symm] at hp
    cases hp
  | _ => cases hq

/-- A dead process is taken from the table; its reference is now on its way
back. -/
theorem Inv.removeProcess (h : s.Inv P) (hjob : s.job c = .removeProcess p)
    (hp : s.inTable p = true) (hok : s.RemovalOk P (.run c)) :
    ({ s with inTable := update s.inTable p false }.setJob c (.release p)).Inv P := by
  have hzombie : s.zombie p = true := by
    have hok := h.job c
    rw [hjob] at hok
    exact hok
  have hgone : ∀ q, s.inTable q = false → update s.inTable p false q = false := by
    intro q hq
    by_cases hqp : q = p
    · subst hqp
      exact update_self ..
    · exact (update_of_ne hqp ..).trans hq
  simp only [RemovalOk, hjob] at hok
  refine ⟨h.zombie, fun q hq => ?_, ?_, fun m hm => ?_, fun c1 t ht hout hinit => ?_⟩
  · by_cases hqp : q = p
    · subst hqp
      exact hzombie
    · exact h.table q ((update_of_ne hqp ..).symm.trans hq)
  · refine (forall_update_iff s.job fun _ => JobOk P _).2 ⟨trivial, fun c' _ => ?_⟩
    have hok := h.job c'
    generalize s.job c' = j at hok
    cases j with
    | teardown q => exact ⟨hok.1, fun r hr => hgone r (hok.2 r hr)⟩
    | _ => exact hok
  · have hjobs := s.released_setJob (P := P) c (.release p) m
    have husers := users_remove (s := s) (P := P) hp hm
    have hcount := h.count m hm
    have hold : holds P m (.removeProcess p : Job n) = 0 := rfl
    rw [hjob, holds_release] at hjobs
    show s.mmCount m = ({ s with inTable := update s.inTable p false } : TeardownState n).users P m
      + (s.setJob c (.release p)).released P m
    omega
  · by_cases hpid : P.pid t = p
    · rw [hpid] at hinit ⊢
      obtain ⟨rfl, hlast⟩ := hok hp hinit c1 t ht hpid
      exact h.alone_removed hp hinit hlast
    -- the address space of a process that was removed before is not that of `p`
    obtain ⟨hnobody, hothers⟩ := h.alone c1 t ht ((update_of_ne hpid ..).symm.trans hout) hinit
    refine ⟨fun q hq => hgone q (hnobody q hq), (forall_update_iff s.job fun c' j =>
      c' ≠ c1 → ∀ q ∈ gives j, P.mm q ≠ _).2 ⟨fun _ q hq hmm => ?_, fun c' _ => hothers c'⟩⟩
    obtain rfl := Option.some.inj hq
    rw [hnobody _ hmm] at hp
    cases hp

/-- The reference is given back. If it was the last one, no process in the table
has the address space. -/
theorem Inv.release (h : s.Inv P) (hjob : s.job c = .release p) : (s.release P c p).Inv P := by
  unfold TeardownState.release
  dsimp only
  split
  · rename_i hinit
    -- the initial address space is not counted
    refine h.setJob hjob trivial rfl fun m hm => ?_
    rw [holds_release, hinit, if_neg hm.symm]
    rfl
  · rename_i hinit
    have hheld : 1 ≤ s.released P (P.mm p) := by
      have hle := Finset.single_le_sum_of_canonicallyOrdered
        (f := fun c' => holds P (P.mm p) (s.job c')) (Finset.mem_univ c)
      simp only [hjob, holds_release, if_true] at hle
      exact hle
    have hcount := h.count (P.mm p) hinit
    refine ⟨h.zombie, h.table, ?_, fun m hm => ?_, fun c1 t ht hgone hmm => ?_⟩
    · refine (forall_update_iff s.job fun _ => JobOk P s).2 ⟨?_, fun c' _ => h.job c'⟩
      split
      · exact ⟨hinit, gone_of_users hinit (by omega)⟩
      · trivial
    · have hsum := s.released_setJob (P := P) c
        (if s.mmCount (P.mm p) ≤ 1 then .teardown p else .clearing p (finRange n) false) m
      have hnew : holds P m (if s.mmCount (P.mm p) ≤ 1 then Job.teardown p
          else .clearing p (finRange n) false) = 0 := by split <;> rfl
      have hcountm := h.count m hm
      rw [hjob, hnew, holds_release] at hsum
      show update s.mmCount (P.mm p) (s.mmCount (P.mm p) - 1) m
        = s.users P m + (s.setJob c _).released P m
      by_cases hmm : m = P.mm p
      · subst hmm
        rw [update_self]
        rw [if_pos rfl] at hsum
        omega
      · rw [update_of_ne hmm]
        rw [if_neg (Ne.symm hmm)] at hsum
        omega
    · obtain ⟨hnobody, hothers⟩ := h.alone c1 t ht hgone hmm
      refine ⟨hnobody, (forall_update_iff s.job fun c' j =>
        c' ≠ c1 → ∀ q ∈ gives j, P.mm q ≠ _).2 ⟨fun hc q hq => ?_, fun c' _ => hothers c'⟩⟩
      -- the CPU had this reference in its hands before
      refine hothers c hc q ?_
      rw [hjob]
      split at hq
      · exact hq
      · cases hq

/-! ### Steps -/

theorem run_inv (h : s.Inv P) (hok : s.RemovalOk P (.run c))
    (hs : s.run P c = some s') : s'.Inv P := by
  unfold run at hs
  have hknown := h.job c
  split at hs
  · cases hs
  · rename_i p t todo self hjob
    rw [hjob] at hknown
    cases hs
    refine (h.exit t).setJob hjob (fun x hx => ?_) rfl fun _ _ => rfl
    by_cases hxt : x = t
    · subst hxt
      exact .inl (update_self ..)
    · refine (hknown x hx).imp (fun hx => (update_of_ne hxt ..).trans hx) fun hx => ?_
      exact (mem_cons.1 hx).resolve_left hxt
  · rename_i p self hjob
    rw [hjob] at hknown
    cases hs
    have hexited := fun t ht => (hknown t ht).resolve_right nofun
    exact (h.markZombie hexited).setJob hjob trivial rfl fun _ _ => rfl
  · rename_i p slot slots orphan hjob
    obtain ⟨r, hr, rfl⟩ := Option.map_eq_some_iff.1 hs
    exact (h.sched hr).setJob hjob trivial rfl fun _ _ => rfl
  · rename_i p orphan hjob
    cases hs
    exact h.setJob_ite hjob (fun _ => trivial) trivial rfl rfl (fun _ => rfl) fun _ => rfl
  · rename_i p hjob
    cases hs
    exact h.setJob_ite hjob (fun _ => trivial) trivial rfl rfl (fun _ => rfl) fun _ => rfl
  · rename_i p hjob
    split at hs
    · rename_i hall
      cases hs
      exact (h.markZombie hall).setJob_ite hjob (fun _ => trivial) trivial rfl rfl (fun _ => rfl)
        fun _ => rfl
    · cases hs
      exact h.setJob hjob trivial rfl fun _ _ => rfl
  · rename_i p hjob
    cases hs
    exact h.setJob_ite hjob (fun _ => trivial) trivial rfl rfl (fun _ => rfl) fun _ => rfl
  · rename_i p hjob
    cases hs
    exact h.setJob_ite hjob (fun hzombie => hzombie.2) trivial rfl rfl (fun _ => rfl) fun _ => rfl
  · rename_i parent p hjob
    cases hs
    exact h.setJob_ite hjob (fun _ => trivial) trivial rfl rfl (fun _ => rfl) fun _ => rfl
  · rename_i parent p hjob
    cases hs
    exact h.setJob_ite hjob (fun hzombie => hzombie) trivial rfl rfl (fun _ => rfl) fun _ => rfl
  · rename_i parent p hjob
    rw [hjob] at hknown
    cases hs
    have hchildren : ({ s with
        children := update s.children parent
          ((s.children parent).filter fun q => q ≠ p) } : TeardownState n).Inv P :=
      ⟨h.zombie, h.table, h.job, h.count, h.alone⟩
    exact hchildren.setJob hjob hknown rfl fun _ _ => rfl
  · rename_i p hjob
    split at hs
    · rename_i hp
      cases hs
      exact h.removeProcess hjob hp hok
    · cases hs
      exact h.setJob hjob trivial rfl fun _ _ => rfl
  · rename_i p hjob
    cases hs
    exact h.release hjob
  · rename_i p hjob
    cases hs
    exact h.setJob hjob trivial rfl fun _ _ => rfl

theorem caller_idle {t : TaskId} (h : s.caller c = some t) : s.job c = .idle := by
  unfold caller at h
  split at h
  · rename_i hc
    exact hc.2
  · cases h

theorem Inv.step (h : s.Inv P) {a : TeardownStep n} (hok : s.RemovalOk P a)
    (hs : s.step P a = some s') : s'.Inv P := by
  cases a with
  | sched a =>
    simp only [TeardownState.step, schedStep] at hs
    split at hs
    · split at hs
      · obtain ⟨r, hr, rfl⟩ := Option.map_eq_some_iff.1 hs
        exact h.sched hr
      · cases hs
    · cases hs
    · obtain ⟨r, hr, rfl⟩ := Option.map_eq_some_iff.1 hs
      exact h.sched hr
  | kill c p =>
    simp only [TeardownState.step, kill] at hs
    split at hs
    · rename_i t hcaller
      split at hs
      · cases hs
        exact h.setJob (caller_idle hcaller) (fun t ht => .inr ht) rfl fun _ _ => rfl
      · cases hs
    · cases hs
  | exitTask c =>
    simp only [TeardownState.step, exitTask] at hs
    split at hs
    · rename_i t hcaller
      cases hs
      exact (h.exit t).setJob (caller_idle hcaller) trivial rfl fun _ _ => rfl
    · cases hs
  | exitProcess c =>
    simp only [TeardownState.step, exitProcess] at hs
    split at hs
    · rename_i t hcaller
      split at hs
      · cases hs
        exact h.setJob (caller_idle hcaller) (fun t ht => .inr ht) rfl fun _ _ => rfl
      · cases hs
        exact h.exit t
    · cases hs
  | reap c p =>
    simp only [TeardownState.step, reap] at hs
    split at hs
    · rename_i t hcaller
      split at hs
      · cases hs
        exact h.setJob (caller_idle hcaller) trivial rfl fun _ _ => rfl
      · cases hs
    · cases hs
  | run c => exact run_inv h hok hs

/-! ### Runs -/

/-- In every run in which a process is taken from the table only after its tasks
have left their CPUs: an address space is torn down only while no other CPU has
a current task of any of its processes. -/
theorem teardown_unused (n : ℕ) (P : Procs) {as : List (TeardownStep n)} {s : TeardownState n}
    (hrun : Run (Guarded (RemovalOk P) (ofPartial (step P))) (boot P n) as s)
    {c : Fin n} {p : ProcessId} (hjob : s.job c = .teardown p) {c' : Fin n} (hc : c' ≠ c)
    {t : TaskId} (ht : s.sched.current c' = some t) : P.mm (P.pid t) ≠ P.mm p := by
  have hinv : s.Inv P := by
    refine hrun.invariant (Inv P) ?_ (inv_boot n)
    rintro s a s' hs ⟨hok, hstep⟩
    exact hs.step hok hstep
  have hok := hinv.job c
  rw [hjob] at hok
  obtain ⟨hinit, hgone⟩ := hok
  intro hmm
  have halone := hinv.alone c' t (SchedState.mem_onCpu.2 (.inl ht)) (hgone _ hmm) (hmm ▸ hinit)
  exact halone.2 c hc.symm p (by rw [hjob]; rfl) hmm.symm

/-- Process 2 is a child of process 1 and has an address space of its own; every
process has one task. -/
def parentAndChild : Procs where
  pid := id
  tasksOf := fun p => [p]
  mem_tasksOf := fun _ _ => mem_singleton
  parent := fun p => if p = 2 then some 1 else none
  children := fun p => if p = 1 then [2] else []
  mm := fun p => if p = 2 then 5 else initMm
  usersOf := fun m => if m = 5 then {2} else ∅
  mem_usersOf := fun p m hm => by
    by_cases h5 : m = 5
    · subst h5
      by_cases hp : p = 2
      · simp [hp]
      · simp [hp, initMm]
    · by_cases hp : p = 2
      · simp [hp, h5, Ne.symm h5]
      · simp [hp, h5, hm.symm]

/-- Task 1 runs on CPU 0, task 2 on CPU 1. -/
def startBoth : List (TeardownStep 2) :=
  [.sched (.addTask 1 0), .sched (.callCommit ⟨1, 0, true⟩), .sched (.addTask 2 1),
    .sched (.callCommit ⟨2, 1, true⟩), .sched (.flush 0), .sched (.pick 0),
    .sched (.replaceCurrent 0), .sched (.doSwitch 0), .sched (.flush 1), .sched (.pick 1),
    .sched (.replaceCurrent 1), .sched (.doSwitch 1)]

/-- Process 1 reaps process 2, up to the tear-down. -/
def reapChild : List (TeardownStep 2) :=
  [.reap 0 2, .run 0, .run 0, .run 0, .run 0, .run 0]

/-- Process 2 exits and its CPU goes idle before it is reaped. -/
def exitThenReap : List (TeardownStep 2) :=
  startBoth ++ [.exitProcess 1, .run 1, .run 1, .run 1, .run 1, .run 1, .sched (.flush 1),
    .sched (.pick 1), .sched (.pick 1), .sched (.goIdle 1), .sched (.markPrev 1),
    .sched (.doSwitch 1), .sched (.addTask 3 1), .sched (.callCommit ⟨3, 1, true⟩),
    .sched (.flush 1), .sched (.pick 1), .sched (.replaceCurrent 1), .sched (.doSwitch 1)] ++
  reapChild

theorem teardown_unused_exitThenReap :
    ∃ s, Run (Guarded (RemovalOk parentAndChild) (ofPartial (step parentAndChild)))
        (boot parentAndChild 2) exitThenReap s ∧
      s.job 0 = .teardown 2 ∧ s.sched.current 1 = some 3 ∧
      parentAndChild.mm (parentAndChild.pid 3) ≠ parentAndChild.mm 2 :=
  Run.exists_of_exec (Q := fun s => s.job 0 = .teardown 2 ∧ s.sched.current 1 = some 3) (by decide)
    fun _ hrun ⟨hjob, hcurrent⟩ =>
      ⟨hjob, hcurrent, teardown_unused 2 parentAndChild hrun hjob (by decide) hcurrent⟩

/-- Process 1 kills process 2 and reaps it while task 2 is still running on CPU
1. -/
theorem teardown_inUse :
    ∃ s, Run (ofPartial (step parentAndChild)) (boot parentAndChild 2)
        (startBoth ++ [.kill 0 2, .run 0, .run 0, .run 0, .run 0, .run 0] ++ reapChild) s ∧
      s.job 0 = .teardown 2 ∧ s.sched.current 1 = some 2 ∧ s.sched.phase 1 = .user ∧
      parentAndChild.mm (parentAndChild.pid 2) = parentAndChild.mm 2 :=
  Run.exists_of_exec_free (fun _ _ => True) (by decide) fun _ _ h => h

end TeardownState

end JanuaryOs.Sched

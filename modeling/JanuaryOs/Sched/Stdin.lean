import JanuaryOs.Libs.WaitQueue
import JanuaryOs.Sched.Effects

/-!
# Blocking reads from the terminal and the wake-up of those who wait

The read is `sys_read` of descriptor 0, the wake-up
`wake_stdin_waiters_if_ready`.

A reader tries to read a byte, enters its token into `STDIN_WAITERS`, sets its
own status to `Blocked` and calls `schedule()`; then it starts over. Each of
these is a step of its own, interleaved with the steps of all CPUs. `ReadPhase`
is the place of a task in this loop. A wake-up is one step: it takes the first
waiter off the queue and makes it `Ready` if it finds it `Blocked`.

The token and the status are written under different locks. A wake-up between
the two takes the token, finds a status that is not `Blocked`, and leaves a task
that then goes to sleep without a token. `WakeUpOk` excludes this step, and the
wake-up of a task whose CPU has not switched away from it yet.
-/

namespace JanuaryOs.Sched

open Lib Libs Function SchedState List
open Proc (TaskStatus)

/-! ### State -/

/-- What a task does next in a blocking read. -/
inductive ReadPhase
  /-- It does not read. -/
  | outside
  /-- `read_tty_byte`. -/
  | trying
  /-- There was no byte: `enqueue_mode`. -/
  | enqueueing
  /-- The token is in the queue: set the status. -/
  | blocking
  /-- The status is set: call `schedule()`. -/
  | calling
  deriving DecidableEq, Repr

/-- The scheduler, the waiters, the bytes that have arrived and the readers. -/
structure StdinState (n : ℕ) where
  sched : SchedState n
  waiters : WaitQueue
  input : List UInt8
  reads : TaskId → ReadPhase

inductive StdinStep (n : ℕ)
  | sched (a : SchedStep n)
  | arrive (byte : UInt8)
  | startRead (c : Fin n)
  | tryRead (c : Fin n)
  | enqueue (c : Fin n)
  | block (c : Fin n)
  | wake (cpu : Fin n)
  deriving DecidableEq

namespace StdinState

variable {n : ℕ} {s : StdinState n} {t : TaskId} {p : ReadPhase}

/-- Nobody reads and nothing has arrived. -/
def boot (n : ℕ) (pid : TaskId → ProcessId) : StdinState n where
  sched := .boot n pid
  waiters := []
  input := []
  reads := fun _ => .outside

def setRead (s : StdinState n) (t : TaskId) (p : ReadPhase) : StdinState n :=
  { s with reads := update s.reads t p }

/-- The task whose code a CPU executes. -/
def reader (s : StdinState n) (c : Fin n) : Option TaskId :=
  match s.sched.phase c with
  | .user => s.sched.current c
  | _ => none

/-- The task of a CPU, if it is at the given place of the loop. -/
def readerAt (s : StdinState n) (c : Fin n) (p : ReadPhase) : Option TaskId :=
  (s.reader c).filter fun t => s.reads t = p

/-! ### Steps -/

/-- `sys_read` starts. -/
def startRead (s : StdinState n) (c : Fin n) : Option (StdinState n) :=
  (s.readerAt c .outside).map fun t => s.setRead t .trying

/-- The top of the loop: `read_tty_byte`, and `dequeue_current_stdin_waiter` if
there is one. -/
def tryRead (s : StdinState n) (c : Fin n) : Option (StdinState n) :=
  (s.readerAt c .trying).map fun t =>
    match s.input with
    | [] => s.setRead t .enqueueing
    | _ :: rest => { s with input := rest, waiters := s.waiters.dequeue t }.setRead t .outside

/-- The first section of `enqueue_current_stdin_waiter`. -/
def enqueue (s : StdinState n) (c : Fin n) : Option (StdinState n) :=
  (s.readerAt c .enqueueing).map fun t =>
    { s with waiters := s.waiters.enqueueMode t .exclusive }.setRead t .blocking

/-- The second section. A task that has been killed takes its token back. -/
def block (s : StdinState n) (c : Fin n) : Option (StdinState n) :=
  (s.readerAt c .blocking).map fun t =>
    if s.sched.status t = .exited then
      { s with waiters := s.waiters.dequeue t }.setRead t .outside
    else { s with sched := s.sched.setStatus t .blocked }.setRead t .calling

def wakeStdinWaitersIfReady (s : StdinState n) (cpu : Fin n) : StdinState n :=
  if s.input = [] then s
  else
    match s.waiters.wakeOne with
    | (none, _) => s
    | (some entry, rest) =>
      { s with sched := (s.sched.resume entry.token cpu).getD s.sched, waiters := rest }

/-- A step of the scheduler. Of the steps that block or wake a task, only those
of this module belong to the system. A reader calls `schedule()` at one place of
its loop; afterwards it starts over. -/
def schedStep (s : StdinState n) (a : SchedStep n) : Option (StdinState n) :=
  match a with
  | .block _ | .wakeStdin .. | .sigCont .. | .sigStop _ => none
  | .flush c =>
    match s.reader c with
    | none => (s.sched.step a).map fun sched => { s with sched := sched }
    | some t =>
      match s.reads t with
      | .outside => (s.sched.step a).map fun sched => { s with sched := sched }
      | .calling => (s.sched.step a).map fun sched => { s with sched := sched }.setRead t .trying
      | _ => none
  | a => (s.sched.step a).map fun sched => { s with sched := sched }

def step (s : StdinState n) : StdinStep n → Option (StdinState n)
  | .sched a => s.schedStep a
  | .arrive byte => some { s with input := s.input ++ [byte] }
  | .startRead c => s.startRead c
  | .tryRead c => s.tryRead c
  | .enqueue c => s.enqueue c
  | .block c => s.block c
  | .wake cpu => some (s.wakeStdinWaitersIfReady cpu)

/-- Several wake-ups in a row. -/
def wakes (s : StdinState n) (cpu : Fin n) : ℕ → StdinState n
  | 0 => s
  | k + 1 => (s.wakeStdinWaitersIfReady cpu).wakes cpu k

/-- The task of the first waiter is not between entering its token and setting
its status, and if it is `Blocked`, its CPU has switched away from it. -/
def WakeUpOk (s : StdinState n) : StdinStep n → Prop
  | .wake _ => s.input ≠ [] → ∀ entry ∈ s.waiters.wakeOne.1,
      s.reads entry.token ≠ .blocking ∧
        (s.sched.status entry.token = .blocked → s.sched.Parked entry.token)
  | .sched a => s.sched.WakeOk a
  | _ => True

instance (s : StdinState n) : (a : StdinStep n) → Decidable (s.WakeUpOk a)
  | .wake _ =>
    match h : s.waiters.wakeOne.1 with
    | none => .isTrue fun _ entry he => by rw [h] at he; cases he
    | some e =>
      decidable_of_iff (s.input ≠ [] → s.reads e.token ≠ .blocking ∧
          (s.sched.status e.token = .blocked → s.sched.Parked e.token)) (by
        simp only [WakeUpOk, h, Option.mem_def, Option.some.injEq, forall_eq'])
  | .sched a => inferInstanceAs (Decidable (s.sched.WakeOk a))
  | .arrive _ | .startRead _ | .tryRead _ | .enqueue _ | .block _ =>
    inferInstanceAs (Decidable True)

/-! ### Waking -/

/-- The next wake-up with pending input reaches the first waiter. -/
theorem wakeStdinWaitersIfReady_cons {e : WaitEntry} {q : WaitQueue} (hq : s.waiters = e :: q)
    (hinput : s.input ≠ []) (hsleeping : e.state = .sleeping) (cpu : Fin n) :
    s.wakeStdinWaitersIfReady cpu =
      { s with sched := (s.sched.resume e.token cpu).getD s.sched, waiters := q } := by
  rw [wakeStdinWaitersIfReady, if_neg hinput, hq, WaitQueue.wakeOne_cons hsleeping]

theorem resume_status_self {s : SchedState n} (h : s.status t = .blocked) (cpu : Fin n) :
    ((s.resume t cpu).getD s).status t = .ready := by
  rw [resume, if_pos h]
  exact update_self ..

theorem resume_status_of_ne {s : SchedState n} {x : TaskId} (h : t ≠ x) (cpu : Fin n) :
    ((s.resume x cpu).getD s).status t = s.status t := by
  unfold resume
  split
  · exact update_of_ne h ..
  · rfl

/-- A waiter that is `Blocked` is `Ready` after as many wake-ups as there are
waiters up to it. -/
theorem wakes_ready (hsleeping : s.waiters.Sleeping) (hinput : s.input ≠ [])
    (hblocked : s.sched.status t = .blocked) (ht : t ∈ s.waiters.tokens) (cpu : Fin n) :
    (s.wakes cpu (s.waiters.tokens.idxOf t + 1)).sched.status t = .ready := by
  induction hq : s.waiters generalizing s with
  | nil =>
    rw [hq] at ht
    cases ht
  | cons e q ih =>
    rw [hq] at hsleeping ht
    have hwake := wakeStdinWaitersIfReady_cons hq hinput (hsleeping e mem_cons_self) cpu
    by_cases het : e.token = t
    · have hidx : (WaitQueue.tokens (e :: q)).idxOf t = 0 := by
        simp [WaitQueue.tokens, het]
      rw [hidx, wakes, wakes, hwake, ← het]
      exact resume_status_self (het ▸ hblocked) cpu
    have hidx : (WaitQueue.tokens (e :: q)).idxOf t = (WaitQueue.tokens q).idxOf t + 1 := by
      simp [WaitQueue.tokens, het]
    rw [hidx, wakes, hwake]
    refine ih (fun e' he' => hsleeping e' (mem_cons_of_mem e he')) hinput ?_ ?_ rfl
    · exact (resume_status_of_ne (Ne.symm het) cpu).trans hblocked
    · simpa [WaitQueue.tokens, Ne.symm het] using ht

/-! ### The invariant -/

/-- A CPU is in `schedule()` and has not given its current task up. -/
def Deciding : Phase → Prop
  | .flushing .. | .picking _ | .picked _ | .noTask => True
  | _ => False

/-- Whoever is `Blocked`, or about to be, has its token in the queue. The other
clauses say when a task can be `Blocked` on a CPU: between the write of its
status and the stage of `schedule()` at which the CPU gives it up. -/
structure Inv (s : StdinState n) : Prop where
  sched : s.sched.Inv
  idle : s.sched.IdleKnown
  sleeping : s.waiters.Sleeping
  waiting : ∀ t, s.sched.status t = .blocked → t ∈ s.waiters.tokens
  enqueued : ∀ t, s.reads t = .blocking → t ∈ s.waiters.tokens
  picked : ∀ c t, s.sched.phase c = .picked t → s.sched.status t ≠ .blocked
  current : ∀ c t, s.sched.current c = some t → s.sched.status t = .blocked →
    Deciding (s.sched.phase c) ∨ s.sched.phase c = .user ∧ s.reads t = .calling

theorem readerAt_eq_some {c : Fin n} (h : s.readerAt c p = some t) :
    s.sched.phase c = .user ∧ s.sched.current c = some t ∧ s.reads t = p := by
  obtain ⟨hreader, hp⟩ := Option.filter_eq_some_iff.1 h
  unfold reader at hreader
  split at hreader
  · rename_i hphase
    exact ⟨hphase, hreader, by simpa using hp⟩
  · cases hreader

variable {s' : StdinState n} {c : Fin n} {a : SchedStep n}

theorem Inv.not_blocked (h : s.Inv) (ht : s.readerAt c p = some t) (hp : p ≠ .calling) :
    s.sched.status t ≠ .blocked := by
  obtain ⟨hphase, hcurrent, hread⟩ := readerAt_eq_some ht
  intro hblocked
  rcases h.current c t hcurrent hblocked with hdec | ⟨-, hcalling⟩
  · rw [hphase] at hdec
    exact hdec
  · exact hp (hread.symm.trans hcalling)

theorem Inv.read (h : s.Inv) {q : ReadPhase} (ht : s.readerAt c p = some t) (hp : p ≠ .calling)
    {w : WaitQueue} {input : List UInt8} (hsleeping : w.Sleeping)
    (hkeep : ∀ x, x ≠ t → x ∈ s.waiters.tokens → x ∈ w.tokens)
    (hself : q = .blocking → t ∈ w.tokens) :
    (({ s with waiters := w, input := input } : StdinState n).setRead t q).Inv := by
  have hnot := h.not_blocked ht hp
  have hreads : ∀ x, x ≠ t → update s.reads t q x = s.reads x := fun x hx =>
    update_of_ne hx ..
  refine ⟨h.sched, h.idle, hsleeping, fun x hx => ?_, fun x hx => ?_, h.picked,
    fun c' x hc' hx => ?_⟩
  · have hxt : x ≠ t := by
      rintro rfl
      exact hnot hx
    exact hkeep x hxt (h.waiting x hx)
  · by_cases hxt : x = t
    · subst hxt
      rw [show q = .blocking from (update_self ..).symm.trans hx] at hself
      exact hself rfl
    · exact hkeep x hxt (h.enqueued x ((hreads x hxt).symm.trans hx))
  · have hxt : x ≠ t := by
      rintro rfl
      exact hnot hx
    exact (h.current c' x hc' hx).imp_right fun ⟨hu, hcall⟩ => ⟨hu, (hreads x hxt).trans hcall⟩

theorem startRead_inv (h : s.Inv) (hs : s.startRead c = some s') : s'.Inv := by
  obtain ⟨t, ht, rfl⟩ := Option.map_eq_some_iff.1 hs
  exact h.read ht (by decide) h.sleeping (fun _ _ hx => hx) nofun

theorem tryRead_inv (h : s.Inv) (hs : s.tryRead c = some s') : s'.Inv := by
  obtain ⟨t, ht, heq⟩ := Option.map_eq_some_iff.1 hs
  split at heq
  · subst heq
    exact h.read ht (by decide) h.sleeping (fun _ _ hx => hx) nofun
  · subst heq
    exact h.read ht (by decide) h.sleeping.dequeue
      (fun _ hne hx => WaitQueue.mem_tokens_dequeue hx hne) nofun

theorem enqueue_inv (h : s.Inv) (hs : s.enqueue c = some s') : s'.Inv := by
  obtain ⟨t, ht, rfl⟩ := Option.map_eq_some_iff.1 hs
  exact h.read ht (by decide) h.sleeping.enqueueMode
    (fun _ _ hx => WaitQueue.mem_tokens_enqueueMode.2 (.inr hx))
    fun _ => WaitQueue.mem_tokens_enqueueMode.2 (.inl rfl)

/-- A current task is on one CPU only, and nobody has picked it. -/
theorem Inv.alone (h : s.Inv) (hc : s.sched.current c = some t) :
    (∀ c', s.sched.current c' = some t → c' = c) ∧ ∀ c', s.sched.phase c' ≠ .picked t := by
  refine ⟨fun c' hc' => h.sched.owned.current t c' c hc' hc, fun c' hpicked => ?_⟩
  have hplaces := h.sched.places t
  have hrunning := running_pos hc
  have hhand := inHand_pos hpicked
  unfold places at hplaces
  omega

theorem block_inv (h : s.Inv) (hs : s.block c = some s') : s'.Inv := by
  obtain ⟨t, ht, heq⟩ := Option.map_eq_some_iff.1 hs
  split at heq
  · subst heq
    exact h.read ht (by decide) h.sleeping.dequeue
      (fun _ hne hx => WaitQueue.mem_tokens_dequeue hx hne) nofun
  subst heq
  obtain ⟨hphase, hcurrent, hread⟩ := readerAt_eq_some ht
  obtain ⟨honly, hunpicked⟩ := h.alone hcurrent
  have hstatus : ∀ x, x ≠ t → update s.sched.status t .blocked x = s.sched.status x :=
    fun x hx => update_of_ne hx ..
  refine ⟨h.sched.keep (fun _ => le_rfl) rfl rfl, h.idle, h.sleeping, fun x hx => ?_,
    fun x hx => ?_, fun c' x hpicked => ?_, fun c' x hc' hx => ?_⟩
  · by_cases hxt : x = t
    · exact hxt ▸ h.enqueued t hread
    · exact h.waiting x ((hstatus x hxt).symm.trans hx)
  · by_cases hxt : x = t
    · exact hxt ▸ h.enqueued t hread
    · exact h.enqueued x ((update_of_ne hxt ..).symm.trans hx)
  · have hxt : x ≠ t := by
      rintro rfl
      exact hunpicked c' hpicked
    exact fun hx => h.picked c' x hpicked ((hstatus x hxt).symm.trans hx)
  · by_cases hxt : x = t
    · subst hxt
      rw [honly c' hc']
      exact .inr ⟨hphase, update_self ..⟩
    · refine (h.current c' x hc' ((hstatus x hxt).symm.trans hx)).imp_right ?_
      exact fun ⟨hu, hcall⟩ => ⟨hu, (update_of_ne hxt ..).trans hcall⟩

/-- A wake-up makes its waiter `Ready`, or takes the token of one that has not
set its status. -/
theorem wake_inv (h : s.Inv) (cpu : Fin n) (hok : s.WakeUpOk (.wake cpu)) :
    (s.wakeStdinWaitersIfReady cpu).Inv := by
  by_cases hinput : s.input = []
  · rw [wakeStdinWaitersIfReady, if_pos hinput]
    exact h
  cases hq : s.waiters with
  | nil =>
    rw [wakeStdinWaitersIfReady, if_neg hinput, hq]
    exact h
  | cons e q =>
    have hsleeping : ∀ e' ∈ e :: q, e'.state = .sleeping := hq ▸ h.sleeping
    have hwoken := WaitQueue.wakeOne_cons (q := q) (hsleeping e mem_cons_self)
    have hok := hok hinput
    rw [hq, hwoken] at hok
    obtain ⟨hnotblocking, hparked⟩ := hok _ rfl
    rw [wakeStdinWaitersIfReady_cons hq hinput (hsleeping e mem_cons_self) cpu]
    -- the token that is taken is the only one that is missed
    have hleft : ∀ x, x ≠ e.token → x ∈ s.waiters.tokens → x ∈ WaitQueue.tokens q :=
      fun x hne hx => by
        rw [hq] at hx
        simpa [WaitQueue.tokens, hne] using hx
    have hsched : ((s.sched.resume e.token cpu).getD s.sched).Inv := by
      cases hres : s.sched.resume e.token cpu with
      | none => exact h.sched
      | some r => exact h.sched.step (a := .wakeStdin e.token cpu) hparked hres
    have hframe : ((s.sched.resume e.token cpu).getD s.sched).phase = s.sched.phase ∧
        ((s.sched.resume e.token cpu).getD s.sched).current = s.sched.current ∧
        ((s.sched.resume e.token cpu).getD s.sched).idleSaved = s.sched.idleSaved := by
      unfold resume
      split <;> exact ⟨rfl, rfl, rfl⟩
    obtain ⟨hphase, hcurrent, hidle⟩ := hframe
    have hstatus : ∀ x, ((s.sched.resume e.token cpu).getD s.sched).status x = .blocked →
        x ≠ e.token ∧ s.sched.status x = .blocked := by
      intro x hx
      by_cases hxe : x = e.token
      · subst hxe
        by_cases hb : s.sched.status e.token = .blocked
        · rw [resume_status_self hb] at hx
          cases hx
        · rw [resume, if_neg hb] at hx
          exact absurd hx hb
      · exact ⟨hxe, (resume_status_of_ne hxe cpu).symm.trans hx⟩
    refine ⟨hsched, ?_, fun e' he' => hsleeping e' (mem_cons_of_mem e he'), fun x hx => ?_,
      fun x hx => ?_, fun c' x hpicked hx => ?_, fun c' x hc' hx => ?_⟩
    · unfold SchedState.IdleKnown
      rw [hcurrent, hidle, hphase]
      exact h.idle
    · obtain ⟨hne, hb⟩ := hstatus x hx
      exact hleft x hne (h.waiting x hb)
    · have hne : x ≠ e.token := by
        rintro rfl
        exact hnotblocking hx
      exact hleft x hne (h.enqueued x hx)
    · exact h.picked c' x (hphase ▸ hpicked) (hstatus x hx).2
    · rw [hcurrent] at hc'
      rw [hphase]
      exact h.current c' x hc' (hstatus x hx).2

/-- A step of the scheduler; a reader that calls `schedule()` is at the top of
its loop afterwards. -/
theorem schedStep_cases (hs : s.schedStep a = some s') :
    (∀ x, ¬ s.sched.StatusChange x a .blocked) ∧ ∃ r, s.sched.step a = some r ∧
      (s' = { s with sched := r } ∨ ∃ c t, a = .flush c ∧ s.readerAt c .calling = some t ∧
        s' = { s with sched := r }.setRead t .trying) := by
  unfold schedStep at hs
  split at hs
  case h_5 c =>
      refine ⟨fun x hx => (by cases hx), ?_⟩
      cases hreader : s.reader c with
      | none =>
        rw [hreader] at hs
        obtain ⟨r, hr, rfl⟩ := Option.map_eq_some_iff.1 hs
        exact ⟨r, hr, .inl rfl⟩
      | some t =>
        simp only [hreader] at hs
        split at hs
        · obtain ⟨r, hr, rfl⟩ := Option.map_eq_some_iff.1 hs
          exact ⟨r, hr, .inl rfl⟩
        · rename_i hcalling
          obtain ⟨r, hr, rfl⟩ := Option.map_eq_some_iff.1 hs
          refine ⟨r, hr, .inr ⟨c, t, rfl, ?_, rfl⟩⟩
          exact Option.filter_eq_some_iff.2 ⟨hreader, by simpa using hcalling⟩
        · cases hs
  case h_6 hblock _ _ hstop _ =>
      obtain ⟨r, hr, rfl⟩ := Option.map_eq_some_iff.1 hs
      refine ⟨fun x hx => ?_, r, hr, .inl rfl⟩
      cases hx with
      | block c => exact hblock c rfl
      | sigStop => exact hstop x rfl
  all_goals cases hs

theorem deciding_flushRest (ready : List TaskId) : Deciding (flushRest ready) := by
  unfold flushRest
  split <;> trivial

/-- A CPU that has a `Blocked` current task goes on deciding, or has just
entered `schedule()`: there is an idle context, so it does not return to the
task. -/
theorem Inv.deciding (h : s.Inv) {r : SchedState n} {x : TaskId} (hr : s.sched.step a = some r)
    (hc : s.sched.current c = some x) (hb : s.sched.status x = .blocked)
    (hrepl : a ≠ .replaceCurrent c) (hidle : a = .goIdle c → r.phase c = .user) :
    Deciding (r.phase c) ∨ r.phase c = .user ∧ s.reads x = .calling := by
  have hold := h.current c x hc hb
  rcases step_phase hr c with hsame | hchange
  · rw [hsame]
    exact hold
  generalize hq : r.phase c = q at hchange hidle ⊢
  generalize hp : s.sched.phase c = p at hchange hold
  cases hchange with
  | flush q hq
  | flushSkip t ready q _ hq
  | flushCommit t ready q hq => exact .inl (hq ▸ deciding_flushRest _)
  | flushMark t ready
  | picked tried t slot _ _ => exact .inl trivial
  | nextSlot tried q hq => rcases hq with rfl | rfl <;> exact .inl trivial
  | replace prev next _
  | first next _ => exact absurd rfl hrepl
  | goIdle prev _ _ => cases hidle rfl
  | stay hstay =>
    rcases hstay with hunsaved | hnone
    · rcases h.idle c x hc with hsaved | ⟨next, d, hfirst⟩
      · rw [hunsaved] at hsaved
        cases hsaved
      · rw [hp] at hfirst
        cases hfirst
    · rw [hc] at hnone
      cases hnone
  | keepStatus prev next _
  | markPrev prev next _ _
  | deferPrev prev next
  | doSwitch prev next d => rcases hold with hd | ⟨hu, -⟩; exacts [hd.elim, nomatch hu]

theorem schedStep_inv (h : s.Inv) (hok : s.sched.WakeOk a) (hs : s.schedStep a = some s') :
    s'.Inv := by
  obtain ⟨hnever, r, hr, hs'⟩ := schedStep_cases hs
  have hstatus : ∀ x, r.status x = .blocked → s.sched.status x = .blocked := fun x hx => by
    rcases step_status hr x with hsame | hchange
    · exact hsame.symm.trans hx
    · rw [hx] at hchange
      exact absurd hchange (hnever x)
  have hpicked : ∀ c' x, r.phase c' = .picked x → r.status x ≠ .blocked := by
    intro c' x hphase hx
    rcases step_phase hr c' with hsame | hchange
    · exact h.picked c' x (hsame.symm.trans hphase) (hstatus x hx)
    rw [hphase] at hchange
    generalize s.sched.phase c' = p at hchange
    cases hchange with
    | picked tried x slot hready _ =>
      have := hstatus x hx
      rw [hready] at this
      cases this
    | flush p hp
    | flushSkip t ready p _ hp
    | flushCommit t ready p hp => exact SchedState.flushRest_ne_picked _ x hp.symm
    | nextSlot tried p hp => rcases hp with hp | hp <;> cases hp
  have hcurrent : ∀ c' x, r.current c' = some x → r.status x = .blocked →
      Deciding (r.phase c') ∨ r.phase c' = .user ∧ s.reads x = .calling := by
    intro c' x hc' hx
    have hb := hstatus x hx
    rcases step_current hr c' with ⟨hsame, hrepl, hidle⟩ | hchange
    · exact h.deciding hr (hsame.symm.trans hc') hb hrepl hidle
    rw [hc'] at hchange
    cases hchange with
    | replace prev next hphase _ _
    | first next hphase _ _ => exact absurd hb (h.picked c' x hphase)
  have hinv : ({ s with sched := r } : StdinState n).Inv :=
    ⟨h.sched.step hok hr, h.idle.step hr, h.sleeping, fun x hx => h.waiting x (hstatus x hx),
      h.enqueued, hpicked, hcurrent⟩
  rcases hs' with rfl | ⟨c, t, rfl, ht, rfl⟩
  · exact hinv
  obtain ⟨hphase, hct, hread⟩ := readerAt_eq_some ht
  have hreads : ∀ x, x ≠ t → update s.reads t .trying x = s.reads x := fun x hx =>
    update_of_ne hx ..
  refine ⟨hinv.sched, hinv.idle, hinv.sleeping, hinv.waiting, fun x hx => ?_, hinv.picked,
    fun c' x hc' hx => ?_⟩
  · by_cases hxt : x = t
    · subst hxt
      have := (update_self ..).symm.trans hx
      cases this
    · exact h.enqueued x ((hreads x hxt).symm.trans hx)
  · by_cases hxt : x = t
    · subst hxt
      -- the only CPU of the reader is in `schedule()` now
      have hcc : c' = c := (h.alone hct).1 c'
        ((congrFun ((step_frame hr).current id) c').symm.trans hc')
      subst hcc
      simp only [SchedState.step, flush, hphase] at hr
      cases hr
      refine .inl ?_
      simp only [setRead, setPhase, update_self]
      exact deciding_flushRest _
    · exact (hinv.current c' x hc' hx).imp_right
        (And.imp_right (hreads x hxt).trans)

theorem inv_boot (pid : TaskId → ProcessId) : (boot n pid).Inv where
  sched := SchedState.inv_boot pid
  idle := .boot pid
  sleeping := nofun
  waiting := nofun
  enqueued := nofun
  picked := nofun
  current := nofun

theorem Inv.step (h : s.Inv) {a : StdinStep n} (hok : s.WakeUpOk a) (hs : s.step a = some s') :
    s'.Inv := by
  cases a with
  | sched a => exact schedStep_inv h hok hs
  | arrive byte =>
    cases hs
    exact ⟨h.sched, h.idle, h.sleeping, h.waiting, h.enqueued, h.picked, h.current⟩
  | startRead c => exact startRead_inv h hs
  | tryRead c => exact tryRead_inv h hs
  | enqueue c => exact enqueue_inv h hs
  | block c => exact block_inv h hs
  | wake cpu =>
    cases hs
    exact wake_inv h cpu hok

/-! ### Runs -/

/-- In every run whose wake-ups do not come between a reader's token and its
status, and find the tasks they wake switched away from: whoever is `Blocked`
has its token in the queue, and pending input makes it `Ready` as soon as the
wake-ups have come to its place in the queue. -/
theorem stdin_wakeup_not_lost (n : ℕ) (pid : TaskId → ProcessId) {as : List (StdinStep n)}
    {s : StdinState n} (hrun : Run (Guarded WakeUpOk (ofPartial step)) (boot n pid) as s)
    {t : TaskId} (ht : s.sched.status t = .blocked) :
    t ∈ s.waiters.tokens ∧ ∀ cpu, s.input ≠ [] →
      (s.wakes cpu (s.waiters.tokens.idxOf t + 1)).sched.status t = .ready := by
  have hinv : s.Inv := by
    refine hrun.invariant Inv ?_ (inv_boot pid)
    rintro s a s' hs ⟨hok, hstep⟩
    exact hs.step hok hstep
  have hwaiting := hinv.waiting t ht
  exact ⟨hwaiting, fun cpu hinput => wakes_ready hinv.sleeping hinput ht hwaiting cpu⟩

/-- Task 7 starts on CPU 0. -/
def startTask : List (StdinStep 2) :=
  [.sched (.addTask 7 0), .sched (.callCommit ⟨7, 0, true⟩), .sched (.flush 0), .sched (.pick 0),
    .sched (.replaceCurrent 0), .sched (.doSwitch 0)]

/-- It reads, finds nothing, goes to sleep and is switched away from; then a
byte arrives. -/
def sleepingReader : List (StdinStep 2) :=
  startTask ++ [.startRead 0, .tryRead 0, .enqueue 0, .block 0, .sched (.flush 0),
    .sched (.pick 0), .sched (.pick 0), .sched (.goIdle 0), .sched (.markPrev 0),
    .sched (.doSwitch 0), .arrive 65]

theorem stdin_wakeup_sleepingReader :
    ∃ s, Run (Guarded WakeUpOk (ofPartial step)) (boot 2 id) sleepingReader s ∧
      s.sched.status 7 = .blocked ∧ 7 ∈ s.waiters.tokens ∧
      (s.wakes 1 (s.waiters.tokens.idxOf 7 + 1)).sched.status 7 = .ready := by
  refine Run.exists_of_exec (Q := fun s => s.sched.status 7 = .blocked ∧ s.input ≠ []) (by decide)
    fun s hrun ⟨hstatus, hinput⟩ => ?_
  obtain ⟨hmem, hwake⟩ := stdin_wakeup_not_lost 2 id hrun hstatus
  exact ⟨hstatus, hmem, hwake 1 hinput⟩

/-- Task 7 has entered its token when a byte arrives. The wake-up takes the
token, finds the task `Running` and does nothing. Then the task sets its status
and waits without a token, and a further wake-up does not reach it. -/
theorem stdin_wakeup_lost :
    ∃ s, Run (ofPartial step) (boot 2 id)
        (startTask ++ [.startRead 0, .tryRead 0, .enqueue 0, .arrive 65, .wake 1, .block 0]) s ∧
      s.sched.status 7 = .blocked ∧ 7 ∉ s.waiters.tokens ∧ s.input ≠ [] ∧
      (s.wakeStdinWaitersIfReady 1).sched.status 7 = .blocked :=
  Run.exists_of_exec_free (fun _ _ => True) (by decide) fun _ _ h => h

end StdinState

end JanuaryOs.Sched

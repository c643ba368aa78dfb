import JanuaryOs.Sched.Ownership

/-!
# What one step of the scheduler can do to a task and to a CPU

The status of a task, the stage of a CPU, its current task and its idle context.
`StatusChange` lists who writes a status and under which condition,
`PhaseChange` is the control flow of `schedule()`; invariants of runs are proved
by cases over these two.
-/

namespace JanuaryOs.Sched

open Function List

open Proc (TaskStatus)

namespace SchedState

variable {n : ℕ}

variable {s s' : SchedState n} {a : SchedStep n} {t x : TaskId}

/-! ### Statuses -/

/-- The step `a` writes the status of `t`. -/
inductive StatusChange (s : SchedState n) (t : TaskId) : SchedStep n → TaskStatus → Prop
  | flushMark (c : Fin n) (ready : List TaskId) : s.phase c = .flushing (t :: ready) false →
      s.Schedulable t → StatusChange s t (.flushMark c) .ready
  | flushCommit (c : Fin n) (ready : List TaskId) : s.phase c = .flushing (t :: ready) true →
      s.Schedulable t → StatusChange s t (.flushCommit c) .ready
  | callMark (call : EnqueueCall n) : call ∈ s.calls → call.task = t → s.Schedulable t →
      StatusChange s t (.callMark call) .ready
  | callCommit (call : EnqueueCall n) : call ∈ s.calls → call.task = t → s.Schedulable t →
      StatusChange s t (.callCommit call) .ready
  | addTask (cpu : Fin n) : s.Schedulable t → StatusChange s t (.addTask t cpu) .ready
  | pick (c slot : Fin n) : t ∈ s.runqueues slot → s.status t = .ready →
      StatusChange s t (.pick c) .running
  | markPrev (c : Fin n) (next : Option TaskId) : s.phase c = .leaving t next →
      s.status t ≠ .exited → s.status t ≠ .blocked → StatusChange s t (.markPrev c) .switching
  | block (c : Fin n) : s.phase c = .user → s.current c = some t → s.status t ≠ .exited →
      StatusChange s t (.block c) .blocked
  | exit : StatusChange s t (.exit t) .exited
  | wakeStdin (cpu : Fin n) : s.status t = .blocked → StatusChange s t (.wakeStdin t cpu) .ready
  | sigCont (cpu : Fin n) : s.status t = .blocked → StatusChange s t (.sigCont t cpu) .ready
  | sigStop : s.status t ≠ .exited → StatusChange s t (.sigStop t) .blocked

/-- The status after a step: as before, or written by the step. -/
def StatusAfter (s : SchedState n) (a : SchedStep n) (t : TaskId) (st : TaskStatus) : Prop :=
  st = s.status t ∨ s.StatusChange t a st

theorem statusAfter_update {st : TaskStatus} (h : s.StatusChange x a st) (t : TaskId) :
    s.StatusAfter a t (update s.status x st t) := by
  by_cases htx : t = x
  · subst htx
    rw [update_self]
    exact .inr h
  · rw [update_of_ne htx]
    exact .inl rfl

theorem enqueueOnCpu_status (s : SchedState n) (x : TaskId) (c : Fin n) :
    (s.enqueueOnCpu x c).status = s.status ∨
      s.Schedulable x ∧ (s.enqueueOnCpu x c).status = update s.status x .ready := by
  unfold enqueueOnCpu
  split
  · exact .inl rfl
  cases hmark : s.markReady x with
  | none => exact .inl rfl
  | some r =>
    unfold markReady at hmark
    split at hmark <;> cases hmark
    rename_i hsched
    exact .inr ⟨hsched, rfl⟩

/-- Every write of a status is one of `StatusChange`. -/
theorem step_status (hs : s.step a = some s') (t : TaskId) : s.StatusAfter a t (s'.status t) := by
  cases step_to hs with
  | flushMark c x ready hphase hsched =>
    exact statusAfter_update (.flushMark c ready hphase hsched) t
  | flushCommit c x ready hphase =>
    show s.StatusAfter _ t ((s.enqueueOnCpu x c).status t)
    rcases s.enqueueOnCpu_status x c with hsame | ⟨hsched, hstatus⟩
    · rw [hsame]
      exact .inl rfl
    · rw [hstatus]
      exact statusAfter_update (.flushCommit c ready hphase hsched) t
  | picked c slot tried x rest _ hready hsub =>
    exact statusAfter_update (.pick c slot (hsub.subset mem_cons_self) hready) t
  | markPrev c x next hphase hexited hblocked =>
    exact statusAfter_update (.markPrev c next hphase hexited hblocked) t
  | block c x hphase hcurrent hexited =>
    exact statusAfter_update (.block c hphase hcurrent hexited) t
  | exit x => exact statusAfter_update .exit t
  | wakeStdin x cpu hblocked => exact statusAfter_update (.wakeStdin cpu hblocked) t
  | sigCont x cpu hblocked => exact statusAfter_update (.sigCont cpu hblocked) t
  | sigStop x hexited => exact statusAfter_update (.sigStop hexited) t
  | addTask x cpu hsched => exact statusAfter_update (.addTask cpu hsched) t
  | callMark call hcall hsched => exact statusAfter_update (.callMark call hcall rfl hsched) t
  | callCommit call hcall =>
    rcases enqueueOnCpu_status { s with calls := s.calls.erase call } call.task call.cpu with
      hsame | ⟨hsched, hstatus⟩
    · rw [hsame]
      exact .inl rfl
    · rw [hstatus]
      exact statusAfter_update (.callCommit call hcall rfl hsched) t
  | _ => exact .inl rfl

/-- Nobody writes the status of a task that has exited. -/
theorem exited_step (h : s.status t = .exited) (hs : s.step a = some s') :
    s'.status t = .exited := by
  rcases step_status hs t with hsame | hchange
  · exact hsame.trans h
  generalize s'.status t = st at hchange
  cases hchange with
  | flushMark c ready _ hsched
  | flushCommit c ready _ hsched
  | callMark call _ _ hsched
  | callCommit call _ _ hsched
  | addTask cpu hsched => exact absurd h hsched.1
  | pick c slot _ hready => rw [hready] at h; cases h
  | markPrev c next _ hexited _
  | block c _ _ hexited
  | sigStop hexited => exact absurd h hexited
  | exit => rfl
  | wakeStdin cpu hblocked
  | sigCont cpu hblocked => rw [hblocked] at h; cases h

/-! ### Stages of `schedule()` -/

/-- The way of CPU `c` through `schedule()`. -/
inductive PhaseChange (s : SchedState n) (c : Fin n) : SchedStep n → Phase → Phase → Prop
  | flush (p : Phase) : p = flushRest ((s.deferred.filter fun x => x.1 = c).map Prod.snd) →
      PhaseChange s c (.flush c) .user p
  | flushSkip (t : TaskId) (ready : List TaskId) (p : Phase) : ¬ s.Schedulable t →
      p = flushRest ready → PhaseChange s c (.flushMark c) (.flushing (t :: ready) false) p
  | flushMark (t : TaskId) (ready : List TaskId) :
      PhaseChange s c (.flushMark c) (.flushing (t :: ready) false) (.flushing (t :: ready) true)
  | flushCommit (t : TaskId) (ready : List TaskId) (p : Phase) : p = flushRest ready →
      PhaseChange s c (.flushCommit c) (.flushing (t :: ready) true) p
  | picked (tried : ℕ) (t : TaskId) (slot : Fin n) : s.status t = .ready → t ∈ s.runqueues slot →
      PhaseChange s c (.pick c) (.picking tried) (.picked t)
  | nextSlot (tried : ℕ) (p : Phase) : p = .picking (tried + 1) ∨ p = .noTask →
      PhaseChange s c (.pick c) (.picking tried) p
  | replace (prev next : TaskId) : s.current c = some prev →
      PhaseChange s c (.replaceCurrent c) (.picked next) (.leaving prev (some next))
  | first (next : TaskId) : s.current c = none →
      PhaseChange s c (.replaceCurrent c) (.picked next) (.switching none (some next) false)
  | goIdle (prev : TaskId) : s.idleSaved c = true → s.current c = some prev →
      PhaseChange s c (.goIdle c) .noTask (.leaving prev none)
  | stay : s.idleSaved c = false ∨ s.current c = none → PhaseChange s c (.goIdle c) .noTask .user
  | keepStatus (prev : TaskId) (next : Option TaskId) :
      s.status prev = .exited ∨ s.status prev = .blocked →
      PhaseChange s c (.markPrev c) (.leaving prev next) (.switching (some prev) next false)
  | markPrev (prev : TaskId) (next : Option TaskId) : s.status prev ≠ .exited →
      s.status prev ≠ .blocked →
      PhaseChange s c (.markPrev c) (.leaving prev next) (.deferring prev next)
  | deferPrev (prev : TaskId) (next : Option TaskId) :
      PhaseChange s c (.deferPrev c) (.deferring prev next) (.switching (some prev) next true)
  | doSwitch (prev next : Option TaskId) (deferred : Bool) :
      PhaseChange s c (.doSwitch c) (.switching prev next deferred) .user

/-- The phase after a step: as before, or the next stage. -/
def PhaseAfter (s : SchedState n) (a : SchedStep n) (c : Fin n) (p : Phase) : Prop :=
  p = s.phase c ∨ s.PhaseChange c a (s.phase c) p

theorem phaseAfter_update {c : Fin n} {p q : Phase} (hphase : s.phase c = p)
    (h : s.PhaseChange c a p q) (c' : Fin n) : s.PhaseAfter a c' (update s.phase c q c') := by
  by_cases hc : c' = c
  · subst hc hphase
    rw [update_self]
    exact .inr h
  · rw [update_of_ne hc]
    exact .inl rfl

/-- Every CPU goes through `schedule()` as `PhaseChange` says. -/
theorem step_phase (hs : s.step a = some s') (c' : Fin n) : s.PhaseAfter a c' (s'.phase c') := by
  cases step_to hs with
  | flush c mine hphase hmine => exact phaseAfter_update hphase (.flush _ (by rw [hmine])) c'
  | flushSkip c x ready hphase hsched =>
    exact phaseAfter_update hphase (.flushSkip x ready _ hsched rfl) c'
  | flushMark c x ready hphase _ => exact phaseAfter_update hphase (.flushMark x ready) c'
  | flushCommit c x ready hphase =>
    simp only [setPhase, enqueueOnCpu_phase]
    exact phaseAfter_update hphase (.flushCommit x ready _ rfl) c'
  | picked c slot tried x rest hphase hready hsub =>
    have hmem := hsub.subset mem_cons_self
    exact phaseAfter_update hphase (.picked tried x slot hready hmem) c'
  | nextSlot c slot tried rest p hphase _ hp =>
    exact phaseAfter_update hphase (.nextSlot tried p hp) c'
  | replace c prev next hphase hcurrent =>
    exact phaseAfter_update hphase (.replace prev next hcurrent) c'
  | first c next hphase hcurrent => exact phaseAfter_update hphase (.first next hcurrent) c'
  | goIdle c prev hphase hidle hcurrent =>
    exact phaseAfter_update hphase (.goIdle prev hidle hcurrent) c'
  | stay c hphase hor => exact phaseAfter_update hphase (.stay hor) c'
  | keepStatus c x next hphase hor => exact phaseAfter_update hphase (.keepStatus x next hor) c'
  | markPrev c x next hphase hexited hblocked =>
    exact phaseAfter_update hphase (.markPrev x next hexited hblocked) c'
  | deferPrev c prev next hphase => exact phaseAfter_update hphase (.deferPrev prev next) c'
  | firstSwitch c next deferred hphase =>
    exact phaseAfter_update hphase (.doSwitch none next deferred) c'
  | doSwitch c prev next deferred hphase =>
    exact phaseAfter_update hphase (.doSwitch (some prev) next deferred) c'
  | callCommit call => exact .inl (congrFun (enqueueOnCpu_phase ..) c')
  | _ => exact .inl rfl

/-! ### Current tasks and idle contexts -/

/-- A CPU gets the task it has picked, or gives its current task up. -/
inductive CurrentChange (s s' : SchedState n) (c : Fin n) : SchedStep n → Option TaskId → Prop
  | replace (prev next : TaskId) : s.phase c = .picked next → s.current c = some prev →
      s'.phase c = .leaving prev (some next) →
      CurrentChange s s' c (.replaceCurrent c) (some next)
  | first (next : TaskId) : s.phase c = .picked next → s.current c = none →
      s'.phase c = .switching none (some next) false →
      CurrentChange s s' c (.replaceCurrent c) (some next)
  | goIdle (prev : TaskId) : s.current c = some prev → s'.phase c = .leaving prev none →
      CurrentChange s s' c (.goIdle c) none

/-- The current task after a step. -/
def CurrentAfter (s s' : SchedState n) (a : SchedStep n) (c : Fin n) : Prop :=
  (s'.current c = s.current c ∧ a ≠ .replaceCurrent c ∧ (a = .goIdle c → s'.phase c = .user)) ∨
    CurrentChange s s' c a (s'.current c)

/-- The steps that end the stay of a task on a CPU or begin one. -/
def Switches : SchedStep n → Prop
  | .replaceCurrent _ | .goIdle _ | .doSwitch _ => True
  | _ => False

/-- The steps that write the list of deferred tasks. -/
def Defers : SchedStep n → Prop
  | .flush _ | .deferPrev _ => True
  | _ => False

/-- The steps that begin or end an `add_task`, or a part of it. -/
def Calls : SchedStep n → Prop
  | .wakeStdin .. | .sigCont .. | .addTask .. | .callMark _ | .callCommit _ => True
  | _ => False

/-- The fields that differ at most in phases, statuses and queues. -/
structure SameFrame (s s' : SchedState n) : Prop where
  current : s'.current = s.current
  idleSaved : s'.idleSaved = s.idleSaved
  deferred : s'.deferred = s.deferred
  calls : s'.calls = s.calls
  pid : s'.pid = s.pid

/-- Which steps leave which fields alone. -/
structure StepFrame (s s' : SchedState n) (a : SchedStep n) : Prop where
  current : ¬ Switches a → s'.current = s.current
  idleSaved : ¬ Switches a → s'.idleSaved = s.idleSaved
  deferred : ¬ Defers a → s'.deferred = s.deferred
  calls : ¬ Calls a → s'.calls = s.calls
  pid : s'.pid = s.pid

theorem SameFrame.stepFrame (h : SameFrame s s') : StepFrame s s' a :=
  ⟨fun _ => h.current, fun _ => h.idleSaved, fun _ => h.deferred, fun _ => h.calls, h.pid⟩

theorem enqueueOnCpu_frame (s : SchedState n) (x : TaskId) (c : Fin n) :
    SameFrame s (s.enqueueOnCpu x c) := by
  unfold enqueueOnCpu
  split
  · exact ⟨rfl, rfl, rfl, rfl, rfl⟩
  cases hmark : s.markReady x with
  | none => exact ⟨rfl, rfl, rfl, rfl, rfl⟩
  | some r =>
    obtain rfl := markReady_eq hmark
    exact ⟨rfl, rfl, rfl, rfl, rfl⟩

theorem step_frame (hs : s.step a = some s') : StepFrame s s' a := by
  cases step_to hs with
  | flush | deferPrev =>
    exact ⟨fun _ => rfl, fun _ => rfl, fun h => absurd trivial h, fun _ => rfl, rfl⟩
  | flushCommit c x ready =>
    have h := s.enqueueOnCpu_frame x c
    exact SameFrame.stepFrame ⟨h.current, h.idleSaved, h.deferred, h.calls, h.pid⟩
  | replace | first | goIdle | firstSwitch =>
    exact ⟨fun h => absurd trivial h, fun h => absurd trivial h, fun _ => rfl, fun _ => rfl, rfl⟩
  | wakeStdin | sigCont | addTask | callMark | callDrop =>
    exact ⟨fun _ => rfl, fun _ => rfl, fun _ => rfl, fun h => absurd trivial h, rfl⟩
  | callCommit call =>
    have h := enqueueOnCpu_frame { s with calls := s.calls.erase call } call.task call.cpu
    exact ⟨fun _ => h.current, fun _ => h.idleSaved, fun _ => h.deferred,
      fun h => absurd trivial h, h.pid⟩
  | _ => exact SameFrame.stepFrame ⟨rfl, rfl, rfl, rfl, rfl⟩

/-- Only `replaceCurrent` and `goIdle` write the current task of a CPU. -/
theorem step_current (hs : s.step a = some s') (c' : Fin n) : CurrentAfter s s' a c' := by
  unfold CurrentAfter
  by_cases ha : Switches a
  · cases step_to hs with
    | replace c prev next hphase hcurrent =>
      by_cases hc : c' = c
      · subst hc
        simp only [setPhase, setCurrent, update_self]
        exact .inr (.replace prev next hphase hcurrent (update_self ..))
      · exact .inl ⟨update_of_ne hc .., fun h => by cases h; exact hc rfl, by simp⟩
    | first c next hphase hcurrent =>
      by_cases hc : c' = c
      · subst hc
        simp only [setPhase, setCurrent, update_self]
        exact .inr (.first next hphase hcurrent (update_self ..))
      · exact .inl ⟨update_of_ne hc .., fun h => by cases h; exact hc rfl, by simp⟩
    | goIdle c prev _ _ hcurrent =>
      by_cases hc : c' = c
      · subst hc
        simp only [setPhase, setCurrent, update_self]
        exact .inr (.goIdle prev hcurrent (update_self ..))
      · exact .inl ⟨update_of_ne hc .., by simp, fun h => by cases h; exact absurd rfl hc⟩
    | stay c =>
      refine .inl ⟨rfl, by simp, fun h => ?_⟩
      cases h
      exact update_self ..
    | firstSwitch | doSwitch => exact .inl ⟨rfl, by simp, by simp⟩
    | _ => exact ha.elim
  · refine .inl ⟨congrFun ((step_frame hs).current ha) c', ?_, ?_⟩
    · rintro rfl
      exact ha trivial
    · rintro rfl
      exact absurd trivial ha

/-! ### Tasks on a CPU -/

/-- The current task of a CPU, and the one that is about to become it. -/
def onCpu (s : SchedState n) (c : Fin n) : List TaskId :=
  (s.current c).toList ++
    match s.phase c with
    | .picked t => [t]
    | _ => []

theorem mem_onCpu {c : Fin n} : t ∈ s.onCpu c ↔ s.current c = some t ∨ s.phase c = .picked t := by
  unfold onCpu
  rw [List.mem_append, Option.mem_toList]
  refine or_congr_right ?_
  split
  · rename_i x hphase
    rw [hphase, List.mem_singleton, Phase.picked.injEq, eq_comm]
  · rename_i hphase
    exact ⟨nofun, fun h => absurd h (hphase t)⟩

/-- A task comes to a CPU only if it is picked, and only a `Ready` task is. -/
theorem onCpu_step {c : Fin n} (hs : s.step a = some s') (ht : t ∈ s'.onCpu c) :
    t ∈ s.onCpu c ∨ a = .pick c ∧ s'.phase c = .picked t ∧ s.status t = .ready := by
  rw [mem_onCpu] at ht ⊢
  rcases ht with hcurrent | hpicked
  · rcases step_current hs c with ⟨hsame, -⟩ | hchange
    · exact .inl (.inl (hsame.symm.trans hcurrent))
    rw [hcurrent] at hchange
    cases hchange with
    | replace prev _ hphase _ _
    | first _ hphase _ _ => exact .inl (.inr hphase)
  · rcases step_phase hs c with hsame | hchange
    · exact .inl (.inr (hsame.symm.trans hpicked))
    rw [hpicked] at hchange
    generalize s.phase c = p at hchange
    cases hchange with
    | picked tried _ slot hready _ => exact .inr ⟨rfl, hpicked, hready⟩
    | nextSlot tried _ h => rcases h with h | h <;> cases h
    | flush _ h
    | flushSkip x ready _ _ h
    | flushCommit x ready _ h => exact absurd h.symm (flushRest_ne_picked _ t)

/-- A CPU that runs a task has an idle context to go back to, except during its
first switch. -/
def IdleKnown (s : SchedState n) : Prop :=
  ∀ c t, s.current c = some t → s.idleSaved c = true ∨ ∃ next d, s.phase c = .switching none next d

theorem IdleKnown.boot (pid : TaskId → ProcessId) : (boot n pid).IdleKnown :=
  fun _ _ h => nomatch h

/-- The idle context is saved by the first switch and then kept. -/
theorem step_idleSaved (hs : s.step a = some s') (c' : Fin n) :
    (s.idleSaved c' = true → s'.idleSaved c' = true) ∧
      ∀ next d, s.phase c' = .switching none next d → a = .doSwitch c' →
        s'.idleSaved c' = true := by
  by_cases ha : Switches a
  · cases step_to hs with
    | firstSwitch c =>
      by_cases hc : c' = c
      · subst hc
        exact ⟨fun _ => update_self .., fun _ _ _ _ => update_self ..⟩
      · refine ⟨fun h => (update_of_ne hc ..).trans h, fun _ _ _ heq => ?_⟩
        cases heq
        exact absurd rfl hc
    | doSwitch c prev next deferred hphase =>
      refine ⟨id, fun next d hnone heq => ?_⟩
      cases heq
      rw [hphase] at hnone
      cases hnone
    | replace | first | goIdle | stay => exact ⟨id, fun _ _ _ h => nomatch h⟩
    | _ => exact ha.elim
  · refine ⟨fun h => by rw [(step_frame hs).idleSaved ha]; exact h, fun _ _ _ heq => ?_⟩
    subst heq
    exact absurd trivial ha

theorem IdleKnown.step (h : s.IdleKnown) (hs : s.step a = some s') : s'.IdleKnown := by
  intro c t hc
  have hkeep := (step_idleSaved hs c).1
  rcases step_current hs c with ⟨hsame, -, -⟩ | hchange
  · rw [hsame] at hc
    rcases h c t hc with hidle | ⟨next, d, hphase⟩
    · exact .inl (hkeep hidle)
    rcases step_phase hs c with hp | hp
    · exact .inr ⟨next, d, hp.trans hphase⟩
    rw [hphase] at hp
    generalize hq : s'.phase c = q at hp
    cases hp
    exact .inl ((step_idleSaved hs c).2 next d hphase rfl)
  · rw [hc] at hchange
    cases hchange with
    | first next hphase hcurrent hnew => exact .inr ⟨_, _, hnew⟩
    | replace prev next hphase hcurrent hnew =>
      rcases h c prev hcurrent with hidle | ⟨next, d, hfirst⟩
      · exact .inl (hkeep hidle)
      · rw [hphase] at hfirst
        cases hfirst

/-! ### Tasks on their way back into a queue -/

/-- The CPU will put the task back into a queue, whatever its status. -/
def Requeues : Phase → TaskId → Prop
  | .flushing ready _, t => t ∈ ready
  | .deferring prev _, t => prev = t
  | _, _ => False

/-- The task is deferred, about to be, or in an `add_task` that is under way. -/
def Pending (s : SchedState n) (t : TaskId) : Prop :=
  (∃ x ∈ s.deferred, x.2 = t) ∨ (∃ c, Requeues (s.phase c) t) ∨ ∃ call ∈ s.calls, call.task = t

/-- The step begins to bring the task back into a queue. -/
inductive Recalls (s : SchedState n) (t : TaskId) : SchedStep n → Prop
  | markPrev (c : Fin n) (next : Option TaskId) : s.phase c = .leaving t next →
      s.status t ≠ .exited → s.status t ≠ .blocked → Recalls s t (.markPrev c)
  | wakeStdin (cpu : Fin n) : s.status t = .blocked → Recalls s t (.wakeStdin t cpu)
  | sigCont (cpu : Fin n) : s.status t = .blocked → Recalls s t (.sigCont t cpu)
  | addTask (cpu : Fin n) : s.Schedulable t → Recalls s t (.addTask t cpu)

theorem requeues_flushRest {ready : List TaskId} : Requeues (flushRest ready) t ↔ t ∈ ready := by
  unfold flushRest
  split
  · rename_i hnil
    rw [hnil]
    exact ⟨False.elim, nofun⟩
  · exact Iff.rfl

/-- Deferred tasks come from a CPU that has marked them. -/
theorem step_deferred (hs : s.step a = some s') {x : Fin n × TaskId} (hx : x ∈ s'.deferred) :
    x ∈ s.deferred ∨ Requeues (s.phase x.1) x.2 := by
  by_cases ha : Defers a
  · cases step_to hs with
    | flush c => exact .inl (mem_filter.1 hx).1
    | deferPrev c prev next hphase =>
      rcases mem_append.1 hx with hx | hx
      · exact .inl hx
      · rw [mem_singleton.1 hx, hphase]
        exact .inr rfl
    | _ => exact ha.elim
  · rw [(step_frame hs).deferred ha] at hx
    exact .inl hx

/-- Calls of `add_task` are old, or begin with the step. -/
theorem step_calls (hs : s.step a = some s') {call : EnqueueCall n} (hcall : call ∈ s'.calls) :
    (∃ old ∈ s.calls, old.task = call.task) ∨ s.Recalls call.task a := by
  have hcons : ∀ {new : EnqueueCall n}, call ∈ new :: s.calls → s.Recalls new.task a →
      (∃ old ∈ s.calls, old.task = call.task) ∨ s.Recalls call.task a := by
    intro new hcall hnew
    rcases mem_cons.1 hcall with rfl | hcall
    · exact .inr hnew
    · exact .inl ⟨call, hcall, rfl⟩
  by_cases ha : Calls a
  · cases step_to hs with
    | wakeStdin x cpu hblocked => exact hcons hcall (.wakeStdin cpu hblocked)
    | sigCont x cpu hblocked => exact hcons hcall (.sigCont cpu hblocked)
    | addTask x cpu hsched => exact hcons hcall (.addTask cpu hsched)
    | noWake | noCont | noAdd => exact .inl ⟨call, hcall, rfl⟩
    | callMark old hold _ =>
      rcases mem_cons.1 hcall with rfl | hcall
      · exact .inl ⟨old, hold, rfl⟩
      · exact .inl ⟨call, mem_of_mem_erase hcall, rfl⟩
    | callDrop old => exact .inl ⟨call, mem_of_mem_erase hcall, rfl⟩
    | callCommit old =>
      rw [(enqueueOnCpu_frame ..).calls] at hcall
      exact .inl ⟨call, mem_of_mem_erase hcall, rfl⟩
    | _ => exact ha.elim
  · rw [(step_frame hs).calls ha] at hcall
    exact .inl ⟨call, hcall, rfl⟩

/-- A task that is on its way back was so before, or the step begins it. -/
theorem step_pending (hs : s.step a = some s') (h : s'.Pending t) :
    s.Pending t ∨ s.Recalls t a := by
  rcases h with ⟨x, hx, rfl⟩ | ⟨c, hc⟩ | ⟨call, hcall, rfl⟩
  · rcases step_deferred hs hx with hx | hreq
    · exact .inl (.inl ⟨x, hx, rfl⟩)
    · exact .inl (.inr (.inl ⟨x.1, hreq⟩))
  · rcases step_phase hs c with hsame | hchange
    · rw [hsame] at hc
      exact .inl (.inr (.inl ⟨c, hc⟩))
    generalize s'.phase c = q at hc hchange
    generalize hp : s.phase c = p at hchange
    have hstill : Requeues p t → s.Pending t ∨ s.Recalls t a := fun hreq =>
      .inl (.inr (.inl ⟨c, hp ▸ hreq⟩))
    cases hchange with
    | flush q hq =>
      rw [hq, requeues_flushRest] at hc
      obtain ⟨x, hx, rfl⟩ := mem_map.1 hc
      exact .inl (.inl ⟨x, (mem_filter.1 hx).1, rfl⟩)
    | flushSkip x ready q _ hq
    | flushCommit x ready q hq =>
      rw [hq, requeues_flushRest] at hc
      exact hstill (mem_cons_of_mem x hc)
    | flushMark x ready => exact hstill hc
    | nextSlot tried q hq => rcases hq with rfl | rfl <;> exact hc.elim
    | markPrev prev next hexited hblocked =>
      have hprev : prev = t := hc
      subst hprev
      exact .inr (.markPrev c next hp hexited hblocked)
    | picked | replace | first | goIdle | stay | keepStatus | deferPrev | doSwitch => exact hc.elim
  · rcases step_calls hs hcall with ⟨old, hold, htask⟩ | hrecalls
    · exact .inl (.inr (.inr ⟨old, hold, htask⟩))
    · exact .inr hrecalls

end SchedState

end JanuaryOs.Sched

import JanuaryOs.Lib.Counting
import JanuaryOs.Lib.Trace
import JanuaryOs.Sched.Steps

/-!
# Who owns a task

A task is in at most one place: a run queue, the current task of a CPU, a local
variable of a CPU in `schedule()`, the list of deferred tasks, or a call of
`enqueue_on_cpu` that is under way. Every step of `schedule()` moves it from one
place to the next, so the number of its places does not grow. Only those who
make a task runnable from outside can add one: `add_task`, the stdin wake-up and
`SIGCONT`. They look at the status and not at the places, and the status of a
task is `Blocked` long before its CPU has switched away from it. The theorem
about runs therefore asks that they find the task parked, in no place at all.
-/

namespace JanuaryOs.Sched

open Lib List Function
open Proc (TaskStatus)

/-! ### Places -/

/-- One if the variable holds the task. -/
def occurs (x : Option TaskId) (t : TaskId) : ℕ := if x = some t then 1 else 0

/-- How often a local variable of `schedule()` holds a task. A deferred task is
counted where it is deferred. -/
def Phase.holds : Phase → TaskId → ℕ
  | .flushing ready _, t => ready.count t
  | .picked next, t => occurs (some next) t
  | .leaving prev _, t | .deferring prev _, t => occurs (some prev) t
  | .switching prev _ false, t => occurs prev t
  | _, _ => 0

namespace SchedState

variable {n : ℕ} (s : SchedState n)

/-- How often a task is in the run queues. -/
def queued (t : TaskId) : ℕ := ∑ c, (s.runqueues c).count t

/-- On how many CPUs a task is current. -/
def running (t : TaskId) : ℕ := ∑ c, occurs (s.current c) t

/-- How often a task is in local variables of `schedule()`. -/
def inHand (t : TaskId) : ℕ := ∑ c, (s.phase c).holds t

/-- How often a task is deferred. -/
def waiting (t : TaskId) : ℕ := (s.deferred.map Prod.snd).count t

/-- How many calls are about to enqueue a task. -/
def called (t : TaskId) : ℕ := (s.calls.map EnqueueCall.task).count t

/-- In how many places a task is. -/
def places (t : TaskId) : ℕ :=
  s.queued t + s.running t + s.inHand t + s.waiting t + s.called t

/-! ### The guard and the property -/

/-- In no place. -/
def Parked (t : TaskId) : Prop :=
  (∀ c, t ∉ s.runqueues c) ∧ (∀ c, s.current c ≠ some t) ∧ (∀ c, (s.phase c).holds t = 0) ∧
    (∀ x ∈ s.deferred, x.2 ≠ t) ∧ ∀ call ∈ s.calls, call.task ≠ t
deriving Decidable

/-- Whoever makes a task runnable finds it parked. A call that refuses the task
because of its status is not asked for anything. -/
def WakeOk : SchedStep n → Prop
  | .wakeStdin t _ | .sigCont t _ => s.status t = .blocked → s.Parked t
  | .addTask t _ => s.Schedulable t → s.Parked t
  | _ => True

instance : (a : SchedStep n) → Decidable (s.WakeOk a)
  | .wakeStdin .. | .sigCont .. => inferInstanceAs (Decidable (_ → _))
  | .addTask .. => inferInstanceAs (Decidable (_ → _))
  | .flush _ | .flushMark _ | .flushCommit _ | .pick _ | .replaceCurrent _ | .goIdle _
  | .markPrev _ | .deferPrev _ | .doSwitch _ | .block _ | .exit _ | .sigStop _ | .removeTasks ..
  | .callMark _ | .callCommit _ => inferInstanceAs (Decidable True)

/-- A CPU has decided to switch away from a task and has not saved its context. -/
def SwitchingAway (c : Fin n) (t : TaskId) : Prop :=
  match s.phase c with
  | .picked _ | .noTask => s.current c = some t
  | .leaving prev _ | .deferring prev _ => prev = t
  | .switching prev _ _ => prev = some t
  | _ => False

structure Owned (s : SchedState n) : Prop where
  /-- A task is in at most one slot, at most once. -/
  queued : ∀ t, ∑ c, (s.runqueues c).count t ≤ 1
  /-- It is current on at most one CPU. -/
  current : ∀ t c c', s.current c = some t → s.current c' = some t → c = c'
  /-- While a CPU switches away from it, no CPU picks it or has it as its
  current task. -/
  unpicked : ∀ t c, s.SwitchingAway c t →
    (∀ c', s.phase c' ≠ .picked t) ∧ ∀ c', c' ≠ c → s.current c' ≠ some t

/-- The invariant: at most one place, and who has deferred the task it switches
away from finds it in the list. -/
structure Inv (s : SchedState n) : Prop where
  places : ∀ t, s.places t ≤ 1
  deferred : ∀ c t next, s.phase c = .switching (some t) next true → (c, t) ∈ s.deferred

/-! ### Counting -/

theorem count_cons (x : TaskId) (q : List TaskId) (t : TaskId) :
    (x :: q).count t = occurs (some x) t + q.count t := by
  rw [List.count_cons, occurs]
  simp only [beq_iff_eq, Option.some.injEq]
  omega

theorem count_single (x t : TaskId) : [x].count t = occurs (some x) t := count_cons x [] t

@[simp] theorem places_setStatus (x : TaskId) (st : TaskStatus) (t : TaskId) :
    (s.setStatus x st).places t = s.places t := rfl

theorem places_setQueue (slot : Fin n) (q : List TaskId) (t : TaskId) :
    (s.setQueue slot q).places t + (s.runqueues slot).count t = s.places t + q.count t := by
  have hsum := sum_update (Finset.mem_univ slot) (fun _ (q : List TaskId) => q.count t)
    s.runqueues q
  simp only [places, queued, running, inHand, waiting, called, setQueue] at hsum ⊢
  omega

theorem places_setPhase (c : Fin n) (p : Phase) (t : TaskId) :
    (s.setPhase c p).places t + (s.phase c).holds t = s.places t + p.holds t := by
  have hsum := sum_update (Finset.mem_univ c) (fun _ (p : Phase) => p.holds t) s.phase p
  simp only [places, queued, running, inHand, waiting, called, setPhase] at hsum ⊢
  omega

theorem places_setCurrent (c : Fin n) (x : Option TaskId) (t : TaskId) :
    (s.setCurrent c x).places t + occurs (s.current c) t = s.places t + occurs x t := by
  have hsum := sum_update (Finset.mem_univ c) (fun _ (x : Option TaskId) => occurs x t) s.current x
  simp only [places, queued, running, inHand, waiting, called, setCurrent] at hsum ⊢
  omega

theorem places_deferred (l : List (Fin n × TaskId)) (t : TaskId) :
    ({ s with deferred := l } : SchedState n).places t + s.waiting t
      = s.places t + (l.map Prod.snd).count t := by
  simp only [places, queued, running, inHand, waiting, called]
  omega

theorem places_calls (l : List (EnqueueCall n)) (t : TaskId) :
    ({ s with calls := l } : SchedState n).places t + s.called t
      = s.places t + (l.map EnqueueCall.task).count t := by
  simp only [places, queued, running, inHand, waiting, called]
  omega

variable {t x : TaskId} {s s' : SchedState n} {c : Fin n}

theorem Parked.places (h : s.Parked t) : s.places t = 0 := by
  obtain ⟨hq, hc, hp, hd, hcalls⟩ := h
  have h1 : s.queued t = 0 := Finset.sum_eq_zero fun c _ => List.count_eq_zero.2 (hq c)
  have h2 : s.running t = 0 := Finset.sum_eq_zero fun c _ => if_neg (hc c)
  have h3 : s.inHand t = 0 := Finset.sum_eq_zero fun c _ => hp c
  have h4 : s.waiting t = 0 := List.count_eq_zero.2 (by simpa using fun a ha => hd _ ha rfl)
  have h5 : s.called t = 0 := List.count_eq_zero.2 (by simpa using fun a ha => hcalls _ ha)
  simp only [SchedState.places, h1, h2, h3, h4, h5]

/-! ### Parts of steps -/

theorem markReady_eq (h : s.markReady x = some s') :
    s' = s.setStatus x .ready := by
  unfold markReady at h
  split at h
  · exact (Option.some.inj h).symm
  · cases h

/-- A task that goes into a queue is in one place more. -/
theorem places_enqueueOnCpu (s : SchedState n) (x : TaskId) (c : Fin n) (t : TaskId) :
    (s.enqueueOnCpu x c).places t ≤ s.places t + occurs (some x) t := by
  unfold enqueueOnCpu
  split
  · exact Nat.le_add_right _ _
  cases hmark : s.markReady x with
  | none => exact Nat.le_add_right _ _
  | some s' =>
    obtain rfl := markReady_eq hmark
    have hq := places_setQueue (s.setStatus x .ready) c (s.runqueues c ++ [x]) t
    rw [count_append, count_single, places_setStatus] at hq
    show ((s.setStatus x .ready).setQueue c (s.runqueues c ++ [x])).places t ≤ _
    have hsame : (s.setStatus x .ready).runqueues c = s.runqueues c := rfl
    rw [hsame] at hq
    omega

@[simp] theorem enqueueOnCpu_phase (s : SchedState n) (x : TaskId) (c : Fin n) :
    (s.enqueueOnCpu x c).phase = s.phase := by
  unfold enqueueOnCpu
  split
  · rfl
  · cases hmark : s.markReady x with
    | none => rfl
    | some s' => rw [markReady_eq hmark]; rfl

@[simp] theorem enqueueOnCpu_deferred (s : SchedState n) (x : TaskId) (c : Fin n) :
    (s.enqueueOnCpu x c).deferred = s.deferred := by
  unfold enqueueOnCpu
  split
  · rfl
  · cases hmark : s.markReady x with
    | none => rfl
    | some s' => rw [markReady_eq hmark]; rfl

@[simp] theorem holds_flushRest (ready : List TaskId) (t : TaskId) :
    (flushRest ready).holds t = ready.count t := by
  unfold flushRest
  split
  · rename_i h
    rw [h]
    rfl
  · rfl

theorem places_take (s : SchedState n) {slot : Fin n} (found : Option TaskId) {rest : List TaskId}
    (hsub : (found.toList ++ rest).Subperm (s.runqueues slot)) (t : TaskId) :
    (s.setQueue slot rest).places t + occurs found t ≤ s.places t := by
  have hqueue := places_setQueue s slot rest t
  have hcount := hsub.count_le t
  rw [count_append] at hcount
  have hfound : found.toList.count t = occurs found t := by
    cases found with
    | none => rfl
    | some x => exact count_single x t
  omega

/-! ### Steps -/

section Steps

variable {next : Option TaskId} {p : Phase}

theorem Inv.keep (h : s.Inv) (hplaces : ∀ t, s'.places t ≤ s.places t)
    (hphase : s'.phase = s.phase) (hdeferred : s'.deferred = s.deferred) : s'.Inv :=
  ⟨fun t => (hplaces t).trans (h.places t), by rw [hphase, hdeferred]; exact h.deferred⟩

/-- A step that ends with a change of the phase of one CPU. -/
theorem Inv.advance (h : s.Inv) {r : SchedState n} (hphase : r.phase = s.phase)
    (hplaces : ∀ t, r.places t + p.holds t ≤ s.places t + (s.phase c).holds t)
    (hnew : ∀ t next, p = .switching (some t) next true → (c, t) ∈ r.deferred)
    (hold : ∀ c' t, c' ≠ c → (c', t) ∈ s.deferred → (c', t) ∈ r.deferred) :
    (r.setPhase c p).Inv := by
  refine ⟨fun t => ?_, fun c' t next hc' => ?_⟩
  · have h1 := places_setPhase r c p t
    have h2 := hplaces t
    have h3 := h.places t
    rw [hphase] at h1
    omega
  · by_cases hcc : c' = c
    · subst hcc
      simp only [SchedState.setPhase, update_self] at hc'
      exact hnew t next hc'
    · simp only [SchedState.setPhase, update_of_ne hcc, hphase] at hc'
      exact hold c' t hcc (h.deferred c' t next hc')

theorem flushRest_ne (ready : List TaskId) {prev : Option TaskId} :
    flushRest ready ≠ .switching prev next true := by
  unfold flushRest
  split <;> simp

theorem flushRest_ne_picked (ready : List TaskId) (t : TaskId) : flushRest ready ≠ .picked t := by
  unfold flushRest
  split <;> nofun

theorem Inv.setPhase (h : s.Inv) (hholds : ∀ t, p.holds t ≤ (s.phase c).holds t)
    (hne : ∀ t next, p ≠ .switching (some t) next true) : (s.setPhase c p).Inv :=
  h.advance rfl (fun t => Nat.add_le_add_left (hholds t) _)
    (fun t next hp => absurd hp (hne t next)) fun _ _ _ hmem => hmem

theorem Inv.setStatus (h : s.Inv) (x : TaskId) (st : TaskStatus) : (s.setStatus x st).Inv :=
  h.keep (fun _ => le_rfl) rfl rfl

theorem Inv.flush (h : s.Inv) (hphase : s.phase c = .user) :
    (({ s with deferred := s.deferred.filter fun x => x.1 ≠ c } : SchedState n).setPhase c
      (flushRest ((s.deferred.filter fun x => x.1 = c).map Prod.snd))).Inv := by
  refine h.advance (r := { s with deferred := _ }) rfl (fun t => ?_)
    (fun t next hp => absurd hp (flushRest_ne _)) fun c' t hne hmem => ?_
  · have hdeferred := places_deferred s (s.deferred.filter fun x => x.1 ≠ c) t
    have hsplit : ((s.deferred.filter fun x => x.1 = c).map Prod.snd).count t +
        ((s.deferred.filter fun x => x.1 ≠ c).map Prod.snd).count t = s.waiting t := by
      have hperm := (filter_append_perm (fun x => x.1 = c) s.deferred).map Prod.snd
      simpa [waiting] using hperm.count_eq t
    rw [holds_flushRest, hphase]
    omega
  · exact mem_filter.2 ⟨hmem, by simpa using hne⟩

theorem Inv.flushCommit (h : s.Inv) {ready : List TaskId}
    (hphase : s.phase c = .flushing (x :: ready) true) :
    ((s.enqueueOnCpu x c).setPhase c (flushRest ready)).Inv := by
  refine h.advance (enqueueOnCpu_phase s x c) (fun t => ?_)
    (fun t next hp => absurd hp (flushRest_ne _)) fun c' t _ hmem => ?_
  · have := places_enqueueOnCpu s x c t
    rw [holds_flushRest, hphase, Phase.holds, count_cons]
    omega
  · rwa [enqueueOnCpu_deferred]

/-- The current task changes, and the CPU holds the one before. -/
theorem Inv.setCurrent (h : s.Inv)
    (hholds : ∀ t, p.holds t + occurs next t = occurs (s.current c) t + (s.phase c).holds t)
    (hne : ∀ t next, p ≠ .switching (some t) next true) :
    ((s.setCurrent c next).setPhase c p).Inv := by
  refine h.advance rfl (fun t => ?_) (fun t next hp => absurd hp (hne t next))
    fun _ _ _ hmem => hmem
  have hcur := places_setCurrent s c next t
  have := hholds t
  omega

theorem Inv.deferPrev (h : s.Inv) {prev : TaskId} (hphase : s.phase c = .deferring prev next) :
    (({ s with deferred := s.deferred ++ [(c, prev)] } : SchedState n).setPhase c
      (.switching (some prev) next true)).Inv := by
  refine h.advance (r := { s with deferred := _ }) rfl (fun t => ?_) (fun t next' hp => ?_)
    fun c' t _ hmem => mem_append_left _ hmem
  · have hdeferred := places_deferred s (s.deferred ++ [(c, prev)]) t
    rw [map_append, count_append] at hdeferred
    have hone : ([(c, prev)].map Prod.snd).count t = occurs (some prev) t := count_single prev t
    have hwait : (s.deferred.map Prod.snd).count t = s.waiting t := rfl
    simp only [Phase.holds, hphase]
    omega
  · cases hp
    exact mem_append_right _ (mem_singleton.2 rfl)

/-! Who makes a task runnable adds a place, and the guard says it is the only
one. -/

theorem Inv.call (h : s.Inv) (call : EnqueueCall n) (hplaces : s.places call.task = 0) :
    ({ s with calls := call :: s.calls } : SchedState n).Inv := by
  refine ⟨fun t => ?_, h.deferred⟩
  have hcalls := places_calls s (call :: s.calls) t
  rw [map_cons, count_cons] at hcalls
  have hcalled : (s.calls.map EnqueueCall.task).count t = s.called t := rfl
  have hone := h.places t
  by_cases ht : call.task = t
  · subst ht
    simp only [occurs, if_true] at hcalls
    omega
  · simp only [occurs, Option.some.injEq, ht, if_false] at hcalls
    omega

variable {call : EnqueueCall n}

theorem places_erase (hmem : call ∈ s.calls) (t : TaskId) :
    ({ s with calls := s.calls.erase call } : SchedState n).places t + occurs (some call.task) t
      = s.places t := by
  have hcalls := places_calls s (s.calls.erase call) t
  have hperm := ((perm_cons_erase hmem).map EnqueueCall.task).count_eq t
  rw [map_cons, count_cons] at hperm
  have hcalled : (s.calls.map EnqueueCall.task).count t = s.called t := rfl
  omega

theorem Inv.callMark (h : s.Inv) (hmem : call ∈ s.calls) :
    ({ s.setStatus call.task .ready with
      calls := { call with marked := true } :: s.calls.erase call } : SchedState n).Inv := by
  refine (h.setStatus call.task .ready).keep (fun t => ?_) rfl rfl
  have hcalls := places_calls s ({ call with marked := true } :: s.calls.erase call) t
  have hcalls' := places_calls s (s.calls.erase call) t
  rw [map_cons, count_cons] at hcalls
  have := places_erase hmem t
  show ({ s with calls := { call with marked := true } :: s.calls.erase call } :
    SchedState n).places t ≤ s.places t
  simp only at hcalls
  omega

theorem Inv.callCommit (h : s.Inv) (hmem : call ∈ s.calls) :
    ({ s with calls := s.calls.erase call }.enqueueOnCpu call.task call.cpu).Inv := by
  refine h.keep (fun t => ?_) (enqueueOnCpu_phase _ _ _) (enqueueOnCpu_deferred _ _ _)
  have herase := places_erase hmem t
  have henq := places_enqueueOnCpu { s with calls := s.calls.erase call } call.task call.cpu t
  omega

end Steps

/-! ### Runs -/

theorem inv_boot (pid : TaskId → ProcessId) : (boot n pid).Inv := by
  refine ⟨fun t => ?_, fun c t next h => by cases h⟩
  have hparked : (boot n pid).Parked t := by
    refine ⟨fun c => ?_, fun c => ?_, fun c => rfl, ?_, ?_⟩ <;> simp [boot]
  rw [hparked.places]
  exact Nat.zero_le _

/-- A step that finds the tasks it makes runnable parked keeps the invariant. -/
theorem Inv.step (h : s.Inv) {a : SchedStep n} (hok : s.WakeOk a)
    (hs : s.step a = some s') : s'.Inv := by
  cases step_to hs with
  | flush c mine hphase hmine =>
    subst hmine
    exact h.flush hphase
  | flushSkip c t ready hphase =>
    refine h.setPhase (fun x => ?_) fun _ _ => flushRest_ne _
    rw [holds_flushRest, hphase, Phase.holds, count_cons]
    omega
  | flushMark c t ready hphase =>
    have hholds : ∀ x, (Phase.flushing (t :: ready) true).holds x ≤ (s.phase c).holds x :=
      fun _ => hphase ▸ le_rfl
    exact (h.setStatus t .ready).setPhase hholds nofun
  | flushCommit c t ready hphase => exact h.flushCommit hphase
  | picked c slot tried t rest _ _ hsub =>
    refine h.advance (p := .picked t) rfl (fun x => ?_) nofun fun _ _ _ hmem => hmem
    rw [places_setStatus, Phase.holds]
    exact (s.places_take (some t) hsub x).trans (Nat.le_add_right _ _)
  | nextSlot c slot tried rest p _ hsub hp =>
    refine h.advance rfl (fun x => ?_) (fun x next hx => ?_) fun _ _ _ hmem => hmem
    · have := s.places_take none hsub x
      rcases hp with rfl | rfl <;> simp only [Phase.holds] <;> omega
    · rcases hp with rfl | rfl <;> cases hx
  | replace c prev next hphase hcurrent
  | first c next hphase hcurrent
  | goIdle c prev hphase _ hcurrent =>
    exact h.setCurrent (fun x => by rw [hphase, hcurrent]; rfl) nofun
  | stay c
  | doSwitch c => exact h.setPhase (fun _ => Nat.zero_le _) nofun
  | keepStatus c prev next hphase => exact h.setPhase (fun x => (hphase ▸ le_rfl)) nofun
  | markPrev c prev next hphase =>
    have hholds : ∀ x, (Phase.deferring prev next).holds x ≤ (s.phase c).holds x :=
      fun _ => hphase ▸ le_rfl
    exact (h.setStatus prev .switching).setPhase hholds nofun
  | deferPrev c prev next hphase => exact h.deferPrev hphase
  | firstSwitch c =>
    have hsaved : ({ s with idleSaved := update s.idleSaved c true } : SchedState n).Inv :=
      h.keep (fun _ => le_rfl) rfl rfl
    exact hsaved.setPhase (fun _ => Nat.zero_le _) nofun
  | block c t => exact h.setStatus t .blocked
  | exit t => exact h.setStatus t .exited
  | wakeStdin t cpu hblocked | sigCont t cpu hblocked =>
    exact (h.setStatus t .ready).call ⟨t, cpu, false⟩ (hok hblocked).places
  | sigStop t => exact h.setStatus t .blocked
  | noWake | noCont | noStop | noAdd => exact h
  | removeTasks pid slot q hsub =>
    exact h.keep (fun x => s.places_take none hsub x) rfl rfl
  | addTask t cpu hsched => exact (h.setStatus t .ready).call ⟨t, cpu, true⟩ (hok hsched).places
  | callMark call hmem => exact h.callMark hmem
  | callDrop call hmem =>
    refine h.keep (fun x => ?_) rfl rfl
    have := places_erase hmem x
    omega
  | callCommit call hmem => exact h.callCommit hmem

theorem running_pos (h : s.current c = some t) : 0 < s.running t := by
  have hone : occurs (s.current c) t = 1 := if_pos h
  have hle : occurs (s.current c) t ≤ s.running t :=
    Finset.single_le_sum_of_canonicallyOrdered (f := fun c => occurs (s.current c) t)
      (Finset.mem_univ c)
  omega

theorem holds_of_picked (h : s.phase c = .picked t) : (s.phase c).holds t = 1 := by
  rw [h, Phase.holds, occurs, if_pos rfl]

theorem inHand_pos (h : s.phase c = .picked t) : 0 < s.inHand t := by
  have hone := holds_of_picked h
  have hle : (s.phase c).holds t ≤ s.inHand t :=
    Finset.single_le_sum_of_canonicallyOrdered (f := fun c => (s.phase c).holds t)
      (Finset.mem_univ c)
  omega

/-- While a CPU switches away from a task, the task is current there, held by
the CPU in a phase in which it has picked nothing, or deferred. -/
theorem SwitchingAway.cases (h : s.Inv) (ht : s.SwitchingAway c t) :
    s.current c = some t ∨ ((s.phase c).holds t = 1 ∧ s.phase c ≠ .picked t) ∨ 0 < s.waiting t := by
  unfold SwitchingAway at ht
  split at ht
  · exact .inl ht
  · exact .inl ht
  · rename_i hphase
    exact .inr (.inl ⟨by rw [hphase, ht, Phase.holds, occurs, if_pos rfl], by rw [hphase]; simp⟩)
  · rename_i hphase
    exact .inr (.inl ⟨by rw [hphase, ht, Phase.holds, occurs, if_pos rfl], by rw [hphase]; simp⟩)
  · rename_i prev next deferred hphase
    subst ht
    cases deferred with
    | false =>
      exact .inr (.inl ⟨by rw [hphase, Phase.holds, occurs, if_pos rfl], by rw [hphase]; simp⟩)
    | true =>
      refine .inr (.inr (count_pos_iff.2 ?_))
      exact mem_map_of_mem (h.deferred c t next hphase)
  · exact ht.elim

theorem Inv.owned (h : s.Inv) : s.Owned := by
  have hone : ∀ t, s.queued t + s.running t + s.inHand t + s.waiting t + s.called t ≤ 1 := h.places
  have hcurrent : ∀ {t c}, s.current c = some t → occurs (s.current c) t = 1 := fun hc => if_pos hc
  have hhand : ∀ t c, (s.phase c).holds t ≤ s.inHand t := fun t c =>
    Finset.single_le_sum_of_canonicallyOrdered (f := fun c => (s.phase c).holds t)
      (Finset.mem_univ c)
  have hunique : ∀ t c c', s.current c = some t → s.current c' = some t → c = c' := by
    intro t c c' hc hc'
    by_contra hne
    have htwo := add_le_sum_entries (Finset.mem_univ c) (Finset.mem_univ c') hne
      fun c => occurs (s.current c) t
    have hle : ∑ c, occurs (s.current c) t = s.running t := rfl
    simp only [hcurrent hc, hcurrent hc'] at htwo
    have := hone t
    omega
  refine ⟨fun t => ?_, hunique, fun t c ht => ⟨fun c' hc' => ?_, fun c' hne hc' => ?_⟩⟩
  · have hle : ∑ c, (s.runqueues c).count t = s.queued t := rfl
    have := hone t
    omega
  · have hpicked := holds_of_picked hc'
    have h1 := hone t
    have h2 := hhand t c'
    rcases ht.cases h with hcur | ⟨hhold, hnot⟩ | hwait
    · have := running_pos hcur
      omega
    · have hcc : c ≠ c' := fun hcc => hnot (hcc ▸ hc')
      have htwo := add_le_sum_entries (Finset.mem_univ c) (Finset.mem_univ c') hcc
        fun c => (s.phase c).holds t
      have hle : ∑ c, (s.phase c).holds t = s.inHand t := rfl
      omega
    · omega
  · have h1 := hone t
    have h2 := running_pos hc'
    rcases ht.cases h with hcur | ⟨hhold, -⟩ | hwait
    · exact hne (hunique t c' c hc' hcur)
    · have := hhand t c
      omega
    · omega

/-- In every run in which `add_task`, stdin wake-ups and `SIGCONT` find the
tasks they make runnable parked, a task is in at most one queue, current on at
most one CPU, and not picked while it is being switched away from. -/
theorem task_ownership (n : ℕ) (pid : TaskId → ProcessId) {as : List (SchedStep n)}
    {s : SchedState n}
    (hrun : Run (Guarded WakeOk (ofPartial step)) (boot n pid) as s) : s.Owned := by
  have hinv : s.Inv := by
    refine hrun.invariant Inv ?_ (inv_boot pid)
    rintro s a s' hs ⟨hok, hstep⟩
    exact hs.step hok hstep
  exact hinv.owned

/-- Two CPUs and two tasks. Task 7 runs on CPU 0, waits for input and is
switched away from in favour of task 8; the wake-up comes after its context has
been saved, and CPU 1 steals it. -/
def sampleSteps : List (SchedStep 2) :=
  [.addTask 7 0, .callCommit ⟨7, 0, true⟩, .addTask 8 0, .callCommit ⟨8, 0, true⟩,
    .flush 0, .pick 0, .replaceCurrent 0, .doSwitch 0,
    .block 0, .flush 0, .pick 0, .replaceCurrent 0, .markPrev 0, .doSwitch 0,
    .wakeStdin 7 0, .callMark ⟨7, 0, false⟩, .callCommit ⟨7, 0, true⟩,
    .flush 1, .pick 1, .pick 1, .replaceCurrent 1, .doSwitch 1,
    .flush 1, .pick 1, .pick 1, .goIdle 1, .markPrev 1, .deferPrev 1, .doSwitch 1,
    .flush 1, .flushMark 1, .flushCommit 1]

theorem task_ownership_wake :
    ∃ s, Run (Guarded WakeOk (ofPartial step)) (boot 2 id) sampleSteps s ∧ s.Owned ∧
      s.current 0 = some 8 ∧ s.runqueues 1 = [7] :=
  Run.exists_of_exec (by decide) fun _ hrun h => ⟨task_ownership 2 id hrun, h⟩

/-- `SIGSTOP` marks the task that runs on CPU 0 as `Blocked`, and `SIGCONT`
takes that for a task that has been switched away from: it makes it `Ready` and
enqueues it. CPU 1 picks it, and the task is current on both. -/
theorem sigcont_runs_task_twice :
    ∃ s, Run (Guarded (fun _ _ => True) (ofPartial step)) (boot 2 id)
        [.addTask 7 0, .callCommit ⟨7, 0, true⟩, .flush 0, .pick 0, .replaceCurrent 0, .doSwitch 0,
          .sigStop 7, .removeTasks 7 0, .removeTasks 7 1,
          .sigCont 7 1, .callMark ⟨7, 1, false⟩, .callCommit ⟨7, 1, true⟩,
          .flush 1, .pick 1, .replaceCurrent 1] s ∧
      s.current 0 = some 7 ∧ s.current 1 = some 7 ∧ ¬ s.Owned := by
  refine Run.exists_of_exec (Q := fun s => s.current 0 = some 7 ∧ s.current 1 = some 7) (by decide)
    fun s _ ⟨h0, h1⟩ => ⟨h0, h1, fun howned => ?_⟩
  have hsame : (0 : Fin 2) = 1 := howned.current 7 0 1 h0 h1
  exact absurd hsame (by decide)

end SchedState

end JanuaryOs.Sched

import JanuaryOs.Sched.Scheduler

/-!
# What one step of the scheduler can do

Every step is taken apart once, in `step_to`; invariants of runs are proved by
cases over the outcomes.
-/

namespace JanuaryOs.Sched

open List

open Proc (TaskStatus)

namespace SchedState

variable {n : ℕ}

/-- The next state, outcome by outcome. -/
inductive StepTo (s : SchedState n) : SchedStep n → SchedState n → Prop
  | flush (c : Fin n) (mine : List (Fin n × TaskId)) : s.phase c = .user →
      mine = (s.deferred.filter fun x => x.1 = c) → StepTo s (.flush c)
        ({ s with deferred := s.deferred.filter fun x => x.1 ≠ c }.setPhase c
          (flushRest (mine.map Prod.snd)))
  | flushSkip (c : Fin n) (t : TaskId) (ready : List TaskId) :
      s.phase c = .flushing (t :: ready) false → ¬ s.Schedulable t →
      StepTo s (.flushMark c) (s.setPhase c (flushRest ready))
  | flushMark (c : Fin n) (t : TaskId) (ready : List TaskId) :
      s.phase c = .flushing (t :: ready) false → s.Schedulable t →
      StepTo s (.flushMark c) ((s.setStatus t .ready).setPhase c (.flushing (t :: ready) true))
  | flushCommit (c : Fin n) (t : TaskId) (ready : List TaskId) :
      s.phase c = .flushing (t :: ready) true →
      StepTo s (.flushCommit c) ((s.enqueueOnCpu t c).setPhase c (flushRest ready))
  | picked (c slot : Fin n) (tried : ℕ) (t : TaskId) (rest : List TaskId) :
      s.phase c = .picking tried → s.status t = .ready → (t :: rest).Subperm (s.runqueues slot) →
      StepTo s (.pick c) (((s.setQueue slot rest).setStatus t .running).setPhase c (.picked t))
  | nextSlot (c slot : Fin n) (tried : ℕ) (rest : List TaskId) (p : Phase) :
      s.phase c = .picking tried → rest.Subperm (s.runqueues slot) →
      p = .picking (tried + 1) ∨ p = .noTask →
      StepTo s (.pick c) ((s.setQueue slot rest).setPhase c p)
  | replace (c : Fin n) (prev next : TaskId) : s.phase c = .picked next →
      s.current c = some prev → StepTo s (.replaceCurrent c)
        ((s.setCurrent c (some next)).setPhase c (.leaving prev (some next)))
  | first (c : Fin n) (next : TaskId) : s.phase c = .picked next → s.current c = none →
      StepTo s (.replaceCurrent c)
        ((s.setCurrent c (some next)).setPhase c (.switching none (some next) false))
  | goIdle (c : Fin n) (prev : TaskId) : s.phase c = .noTask → s.idleSaved c = true →
      s.current c = some prev →
      StepTo s (.goIdle c) ((s.setCurrent c none).setPhase c (.leaving prev none))
  | stay (c : Fin n) : s.phase c = .noTask → s.idleSaved c = false ∨ s.current c = none →
      StepTo s (.goIdle c) (s.setPhase c .user)
  | keepStatus (c : Fin n) (prev : TaskId) (next : Option TaskId) :
      s.phase c = .leaving prev next → s.status prev = .exited ∨ s.status prev = .blocked →
      StepTo s (.markPrev c) (s.setPhase c (.switching (some prev) next false))
  | markPrev (c : Fin n) (prev : TaskId) (next : Option TaskId) :
      s.phase c = .leaving prev next → s.status prev ≠ .exited → s.status prev ≠ .blocked →
      StepTo s (.markPrev c) ((s.setStatus prev .switching).setPhase c (.deferring prev next))
  | deferPrev (c : Fin n) (prev : TaskId) (next : Option TaskId) :
      s.phase c = .deferring prev next → StepTo s (.deferPrev c)
        ({ s with deferred := s.deferred ++ [(c, prev)] }.setPhase c
          (.switching (some prev) next true))
  | firstSwitch (c : Fin n) (next : Option TaskId) (deferred : Bool) :
      s.phase c = .switching none next deferred → StepTo s (.doSwitch c)
        ({ s with idleSaved := Function.update s.idleSaved c true }.setPhase c .user)
  | doSwitch (c : Fin n) (prev : TaskId) (next : Option TaskId) (deferred : Bool) :
      s.phase c = .switching (some prev) next deferred →
      StepTo s (.doSwitch c) (s.setPhase c .user)
  | block (c : Fin n) (t : TaskId) : s.phase c = .user → s.current c = some t →
      s.status t ≠ .exited → StepTo s (.block c) (s.setStatus t .blocked)
  | exit (t : TaskId) : StepTo s (.exit t) (s.setStatus t .exited)
  | wakeStdin (t : TaskId) (cpu : Fin n) : s.status t = .blocked → StepTo s (.wakeStdin t cpu)
      { s.setStatus t .ready with calls := ⟨t, cpu, false⟩ :: s.calls }
  | noWake (t : TaskId) (cpu : Fin n) : StepTo s (.wakeStdin t cpu) s
  | sigCont (t : TaskId) (cpu : Fin n) : s.status t = .blocked → StepTo s (.sigCont t cpu)
      { s.setStatus t .ready with calls := ⟨t, cpu, false⟩ :: s.calls }
  | noCont (t : TaskId) (cpu : Fin n) : StepTo s (.sigCont t cpu) s
  | sigStop (t : TaskId) : s.status t ≠ .exited → StepTo s (.sigStop t) (s.setStatus t .blocked)
  | noStop (t : TaskId) : StepTo s (.sigStop t) s
  | removeTasks (pid : ProcessId) (slot : Fin n) (q : List TaskId) : q.Subperm (s.runqueues slot) →
      StepTo s (.removeTasks pid slot) (s.setQueue slot q)
  | addTask (t : TaskId) (cpu : Fin n) : s.Schedulable t → StepTo s (.addTask t cpu)
      { s.setStatus t .ready with calls := ⟨t, cpu, true⟩ :: s.calls }
  | noAdd (t : TaskId) (cpu : Fin n) : StepTo s (.addTask t cpu) s
  | callMark (call : EnqueueCall n) : call ∈ s.calls → s.Schedulable call.task →
      StepTo s (.callMark call) { s.setStatus call.task .ready with
        calls := { call with marked := true } :: s.calls.erase call }
  | callDrop (call : EnqueueCall n) : call ∈ s.calls →
      StepTo s (.callMark call) { s with calls := s.calls.erase call }
  | callCommit (call : EnqueueCall n) : call ∈ s.calls → StepTo s (.callCommit call)
      ({ s with calls := s.calls.erase call }.enqueueOnCpu call.task call.cpu)

variable {s s' : SchedState n} {a : SchedStep n} {t x : TaskId}

/-- The loop over a queue loses tasks, and chooses at most one, which is ready. -/
theorem pickLoop_spec (status : TaskId → TaskStatus) (k : ℕ) (q : List TaskId) :
    (∀ t ∈ (pickLoop status k q).1, status t = .ready) ∧
      ((pickLoop status k q).1.toList ++ (pickLoop status k q).2).Subperm q := by
  induction k generalizing q with
  | zero => exact ⟨nofun, .refl q⟩
  | succ k ih =>
    cases q with
    | nil => exact ⟨nofun, .refl []⟩
    | cons x q =>
      rw [pickLoop]
      split
      · exact (ih q).imp_right (·.trans (sublist_cons_self x q).subperm)
      · rename_i hready
        exact ⟨fun t ht => Option.some.inj ht ▸ hready, .refl _⟩
      · exact (ih (q ++ [x])).imp_right (·.trans (perm_append_singleton x q).subperm)

theorem pickFrom_cases (s : SchedState n) (c : Fin n) (tried : ℕ) :
    (∃ rest t, s.status t = .ready ∧ (t :: rest).Subperm (s.runqueues (victim c tried)) ∧
      s.pickFrom c tried =
        ((s.setQueue (victim c tried) rest).setStatus t .running).setPhase c (.picked t)) ∨
    ∃ rest : List TaskId, rest.Subperm (s.runqueues (victim c tried)) ∧ s.pickFrom c tried =
      (s.setQueue (victim c tried) rest).setPhase c
        (if tried + 1 < n then .picking (tried + 1) else .noTask) := by
  simp only [pickFrom]
  generalize s.runqueues (victim c tried) = q
  rcases hres : (if tried = 0 then pickNextFromSlot s.status q else stealFromSlot s.status q) with
    ⟨found, rest⟩
  obtain ⟨hready, hsub⟩ : (∀ t ∈ found, s.status t = .ready) ∧
      (found.toList ++ rest).Subperm q := by
    split at hres
    · have hloop := pickLoop_spec s.status q.length q
      rwa [show pickLoop s.status _ _ = (found, rest) from hres] at hloop
    · have hloop := pickLoop_spec s.status q.length q.reverse
      unfold stealFromSlot at hres
      generalize pickLoop s.status q.length q.reverse = res at hres hloop
      cases hres
      have hback := (reverse_perm res.2).append_left res.1.toList
      exact ⟨hloop.1, (hback.subperm.trans hloop.2).trans (reverse_perm _).subperm⟩
  cases found with
  | none => exact .inr ⟨rest, hsub, rfl⟩
  | some t => exact .inl ⟨rest, t, hready t rfl, hsub, rfl⟩

/-- Every step has one of the outcomes of `StepTo`. -/
theorem step_to (hs : s.step a = some s') : s.StepTo a s' := by
  cases a with
  | flush c =>
    simp only [step, SchedState.flush] at hs
    split at hs <;> cases hs
    rename_i hphase
    exact .flush c _ hphase rfl
  | flushMark c =>
    simp only [step, SchedState.flushMark, markReady] at hs
    split at hs
    · rename_i x ready hphase
      by_cases hsched : s.Schedulable x
      · rw [if_pos hsched] at hs
        cases hs
        exact .flushMark c x ready hphase hsched
      · rw [if_neg hsched] at hs
        cases hs
        exact .flushSkip c x ready hphase hsched
    · cases hs
  | flushCommit c =>
    simp only [step, SchedState.flushCommit] at hs
    split at hs <;> cases hs
    rename_i x ready hphase
    exact .flushCommit c x ready hphase
  | pick c =>
    simp only [step, pick] at hs
    split at hs <;> cases hs
    rename_i tried hphase
    rcases s.pickFrom_cases c tried with ⟨rest, x, hready, hsub, heq⟩ | ⟨rest, hsub, heq⟩ <;>
      rw [heq]
    · exact .picked c _ tried x rest hphase hready hsub
    · exact .nextSlot c _ tried rest _ hphase hsub (by split <;> simp)
  | replaceCurrent c =>
    simp only [step, replaceCurrent] at hs
    split at hs <;> cases hs
    rename_i next hphase
    cases hcurrent : s.current c with
    | none => exact .first c next hphase hcurrent
    | some prev => exact .replace c prev next hphase hcurrent
  | goIdle c =>
    simp only [step, SchedState.goIdle] at hs
    split at hs
    · rename_i hphase
      split at hs
      · rename_i hidle
        split at hs <;> cases hs
        · rename_i prev hcurrent
          exact .goIdle c prev hphase hidle hcurrent
        · rename_i hcurrent
          exact .stay c hphase (.inr hcurrent)
      · rename_i hidle
        cases hs
        exact .stay c hphase (.inl (by simpa using hidle))
    · cases hs
  | markPrev c =>
    simp only [step, SchedState.markPrev] at hs
    split at hs
    · rename_i x next hphase
      split at hs <;> cases hs
      · rename_i hexited
        exact .keepStatus c x next hphase (.inl hexited)
      · rename_i hblocked
        exact .keepStatus c x next hphase (.inr hblocked)
      · rename_i hexited hblocked
        exact .markPrev c x next hphase hexited hblocked
    · cases hs
  | deferPrev c =>
    simp only [step, SchedState.deferPrev] at hs
    split at hs <;> cases hs
    rename_i prev next hphase
    exact .deferPrev c prev next hphase
  | doSwitch c =>
    simp only [step, SchedState.doSwitch] at hs
    split at hs <;> cases hs
    · rename_i next deferred hphase
      exact .firstSwitch c next deferred hphase
    · rename_i prev next deferred hphase
      exact .doSwitch c prev next deferred hphase
  | block c =>
    simp only [step, SchedState.block] at hs
    split at hs
    · rename_i x hphase hcurrent
      split at hs <;> cases hs
      rename_i hexited
      exact .block c x hphase hcurrent hexited
    · cases hs
  | exit x =>
    cases hs
    exact .exit x
  | wakeStdin x cpu =>
    simp only [step, resume] at hs
    split at hs <;> cases hs
    · rename_i hblocked
      exact .wakeStdin x cpu hblocked
    · exact .noWake x cpu
  | sigCont x cpu =>
    simp only [step, resume] at hs
    split at hs <;> cases hs
    · rename_i hblocked
      exact .sigCont x cpu hblocked
    · exact .noCont x cpu
  | sigStop x =>
    simp only [step, stop] at hs
    split at hs <;> cases hs
    · exact .noStop x
    · rename_i hexited
      exact .sigStop x hexited
  | removeTasks pid slot =>
    cases hs
    exact .removeTasks pid slot _ filter_sublist.subperm
  | addTask x cpu =>
    simp only [step, SchedState.addTask, markReady] at hs
    by_cases hsched : s.Schedulable x
    · rw [if_pos hsched] at hs
      cases hs
      exact .addTask x cpu hsched
    · rw [if_neg hsched] at hs
      cases hs
      exact .noAdd x cpu
  | callMark call =>
    simp only [step, SchedState.callMark, markReady] at hs
    split at hs
    · rename_i hcall
      by_cases hsched : s.Schedulable call.task
      · rw [if_pos hsched] at hs
        cases hs
        exact .callMark call hcall.1 hsched
      · rw [if_neg hsched] at hs
        cases hs
        exact .callDrop call hcall.1
    · cases hs
  | callCommit call =>
    simp only [step, SchedState.callCommit] at hs
    split at hs <;> cases hs
    rename_i hcall
    exact .callCommit call hcall.1

end SchedState

end JanuaryOs.Sched

import JanuaryOs.Proc.ExitFinal

/-!
# Who reaps a zombie?

A process that ends is kept in the table for its parent to collect, or is
removed on the spot if it has none. Nothing is done for the children of a
process that ends: they keep the number of their parent. So a zombie has a
reaper exactly as long as processes end in the right order, children before
parents. A fatal signal does not look at the parent at all, so it leaves a
zombie behind even where an exit would have removed the process.

That the parent of a process lists it among its children is an invariant of
every run.
-/

namespace JanuaryOs.Proc

open Lib TaskManager

/-! ### Calls -/

inductive FamilyOp
  | call (a : ProcOp)
  | spawn (current : Option TaskId) (pid : ProcessId) (tid : TaskId) (mm : MmId)
      (isCloneChild : Bool)
  deriving DecidableEq

variable (s : TaskManager)

/-- `ProcessId::new` and `TaskId::new` never give a number twice. -/
def Unused (current : Option TaskId) (pid : ProcessId) (tid : TaskId) : Prop :=
  s.findProcessByPid pid = none ∧
    (∀ e ∈ s.processes.entries, e.2.parent ≠ some pid ∧ pid ∉ e.2.children ∧ tid ∉ e.2.tasks) ∧
    ∀ t ∈ current, (s.tasks t).pid ≠ pid

instance (current : Option TaskId) (pid : ProcessId) (tid : TaskId) :
    Decidable (Unused s current pid tid) :=
  inferInstanceAs (Decidable (_ ∧ _ ∧ _))

def familyStep : FamilyOp → Option TaskManager
  | .call a => some (s.step a)
  | .spawn current pid tid mm isCloneChild =>
    if Unused s current pid tid then
      some (s.spawnMinimalChild current pid tid mm isCloneChild).1
    else none

/-- A process that ends has no zombie among its children, and its parent is in
the table and not a zombie. It may be without a parent if it ends by itself. -/
def EndsInOrder : FamilyOp → Prop
  | .call a => ∀ pid ∈ dying s a, ∀ p ∈ s.findProcessByPid pid,
      (∀ e ∈ s.processes.entries, e.2.status = .zombie → e.2.parent ≠ some pid) ∧
      (∀ q ∈ p.parent, ∃ pp ∈ s.findProcessByPid q, pp.status ≠ .zombie) ∧
      (p.parent = none → isSignal a = false)
  | .spawn .. => True

instance : (a : FamilyOp) → Decidable (EndsInOrder s a)
  | .call a => inferInstanceAs (Decidable (∀ pid ∈ dying s a, ∀ p ∈ s.findProcessByPid pid,
      (∀ e ∈ s.processes.entries, e.2.status = .zombie → e.2.parent ≠ some pid) ∧
      (∀ q ∈ p.parent, ∃ pp ∈ s.findProcessByPid q, pp.status ≠ .zombie) ∧
      (p.parent = none → isSignal a = false)))
  | .spawn .. => inferInstanceAs (Decidable True)

/-- Somebody waits for the zombie: its parent is in the table, is not a zombie
itself and lists it among its children. -/
def HasReaper (pid : ProcessId) (p : Process) : Prop :=
  ∃ q ∈ p.parent, ∃ pp ∈ s.findProcessByPid q, pp.status ≠ .zombie ∧ pid ∈ pp.children
deriving Decidable

variable {s s' : TaskManager} {a : ProcOp} {pid : ProcessId} {p : Process} {current : Option TaskId}
  {tid : TaskId}

/-! ### Spawning -/

theorem find_spawnKernelThread (mm : MmId) (hnew : Unused s current pid tid) (q : ProcessId) :
    (s.spawnKernelThread current pid tid mm).1.findProcessByPid q
      = if q = pid then some (s.newKernelWithPid current pid tid mm)
        else (s.findProcessByPid q).map fun r =>
          if (current.map fun t => (s.tasks t).pid) = some q then r.addChild pid else r := by
  have hinsert : ∀ (p : Process) (tasks : TaskId → Task) q,
      (TaskManager.mk (s.processes.insert pid p) tasks).findProcessByPid q
        = if q = pid then some p else s.findProcessByPid q :=
    fun p _ q => OrdMap.get?_insert _ _ _ _
  cases current with
  | none =>
    refine (hinsert _ _ q).trans ?_
    split
    · rfl
    · simp
  | some t =>
    have hne : (s.tasks t).pid ≠ pid := hnew.2.2 t rfl
    have hparent : (s.newKernelWithPid (some t) pid tid mm).parent = some (s.tasks t).pid := rfl
    simp only [spawnKernelThread, hparent, hinsert, if_neg hne, Option.map_some,
      Option.some.injEq]
    cases hfound : s.findProcessByPid (s.tasks t).pid with
    | none =>
      dsimp only
      rw [hinsert]
      split
      · rfl
      by_cases hqt : (s.tasks t).pid = q
      · rw [← hqt, hfound]
        rfl
      · simp [hqt]
    | some parent =>
      dsimp only
      rw [find_setProcess, hinsert]
      by_cases hqt : q = (s.tasks t).pid
      · subst hqt
        simp [hne, hfound]
      · simp [hqt, Ne.symm hqt]

theorem find_spawnMinimalChild (mm : MmId) (isCloneChild : Bool) (hnew : Unused s current pid tid) :
    ∃ p, p.status = .running ∧ p.parent = (current.map fun t => (s.tasks t).pid) ∧
      ∀ q, (s.spawnMinimalChild current pid tid mm isCloneChild).1.findProcessByPid q
        = if q = pid then some p
          else (s.findProcessByPid q).map fun r =>
            if p.parent = some q then r.addChild pid else r := by
  have hfind := find_spawnKernelThread mm hnew
  refine ⟨{ s.newKernelWithPid current pid tid mm with isCloneChild := isCloneChild }, rfl, rfl,
    fun q => ?_⟩
  have hpid := hfind pid
  rw [if_pos rfl] at hpid
  simp only [spawnMinimalChild, hpid, find_setProcess, hfind]
  split <;> rfl

/-! ### The invariant -/

/-- The tree of processes: parents list their children, and every zombie has a
parent that is still there. -/
structure Family (s : TaskManager) : Prop where
  linked : ∀ pid p q pp, s.findProcessByPid pid = some p → p.parent = some q →
    s.findProcessByPid q = some pp → pid ∈ pp.children
  proper : ∀ pid p, s.findProcessByPid pid = some p → p.parent ≠ some pid
  reaper : ∀ pid p, s.findProcessByPid pid = some p → p.status = .zombie →
    ∃ q pp, p.parent = some q ∧ s.findProcessByPid q = some pp ∧ pp.status ≠ .zombie

theorem Family.congr (h : Family s)
    (hsame : ∀ q, s'.findProcessByPid q = s.findProcessByPid q) : Family s' := by
  refine ⟨fun pid p q pp hp hq hpp => ?_, fun pid p hp => ?_, fun pid p hp hz => ?_⟩
  · rw [hsame] at hp hpp
    exact h.linked pid p q pp hp hq hpp
  · rw [hsame] at hp
    exact h.proper pid p hp
  · rw [hsame] at hp
    obtain ⟨q, pp, hq, hpp, halive⟩ := h.reaper pid p hp hz
    exact ⟨q, pp, hq, (hsame q).trans hpp, halive⟩

theorem Family.write (h : Family s) {p' : Process} (hp : s.findProcessByPid pid = some p)
    (hparent : p'.parent = p.parent) (hchildren : p'.children = p.children)
    (hdies : p'.status = .zombie → p.status = .zombie ∨
      (∀ q qp, s.findProcessByPid q = some qp → qp.status = .zombie → qp.parent ≠ some pid) ∧
      ∃ q pp, p.parent = some q ∧ s.findProcessByPid q = some pp ∧ pp.status ≠ .zombie)
    (hfind : ∀ q, s'.findProcessByPid q = if q = pid then some p' else s.findProcessByPid q) :
    Family s' := by
  -- every record comes from one with the same family
  have hold : ∀ q r', s'.findProcessByPid q = some r' → ∃ r, s.findProcessByPid q = some r ∧
      r'.parent = r.parent ∧ r'.children = r.children ∧ (q ≠ pid → r' = r) := by
    intro q r' hr'
    rw [hfind] at hr'
    split at hr'
    · rename_i hq
      cases hr'
      exact ⟨p, by rw [hq]; exact hp, hparent, hchildren, fun hne => absurd hq hne⟩
    · exact ⟨r', hr', rfl, rfl, fun _ => rfl⟩
  refine ⟨fun r rp q qp hr hq hqp => ?_, fun r rp hr => ?_, fun r rp hr hz => ?_⟩
  · obtain ⟨r0, hr0, hrparent, -⟩ := hold r rp hr
    obtain ⟨q0, hq0, -, hqchildren, -⟩ := hold q qp hqp
    rw [hqchildren]
    exact h.linked r r0 q q0 hr0 (hrparent ▸ hq) hq0
  · obtain ⟨r0, hr0, hrparent, -⟩ := hold r rp hr
    rw [hrparent]
    exact h.proper r r0 hr0
  · by_cases hrpid : r = pid
    · subst hrpid
      rw [hfind, if_pos rfl] at hr
      cases hr
      have hkeeper : ∃ q pp, p.parent = some q ∧ s.findProcessByPid q = some pp ∧
          pp.status ≠ .zombie := (hdies hz).elim (h.reaper r p hp) (·.2)
      obtain ⟨q, pp, hq, hpp, halive⟩ := hkeeper
      refine ⟨q, pp, hparent.trans hq, ?_, halive⟩
      rw [hfind, if_neg]
      · exact hpp
      · rintro rfl
        exact h.proper q p hp hq
    · rw [hfind, if_neg hrpid] at hr
      obtain ⟨q, qp, hq, hqp, halive⟩ := h.reaper r rp hr hz
      by_cases hqpid : q = pid
      · subst hqpid
        rw [hp] at hqp
        cases hqp
        refine ⟨q, p', hq, by rw [hfind, if_pos rfl], fun hz' => ?_⟩
        rcases hdies hz' with hz' | ⟨hnone, -⟩
        · exact halive hz'
        · exact hnone r rp hr hz hq
      · exact ⟨q, qp, hq, by rw [hfind, if_neg hqpid]; exact hqp, halive⟩

/-- A process is removed that no zombie has as its parent; one other list of
children may become shorter by it. -/
theorem Family.remove (h : Family s)
    (hnone : ∀ q qp, s.findProcessByPid q = some qp → qp.status = .zombie → qp.parent ≠ some pid)
    (hfind : ∀ q r', s'.findProcessByPid q = some r' → q ≠ pid ∧
      ∃ r, s.findProcessByPid q = some r ∧ r'.parent = r.parent ∧ r'.status = r.status ∧
        ∀ x ≠ pid, x ∈ r.children → x ∈ r'.children)
    (hkeep : ∀ q r, q ≠ pid → s.findProcessByPid q = some r →
      ∃ r', s'.findProcessByPid q = some r' ∧ r'.status = r.status) : Family s' := by
  refine ⟨fun r rp q qp hr hq hqp => ?_, fun r rp hr => ?_, fun r rp hr hz => ?_⟩
  · obtain ⟨hrne, r0, hr0, hrparent, -, -⟩ := hfind r rp hr
    obtain ⟨-, q0, hq0, -, -, hchildren⟩ := hfind q qp hqp
    exact hchildren r hrne (h.linked r r0 q q0 hr0 (hrparent ▸ hq) hq0)
  · obtain ⟨-, r0, hr0, hrparent, -, -⟩ := hfind r rp hr
    rw [hrparent]
    exact h.proper r r0 hr0
  · obtain ⟨-, r0, hr0, hrparent, hrstatus, -⟩ := hfind r rp hr
    obtain ⟨q, qp, hq, hqp, halive⟩ := h.reaper r r0 hr0 (hrstatus ▸ hz)
    have hqne : q ≠ pid := by
      rintro rfl
      exact hnone r r0 hr0 (hrstatus ▸ hz) hq
    obtain ⟨qp', hqp', hqstatus⟩ := hkeep q qp hqne hqp
    exact ⟨q, qp', hrparent.trans hq, hqp', hqstatus ▸ halive⟩

/-- What the condition says about the process that ends. -/
theorem endsInOrder_spec (hok : EndsInOrder s (.call a)) (hdies : dying s a = some pid)
    (hp : s.findProcessByPid pid = some p) :
    (∀ q qp, s.findProcessByPid q = some qp → qp.status = .zombie → qp.parent ≠ some pid) ∧
      (∀ q ∈ p.parent, ∃ pp ∈ s.findProcessByPid q, pp.status ≠ .zombie) ∧
      (p.parent = none → isSignal a = false) := by
  obtain ⟨hchildren, hparent, hsignal⟩ := hok pid hdies p hp
  exact ⟨fun q qp hqp hz => hchildren (q, qp) (OrdMap.mem_entries_iff.2 hqp) hz, hparent, hsignal⟩

theorem Family.call (h : Family s) (hok : EndsInOrder s (.call a)) : Family (s.step a) := by
  cases step_table s a with
  | keep hsame => exact h.congr hsame
  | write pid p p' hp hparent hchildren _ _ hzombie hfind =>
    refine h.write hp hparent hchildren (fun hz => ?_) hfind
    refine (hzombie hz).imp id fun ⟨hdies, hsignal⟩ => ?_
    obtain ⟨hnone, hkeeper, hnosignal⟩ := endsInOrder_spec hok hdies hp
    refine ⟨hnone, ?_⟩
    cases hq : p.parent with
    | none =>
      rw [hsignal hq] at hnosignal
      cases hnosignal hq
    | some q =>
      obtain ⟨pp, hpp, halive⟩ := hkeeper q hq
      exact ⟨q, pp, rfl, hpp, halive⟩
  | orphan pid p hp hdies hfind =>
    refine h.remove (endsInOrder_spec hok hdies hp).1 (fun q r' hr' => ?_) fun q r hq hr => ?_
    · rw [hfind] at hr'
      split at hr'
      · cases hr'
      · rename_i hq
        exact ⟨hq, r', hr', rfl, rfl, fun x _ hx => hx⟩
    · exact ⟨r, by rw [hfind, if_neg hq]; exact hr, rfl⟩
  | reap ppid child pp c hc hzombie hpp hfind =>
    -- a zombie is not the parent of a zombie
    have hnone : ∀ q qp, s.findProcessByPid q = some qp → qp.status = .zombie →
        qp.parent ≠ some child := fun q qp hqp hz hparent => by
      obtain ⟨q', pp', hq', hpp', halive⟩ := h.reaper q qp hqp hz
      rw [hparent] at hq'
      cases hq'
      rw [hc] at hpp'
      cases hpp'
      exact halive hzombie
    refine h.remove hnone (fun q r' hr' => ?_) fun q r hq hr => ?_
    · rw [hfind] at hr'
      split at hr'
      · cases hr'
      rename_i hq
      refine ⟨hq, ?_⟩
      split at hr'
      · rename_i hqp
        cases hr'
        subst hqp
        exact ⟨pp, hpp hq, rfl, rfl, fun x hx hmem => (List.mem_erase_of_ne hx).2 hmem⟩
      · exact ⟨r', hr', rfl, rfl, fun x _ hx => hx⟩
    · rw [hfind, if_neg hq]
      split
      · rename_i hqp
        subst hqp
        rw [hpp hq] at hr
        cases hr
        exact ⟨_, rfl, rfl⟩
      · exact ⟨r, hr, rfl⟩

theorem mem_addChild {child x : ProcessId} :
    x ∈ (p.addChild child).children ↔ x ∈ p.children ∨ x = child := by
  unfold Process.addChild
  split
  · rename_i hmem
    exact ⟨.inl, fun h => h.elim id fun h => h ▸ hmem⟩
  · exact List.mem_append.trans (or_congr_right List.mem_singleton)

theorem Family.spawn (h : Family s) (mm : MmId) (isCloneChild : Bool)
    (hnew : Unused s current pid tid) :
    Family (s.spawnMinimalChild current pid tid mm isCloneChild).1 := by
  obtain ⟨p, hrunning, hparent, hfind⟩ := find_spawnMinimalChild mm isCloneChild hnew
  generalize (s.spawnMinimalChild current pid tid mm isCloneChild).1 = s' at hfind
  have hunused : ∀ q r, s.findProcessByPid q = some r → r.parent ≠ some pid := fun q r hr =>
    (hnew.2.1 (q, r) (OrdMap.mem_entries_iff.2 hr)).1
  have hself : p.parent ≠ some pid := by
    rw [hparent]
    intro hp
    obtain ⟨t, ht, htp⟩ := Option.map_eq_some_iff.1 hp
    exact hnew.2.2 t ht htp
  -- every other record has at most become longer by the child
  have hold : ∀ q r', q ≠ pid → s'.findProcessByPid q = some r' →
      ∃ r, s.findProcessByPid q = some r ∧ r'.parent = r.parent ∧ r'.status = r.status ∧
        (∀ x ∈ r.children, x ∈ r'.children) ∧ (p.parent = some q → pid ∈ r'.children) := by
    intro q r' hq hr'
    rw [hfind, if_neg hq] at hr'
    obtain ⟨r, hr, rfl⟩ := Option.map_eq_some_iff.1 hr'
    refine ⟨r, hr, ?_⟩
    split
    · refine ⟨?_, ?_, fun x hx => mem_addChild.2 (.inl hx), fun _ => mem_addChild.2 (.inr rfl)⟩
      · unfold Process.addChild
        split <;> rfl
      · unfold Process.addChild
        split <;> rfl
    · rename_i hne
      exact ⟨rfl, rfl, fun x hx => hx, fun hq => absurd hq hne⟩
  refine ⟨fun r rp q qp hr hq hqp => ?_, fun r rp hr => ?_, fun r rp hr hz => ?_⟩
  · have hqne : q ≠ pid := by
      rintro rfl
      by_cases hrq : r = q
      · subst hrq
        rw [hfind, if_pos rfl] at hr
        cases hr
        exact hself hq
      · obtain ⟨r0, hr0, hrparent, -⟩ := hold r rp hrq hr
        exact hunused r r0 hr0 (hrparent ▸ hq)
    obtain ⟨q0, hq0, -, -, hchildren, hchild⟩ := hold q qp hqne hqp
    by_cases hrpid : r = pid
    · subst hrpid
      rw [hfind, if_pos rfl] at hr
      cases hr
      exact hchild hq
    · obtain ⟨r0, hr0, hrparent, -⟩ := hold r rp hrpid hr
      exact hchildren r (h.linked r r0 q q0 hr0 (hrparent ▸ hq) hq0)
  · by_cases hrpid : r = pid
    · subst hrpid
      rw [hfind, if_pos rfl] at hr
      cases hr
      exact hself
    · obtain ⟨r0, hr0, hrparent, -⟩ := hold r rp hrpid hr
      rw [hrparent]
      exact h.proper r r0 hr0
  · by_cases hrpid : r = pid
    · subst hrpid
      rw [hfind, if_pos rfl] at hr
      cases hr
      rw [hrunning] at hz
      cases hz
    · obtain ⟨r0, hr0, hrparent, hrstatus, -⟩ := hold r rp hrpid hr
      obtain ⟨q, qp, hq, hqp, halive⟩ := h.reaper r r0 hr0 (hrstatus ▸ hz)
      have hqne : q ≠ pid := by
        rintro rfl
        rw [hnew.1] at hqp
        cases hqp
      have hq' := hfind q
      rw [if_neg hqne, hqp, Option.map_some] at hq'
      obtain ⟨q0, hq0, -, hqstatus, -⟩ := hold q _ hqne hq'
      rw [hqp] at hq0
      cases hq0
      exact ⟨q, _, hrparent.trans hq, hq', hqstatus ▸ halive⟩

theorem Family.step (h : Family s) {a : FamilyOp} (hok : EndsInOrder s a)
    (hs : familyStep s a = some s') : Family s' := by
  cases a with
  | call a =>
    cases hs
    exact h.call hok
  | spawn current pid tid mm isCloneChild =>
    simp only [familyStep] at hs
    split at hs
    · rename_i hnew
      cases hs
      exact h.spawn mm isCloneChild hnew
    · cases hs

/-! ### Runs -/

/-- In every run in which processes end in order, every zombie has somebody to
collect it. -/
theorem zombie_hasReaper {s0 s : TaskManager} {as : List FamilyOp} (hinit : Family s0)
    (hrun : Run (Guarded EndsInOrder (ofPartial familyStep)) s0 as s) {pid : ProcessId}
    {p : Process} (hp : s.findProcessByPid pid = some p) (hz : p.status = .zombie) :
    HasReaper s pid p := by
  have hfamily : Family s := by
    refine hrun.invariant Family ?_ hinit
    rintro s a s' hs ⟨hok, hstep⟩
    exact hs.step hok hstep
  obtain ⟨q, pp, hq, hpp, halive⟩ := hfamily.reaper pid p hp hz
  exact ⟨q, hq, pp, hpp, halive, hfamily.linked pid p q pp hp hq hpp⟩

/-- Before the first process. -/
def noProcess : TaskManager where
  processes := OrdMap.empty
  tasks := fun _ => default

/-- Process 1 has a child 2, which has a child 3. -/
def threeGenerations : List FamilyOp :=
  [.spawn none 1 10 0 false, .spawn (some 10) 2 20 7 false, .spawn (some 20) 3 30 8 false]

/-- Grandchild and child exit in this order and are collected. -/
def oldestLast : List FamilyOp :=
  threeGenerations ++ [.call (.exitCurrentProcess 30 0), .call (.reapObservedChild 20 3),
    .call (.exitCurrentProcess 20 0)]

theorem family_noProcess : Family noProcess := by
  refine ⟨fun _ _ _ _ h => ?_, fun _ _ h => ?_, fun _ _ h => ?_⟩ <;> cases h

theorem zombie_hasReaper_oldestLast :
    Family noProcess ∧
    ∃ s, Run (Guarded EndsInOrder (ofPartial familyStep)) noProcess oldestLast s ∧
      ∃ p, s.findProcessByPid 2 = some p ∧ p.status = .zombie ∧ HasReaper s 2 p := by
  refine ⟨family_noProcess, Run.exists_of_exec (Q := fun s =>
    (s.findProcessByPid 2).map Process.status = some .zombie) (by decide) fun s hrun hstatus => ?_⟩
  obtain ⟨p, hp, hz⟩ := Option.map_eq_some_iff.1 hstatus
  exact ⟨p, hp, hz, zombie_hasReaper family_noProcess hrun hp hz⟩

/-- After the calls the process is a zombie that nobody can collect. -/
def LeavesZombie (pid : ProcessId) (as : List FamilyOp) : Prop :=
  ∃ s, Run (ofPartial familyStep) noProcess as s ∧
    ∃ p, s.findProcessByPid pid = some p ∧ p.status = .zombie ∧ ¬ HasReaper s pid p

theorem leavesZombie_of_exec {as : List FamilyOp}
    (hexec : Executes (fun _ _ => True) familyStep noProcess as fun s =>
      ∃ p ∈ s.findProcessByPid pid, p.status = .zombie ∧ ¬ HasReaper s pid p) :
    LeavesZombie pid as :=
  Run.exists_of_exec_free _ hexec fun _ _ h => h

/-- Process 2 exits before its child 3. Or process 1, which has no parent, is
killed. -/
theorem zombie_without_reaper :
    LeavesZombie 3 (threeGenerations ++
      [.call (.exitCurrentProcess 20 0), .call (.exitCurrentProcess 30 0)]) ∧
    LeavesZombie 1 (threeGenerations ++ [.call (.sendSignal (some 2) 1 SIGKILL)]) :=
  ⟨leavesZombie_of_exec (by decide), leavesZombie_of_exec (by decide)⟩

end JanuaryOs.Proc

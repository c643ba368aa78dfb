import JanuaryOs.Exec.System
import JanuaryOs.Exec.WholeImage

/-!
# `execve` of a child that shares the address space of its parent

`clone_current` with `CLONE_VM` hands the address space of the caller on to the
child, with one reference more and with no record of pages. `execve` edits the
address space it finds; it does not give the child one of its own. So whatever
the call changes, it changes for the parent, and a call that succeeds always
changes something.
-/

namespace JanuaryOs.Exec

open Lib Virt Virt.Kernel Proc List

variable {k k' : Kernel} {id : MmId} {x : ExecEnv} {pathPtr argvPtr envpPtr : ℕ} {p : Process}

/-- A new process has the address space it was given and no record. -/
theorem spawnMinimalChild_process {m : TaskManager} {current : Option TaskId} {pid : ProcessId}
    {tid : TaskId} {mm : MmId} {isCloneChild : Bool}
    (hp : (m.spawnMinimalChild current pid tid mm isCloneChild).1.findProcessByPid pid = some p) :
    p.mm = mm ∧ p.execMappings = [] := by
  have hspawned : ∀ q, (m.spawnKernelThread current pid tid mm).1.findProcessByPid pid = some q →
      q.mm = mm ∧ q.execMappings = [] := by
    intro q hq
    unfold TaskManager.spawnKernelThread at hq
    simp only at hq
    -- the parent may not be there, and it gets a child otherwise
    split at hq
    · rw [TaskManager.findProcessByPid, OrdMap.get?_insert_self] at hq
      cases hq
      exact ⟨rfl, rfl⟩
    · rename_i ppid _
      split at hq
      · rw [TaskManager.findProcessByPid, OrdMap.get?_insert_self] at hq
        cases hq
        exact ⟨rfl, rfl⟩
      rename_i r hr
      rw [TaskManager.find_setProcess] at hq
      split at hq
      · rename_i heq
        rw [← heq, TaskManager.findProcessByPid, OrdMap.get?_insert_self] at hr
        cases hr
        cases hq
        unfold Process.addChild
        split <;> exact ⟨rfl, rfl⟩
      · rw [TaskManager.findProcessByPid, OrdMap.get?_insert_self] at hq
        cases hq
        exact ⟨rfl, rfl⟩
  unfold TaskManager.spawnMinimalChild at hp
  cases hq : (m.spawnKernelThread current pid tid mm).1.findProcessByPid pid with
  | none =>
    simp only [hq] at hp
    cases hp
  | some q =>
    simp only [hq, TaskManager.find_setProcess, if_true] at hp
    cases hp
    exact hspawned q hq

/-- The child of a task that shares its address space starts without a record. -/
theorem System.cloneCurrent_shared {s s' : System} {tid child : TaskId} {args : CloneArgs}
    {pid c : ProcessId} (h : s.cloneCurrent tid args pid child = (.ok c, s'))
    (hvm : args.has CloneArgs.CLONE_VM = true) (hp : s'.tasks.findProcessByPid c = some p) :
    p.mm = s.currentMm tid ∧ p.execMappings = [] := by
  unfold cloneCurrent at h
  cases hcheck : args.check with
  | error e =>
    rw [hcheck] at h
    cases h
  | ok _ =>
    simp only [hcheck, hvm, if_true, resolveChildMm] at h
    cases h
    exact spawnMinimalChild_process hp

/-- The call changes nothing: its arguments are on present pages, and it fails,
for want of a plan or of what the plan takes. -/
def ChangesNothing (x : ExecEnv) (k : Kernel) (id : MmId) (pathPtr argvPtr envpPtr : ℕ) : Prop :=
  ∃ r, peekPayload k id pathPtr argvPtr envpPtr = some r ∧
    ∀ payload plan, r = .ok payload → x.plan? payload.path = some plan →
      ¬ Loads k id [] plan payload

theorem Replaced.space_ne {plan : ExecLoadPlan} {imageLen : ℕ} {staged : List ExecMappedPage}
    {payload : ExecPayload} (h : Replaced k id [] plan staged k') (hplan : plan.Ok imageLen)
    (hloads : Loads k id [] plan payload) : k'.mms.get? id ≠ k.mms.get? id := by
  intro heq
  obtain ⟨p, hp⟩ : ∃ p, p ∈ plan.stackStagePages := by
    refine ⟨_, mem_map.2 ⟨0, mem_range.2 ?_, rfl⟩⟩
    rw [hplan.stackPages]
    decide
  have hp : p ∈ plan.stagePages := mem_append_right _ hp
  have hpres : k'.pte id (pageNumber p.virt) ≠ none :=
    (h.present_iff _).2 (.inl (mem_map_of_mem hp))
  rw [(space_eq_iff.1 heq).2] at hpres
  exact nomatch hloads.target p hp hpres

theorem unrecorded_space_eq_iff (hwords : WordsAt k id) {r : Except Errno UserFrame}
    {recorded' : List ExecMappedPage}
    (h : sysExecve x id [] pathPtr argvPtr envpPtr k = some (r, k', recorded')) :
    k'.mms.get? id = k.mms.get? id ↔ ChangesNothing x k id pathPtr argvPtr envpPtr := by
  obtain ⟨read, k1, ⟨hpeek, rfl⟩ | ⟨hpeek, hfaulted⟩, hcase⟩ := sysExecve_cases hwords (by simp) h
  · rw [ChangesNothing, hpeek]
    simp only [Option.some.injEq, exists_eq_left']
    rcases hcase with ⟨hplan, rfl⟩ |
      ⟨payload, plan, _, rfl, hplan, hok, ⟨hloads, -, hdone⟩ | ⟨hloads, hback⟩⟩
    · exact iff_of_true rfl fun q plan hq hsome => nomatch (hplan q hq).symm.trans hsome
    · exact iff_of_false (hdone.space_ne hok hloads) fun h => h payload plan rfl hplan hloads
    · refine iff_of_true ?_ fun q plan' hq hsome => ?_
      · rw [hback.space_eq_iff, RecordFaithful]
        split <;> exact forall_mem_nil _
      · cases hq
        cases hplan.symm.trans hsome
        exact hloads
  · rw [ChangesNothing, hpeek]
    refine iff_of_false (fun heq => ?_) ?_
    · obtain ⟨-, n, habs, hpres⟩ := hfaulted
      have hsame := (space_eq_iff.1 heq).2 n
      rw [habs] at hsame
      rcases hcase with ⟨-, rfl⟩ | ⟨_, _, _, -, -, -, ⟨-, -, hdone⟩ | ⟨-, hback⟩⟩
      · exact hpres hsame
      · exact (hdone.present_iff n).2 (.inr ⟨not_mem_nil, hpres⟩) hsame
      · rw [hback.others id n fun hin => not_mem_nil hin.2] at hsame
        exact hpres hsame
    · rintro ⟨_, hnone, -⟩
      cases hnone

/-- The address space of a parent that has a child by `vfork` is after an
`execve` of the child as it was before, areas, layout and translations, exactly
if the call changes nothing at all. -/
theorem vfork_execve_isolated_iff {s s' : System} {tid child : TaskId} {args : CloneArgs}
    {pid c : ProcessId} (hclone : s.cloneCurrent tid args pid child = (.ok c, s'))
    (hvm : args.has CloneArgs.CLONE_VM = true) {p : Process}
    (hp : s'.tasks.findProcessByPid c = some p) (hwords : WordsAt k (s.currentMm tid))
    {r : Except Errno UserFrame} {recorded' : List ExecMappedPage}
    (hexec : sysExecve x p.mm p.execMappings pathPtr argvPtr envpPtr k = some (r, k', recorded')) :
    k'.mms.get? (s.currentMm tid) = k.mms.get? (s.currentMm tid) ↔
      ChangesNothing x k (s.currentMm tid) pathPtr argvPtr envpPtr := by
  obtain ⟨hmm, hrecorded⟩ := s.cloneCurrent_shared hclone hvm hp
  rw [hmm, hrecorded] at hexec
  exact unrecorded_space_eq_iff hwords hexec

/-- A process without a program that has written the name `a` to a page of its
own. -/
def named : System where
  memory := [(({} : Env), mapAt 0x10000000 (protRead ||| protWrite)),
    ({ frames := [some 10] }, touch 0x10000000),
    ({}, .store 1 0x10000000 0x61)].foldl memStep oneMm
  tasks :=
    { processes := OrdMap.empty.insert 1 { pid := 1, pgid := 1, mm := 1, tasks := [10] }
      tasks := fun _ => ⟨1, .running, none⟩ }

/-- The flags of `vfork_current`. -/
def vforkArgs : CloneArgs := { flags := 17 ||| CloneArgs.CLONE_VM ||| CloneArgs.CLONE_VFORK }

/-- The process has a child by `vfork`. -/
def vforked : Except Errno ProcessId × System := named.cloneCurrent 10 vforkArgs 2 20

/-- The memory when the child calls `execve`, with frames for the program or
without. -/
def vforkedMemory (frames : List Pfn) : Kernel :=
  { vforked.2.memory with env := { frames := frames.map some } }

theorem vforked_eq : vforked = (.ok 2, vforked.2) ∧
    ((vforked.2.tasks.findProcessByPid 2).map fun p => (p.mm, p.execMappings)) = some (1, []) := by
  refine ⟨?_, by decide⟩
  have hok : vforked.1.toOption = some 2 := by decide
  generalize vforked = v at hok
  obtain ⟨_ | c, s⟩ := v
  · cases hok
  · cases hok
    rfl

/-- Without frames the child fails and the parent does not notice. -/
theorem vfork_execve_isolated_noFrames : ∃ r k' recorded',
    sysExecve smallEnv 1 [] 0x10000000 0 0 (vforkedMemory []) = some (r, k', recorded') ∧
      k'.mms.get? 1 = (vforkedMemory []).mms.get? 1 := by
  have hcall : (sysExecve smallEnv 1 [] 0x10000000 0 0 (vforkedMemory [])).isSome = true := by
    decide +kernel
  obtain ⟨⟨r, k', recorded'⟩, hexec⟩ := Option.isSome_iff_exists.1 hcall
  refine ⟨r, k', recorded', hexec, ?_⟩
  obtain ⟨p, hp, hpair⟩ := Option.map_eq_some_iff.1 vforked_eq.2
  obtain ⟨hmm, hrecorded⟩ := Prod.mk.inj hpair
  have hcur : named.currentMm 10 = 1 := by decide
  have hpeek : (peekPayload (vforkedMemory []) 1 0x10000000 0 0).isSome = true := by decide
  obtain ⟨read, hpeek⟩ := Option.isSome_iff_exists.1 hpeek
  have hiff := vfork_execve_isolated_iff vforked_eq.1 (by decide) hp
    (k := vforkedMemory []) (by decide) (by rw [hmm, hrecorded]; exact hexec)
  rw [hcur] at hiff
  refine hiff.2 ⟨read, hpeek, fun payload plan _ hplan hloads => ?_⟩
  have hread : smallEnv.readAll payload.path = .ok smallProgram := rfl
  have hsmall : smallEnv.plan? payload.path = some smallPlan := by
    simp only [ExecEnv.plan?, hread, buildElfLoadPlan_small, Except.toOption]
  cases hsmall.symm.trans hplan
  exact absurd hloads.frames (by decide)

/-- With frames the child succeeds, and the parent has its program. -/
theorem vfork_child_replaces_parent :
    ((vforked.2.tasks.findProcessByPid 2).map fun p => (p.mm, p.execMappings)) = some (1, []) ∧
      (vforkedMemory (range' 1 9)).translate 1 0x400000 = none ∧
      (sysExecve smallEnv 1 [] 0x10000000 0 0 (vforkedMemory (range' 1 9))).map
        (fun r => (r.1.toOption.isSome, r.2.1.translate 1 0x400000)) =
          some (true, some ⟨1, ⟨false, false⟩⟩) := by
  decide +kernel

end JanuaryOs.Exec

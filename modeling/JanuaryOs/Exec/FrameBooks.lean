import JanuaryOs.Exec.ExecBooks
import JanuaryOs.Exec.VforkExec
import JanuaryOs.Proc.ExitFinal

/-!
# Who holds the frames of user space, over whole runs

A frame is referred to by page table entries, by its reference count and by the
records that `execve` leaves with a process. The first two agree as long as the
third one is right when it is used: on the next `execve`, when the process
exits, and when its parent collects it. `PageOk` says what has to be true of the
record at these points, and every run whose calls meet it keeps the books.
-/

namespace JanuaryOs.Exec

open Lib Virt Virt.Kernel Proc Proc.TaskManager List

/-! ### The calls -/

/-- The calls that hand out, share or release frames of user space. -/
inductive PageOp
  | fault (tid : TaskId) (addr : ℕ) (error : PageFaultError)
  | munmap (tid : TaskId) (addr length : ℕ)
  | clone (tid : TaskId) (args : CloneArgs) (pid : ProcessId) (child : TaskId)
  | execve (tid : TaskId) (x : ExecEnv) (payload : ExecPayload)
  | exitProcess (tid : TaskId) (code : ℤ)
  | signal (tid : TaskId) (pid : ProcessId) (sig : ℤ)
  | reap (tid : TaskId) (child : ProcessId)
  | reapOrphan (tid : TaskId) (pid : ProcessId)

/-- The system with the answers that the next call gets from outside. -/
def System.withEnv (s : System) (env : Env) : System :=
  { s with memory := { s.memory with env := env } }

/-- One call of a task; nothing if the machine stops. Reading the arguments of
`execve` takes the faults it takes before the call. -/
def pageStep (s : System) (call : Env × PageOp) : Option System :=
  let s := s.withEnv call.1
  match call.2 with
  | .fault tid addr error => some { s with
      memory := (s.memory.handlePageFault (s.recorded tid) (s.currentMm tid) addr error).2 }
  | .munmap tid addr length => some { s with
      memory := (s.memory.sysMunmap (s.currentMm tid) addr length).2 }
  | .clone tid args pid child => some (s.cloneCurrent tid args pid child).2
  | .execve tid x payload => s.execve tid x payload
  | .exitProcess tid code => some (s.exitCurrentProcess tid code)
  | .signal tid pid sig => some (s.sendSignal tid pid sig)
  | .reap tid child => some (s.reapObservedChild tid child)
  | .reapOrphan tid pid => some (s.reapOrphanZombieProcess tid pid)

/-! ### The condition -/

/-- The child that a task collects. -/
def System.collected (s : System) (tid : TaskId) (child : ProcessId) : Option Process :=
  match s.tasks.parentOwnsChild tid child with
  | none => none
  | some _ => (s.tasks.findProcessByPid child).filter fun c => c.status = .zombie

/-- The pages of the caller that collecting a child unmaps, after the address
space of the child has gone. -/
def reapedFrames (k : Kernel) (current : MmId) (c : Process) : List Pfn :=
  if current = c.mm ∧ k.LastReference c.mm then [] else liveFrames k current c.execMappings

/-- The condition on a call: copying an address space overflows no counter, and
a record that is used agrees with the page table it is used on. -/
def PageOk (s : System) (call : Env × PageOp) : Prop :=
  let s := s.withEnv call.1
  match call.2 with
  | .fault .. | .munmap .. | .signal .. | .reapOrphan .. => True
  | .clone tid args _ _ => args.has CloneArgs.CLONE_VM = false →
      ∀ mm, s.memory.mms.get? (s.currentMm tid) = some mm →
        s.memory.CloneRoom (s.currentMm tid) (cloneTodo mm.vmaTree.toList)
  | .execve tid x payload => ∀ p, s.process tid = some p →
      ExecBalanced x s.memory p.mm p.execMappings payload
  | .exitProcess tid _ =>
    Balanced (liveFrames s.memory (s.currentMm tid) (s.recorded tid)) s.memory.maps
      (s.recorded tid)
  | .reap tid child => ∀ c, s.collected tid child = some c →
      Balanced (reapedFrames s.memory (s.currentMm tid) c)
        (fun f => s.memory.maps f - s.memory.releasedMaps c.mm f) c.execMappings

/-! ### Records -/

/-- The pages on record are distinct and on frames of user space. -/
def RecordOk (K : Pfn → Prop) (p : Process) : Prop :=
  (p.execMappings.map page).Nodup ∧ ∀ m ∈ p.execMappings, ¬ K m.phys

/-- The books of the frames and the records of all processes. -/
structure Booked (K : Pfn → Prop) (s : System) : Prop where
  books : s.memory.Books K
  records : ∀ pid p, s.tasks.findProcessByPid pid = some p → RecordOk K p

/-- Every record of the new table is empty or in the old table. -/
def RecordsFrom (m m' : TaskManager) : Prop :=
  ∀ pid p', m'.findProcessByPid pid = some p' → p'.execMappings = [] ∨
    ∃ q p, m.findProcessByPid q = some p ∧ p'.execMappings = p.execMappings

variable {K : Pfn → Prop} {m m' m1 : TaskManager} {s s' : System}

theorem RecordsFrom.trans (h1 : RecordsFrom m m1) (h2 : RecordsFrom m1 m') : RecordsFrom m m' := by
  intro pid p' hp
  rcases h2 pid p' hp with hnil | ⟨q, p, hq, heq⟩
  · exact .inl hnil
  · rcases h1 q p hq with hnil | ⟨q', p0, hq', heq'⟩
    · exact .inl (heq.trans hnil)
    · exact .inr ⟨q', p0, hq', heq.trans heq'⟩

variable {pid : ProcessId} {tid : TaskId} {p : Process} {k : Kernel}

theorem RecordsFrom.setProcess (h : p.execMappings = [] ∨
    ∃ q p0, m.findProcessByPid q = some p0 ∧ p.execMappings = p0.execMappings) :
    RecordsFrom m (m.setProcess pid p) := by
  intro q p' hp
  rw [find_setProcess] at hp
  split at hp
  · cases hp
    exact h
  · exact .inr ⟨q, p', hp, rfl⟩

theorem Booked.records_from (h : Booked K s) (hfrom : RecordsFrom s.tasks m')
    (hp : m'.findProcessByPid pid = some p) : RecordOk K p := by
  rcases hfrom pid p hp with hnil | ⟨q, p0, hq, heq⟩
  · rw [RecordOk, hnil]
    exact ⟨.nil, nofun⟩
  · rw [RecordOk, heq]
    exact h.records q p0 hq

theorem RecordsFrom.of_change {a : ProcOp} (h : TableChange m a m') : RecordsFrom m m' := by
  intro q r' hr'
  cases h with
  | keep hsame => exact .inr ⟨q, r', (hsame q).symm.trans hr', rfl⟩
  | write pid p p' hp _ _ hrecord _ _ hfind =>
    rw [hfind] at hr'
    split at hr'
    · cases hr'
      exact hrecord.imp_right fun heq => ⟨pid, p, hp, heq⟩
    · exact .inr ⟨q, r', hr', rfl⟩
  | orphan pid p _ _ hfind =>
    rw [hfind] at hr'
    split at hr'
    · cases hr'
    · exact .inr ⟨q, r', hr', rfl⟩
  | reap ppid child pp c _ _ hpp hfind =>
    rw [hfind] at hr'
    split at hr'
    · cases hr'
    rename_i hq
    split at hr'
    · rename_i hqp
      cases hr'
      exact .inr ⟨ppid, pp, hpp (hqp ▸ hq), rfl⟩
    · exact .inr ⟨q, r', hr', rfl⟩

theorem reapOrphanZombieProcess_from (m : TaskManager) (pid : ProcessId) :
    RecordsFrom m (m.reapOrphanZombieProcess pid).1 := by
  intro q p' hp
  unfold TaskManager.reapOrphanZombieProcess at hp
  split at hp
  · exact .inr ⟨q, p', hp, rfl⟩
  split at hp
  · rw [find_removeProcess] at hp
    split at hp
    · cases hp
    · exact .inr ⟨q, p', hp, rfl⟩
  · exact .inr ⟨q, p', hp, rfl⟩

theorem spawnMinimalChild_from (m : TaskManager) (current : Option TaskId) (pid : ProcessId)
    (tid : TaskId) (mm : MmId) (isCloneChild : Bool) :
    RecordsFrom m (m.spawnMinimalChild current pid tid mm isCloneChild).1 := by
  have hspawned : RecordsFrom m (m.spawnKernelThread current pid tid mm).1 := by
    have hnew : RecordsFrom m
        { processes := m.processes.insert pid (m.newKernelWithPid current pid tid mm)
          tasks := Function.update m.tasks tid ⟨pid, .ready, none⟩ } := by
      intro q p' hp
      rw [findProcessByPid, OrdMap.get?_insert] at hp
      split at hp
      · cases hp
        exact .inl rfl
      · exact .inr ⟨q, p', hp, rfl⟩
    unfold TaskManager.spawnKernelThread
    simp only
    split
    · exact hnew
    split
    · exact hnew
    rename_i r hr
    refine hnew.trans (.setProcess (.inr ⟨_, r, hr, ?_⟩))
    unfold Process.addChild
    split <;> rfl
  unfold TaskManager.spawnMinimalChild
  simp only
  split
  · exact hspawned
  · rename_i p hp
    exact hspawned.trans (.setProcess (.inr ⟨pid, p, hp, rfl⟩))

/-! ### Calls to memory -/

/-- The call undoes recorded pages. -/
def Effect.IsRollback : Effect → Prop
  | .rollbackExecMappings _ => True
  | _ => False

theorem foldl_applyEffect_books (h : k.Books K) (current : MmId) {effects : List Effect}
    (hno : ∀ e ∈ effects, ¬ Effect.IsRollback e) :
    (effects.foldl (System.applyEffect current) k).Books K := by
  induction effects generalizing k with
  | nil => exact h
  | cons e rest ih =>
    refine ih ?_ fun e' he' => hno e' (.tail _ he')
    cases e with
    | rollbackExecMappings ms => exact (hno _ (.head _) trivial).elim
    | dropProcessFds pid => exact h.congr rfl rfl
    | mmRelease id => exact mmRelease_books h id
    | removeTasksByPid pid
    | addTask tid => exact h

theorem reapOrphanZombieProcess_noRollback (m : TaskManager) (pid : ProcessId) :
    ∀ e ∈ (m.reapOrphanZombieProcess pid).2, ¬ Effect.IsRollback e := by
  unfold TaskManager.reapOrphanZombieProcess
  cases m.findProcessByPid pid with
  | none => exact nofun
  | some p =>
    simp only
    split
    · intro e he
      fin_cases he <;> exact id
    · exact nofun

theorem wakeTasks_noRollback (m : TaskManager) (tids : List TaskId) :
    ∀ e ∈ (m.wakeTasks tids).2, ¬ Effect.IsRollback e := by
  induction tids generalizing m with
  | nil => exact nofun
  | cons tid tids ih =>
    intro e he
    rw [wakeTasks] at he
    simp only at he
    split at he
    · rcases mem_cons.1 he with rfl | he
      · exact id
      · exact ih _ e he
    · exact ih _ e he

theorem sendSignal_noRollback (m : TaskManager) (current : Option ProcessId) (pid : ProcessId)
    (sig : ℤ) : ∀ e ∈ (m.sendSignal current pid sig).2.2, ¬ Effect.IsRollback e := by
  have hone : ∀ e ∈ [Effect.removeTasksByPid pid], ¬ Effect.IsRollback e := by
    intro e he
    cases mem_singleton.1 he
    exact id
  unfold TaskManager.sendSignal
  cases m.findProcessByPid pid with
  | none => exact nofun
  | some p =>
    simp only
    split_ifs
    · exact nofun
    · exact hone
    · exact hone
    · exact wakeTasks_noRollback _ _
    · exact nofun

/-- The recorded pages of a process that exits are undone first. -/
theorem exitCurrentProcess_effects (m : TaskManager) (tid : TaskId) (code : ℤ) :
    (m.findProcessByPid (m.tasks tid).pid = none ∧ (m.exitCurrentProcess tid code).2 = []) ∨
    ∃ p rest, m.findProcessByPid (m.tasks tid).pid = some p ∧
      (m.exitCurrentProcess tid code).2 =
        (if p.execMappings.isEmpty then [] else [.rollbackExecMappings p.execMappings]) ++ rest ∧
      ∀ e ∈ rest, ¬ Effect.IsRollback e := by
  simp only [TaskManager.exitCurrentProcess]
  cases hp : m.findProcessByPid (m.tasks tid).pid with
  | none => exact .inl ⟨rfl, rfl⟩
  | some p =>
    have hone : ∀ e ∈ [Effect.removeTasksByPid (m.tasks tid).pid], ¬ Effect.IsRollback e := by
      intro e he
      cases mem_singleton.1 he
      exact id
    simp only
    split
    · refine .inr ⟨p, _, rfl, append_assoc _ _ _, fun e he => ?_⟩
      rcases mem_append.1 he with he | he
      · exact hone e he
      · exact reapOrphanZombieProcess_noRollback _ _ e he
    · exact .inr ⟨p, _, rfl, rfl, hone⟩

theorem foldl_rollback (current : MmId) (k : Kernel) (ms : List ExecMappedPage) :
    ((if ms.isEmpty then [] else [.rollbackExecMappings ms]).foldl (System.applyEffect current) k) =
      rollbackExecMappings k current ms := by
  cases ms with
  | nil
  | cons m rest => rfl

/-! ### Each call keeps the books -/

theorem Booked.withEnv (h : Booked K s) (env : Env) : Booked K (s.withEnv env) :=
  ⟨h.books.congr rfl rfl, h.records⟩

theorem mmRetain_books (h : k.Books K) (id : MmId) : (k.mmRetain id).Books K := by
  unfold Kernel.mmRetain
  split
  · exact h
  cases hid : k.mms.get? id with
  | none =>
    refine h.congr rfl (OrdMap.ext_get? fun i => ?_)
    rw [OrdMap.get?_modify]
    split
    · rename_i hi
      rw [hi, hid]
      rfl
    · rfl
  | some mm =>
    have hwf := h.wf_mm hid
    have hwords := h.words_mm hid
    rw [modify_eq_setMm hid]
    exact h.setMm hid rfl ⟨hwf.areas, hwf.brk⟩ ⟨hwords.1, hwords.2, hwords.3, hwords.4⟩

theorem cloneCurrent_booked (h : Booked K s) {child : TaskId} {args : CloneArgs}
    (hroom : args.has CloneArgs.CLONE_VM = false →
      ∀ mm, s.memory.mms.get? (s.currentMm tid) = some mm →
        s.memory.CloneRoom (s.currentMm tid) (cloneTodo mm.vmaTree.toList)) :
    Booked K (s.cloneCurrent tid args pid child).2 := by
  unfold System.cloneCurrent
  cases args.check with
  | error e => exact h
  | ok _ =>
    have hmm : ∀ mode : SpawnMmMode, (mode = if args.has CloneArgs.CLONE_VM then .inheritShared
        else .inheritPrivate) → (s.resolveChildMm (s.currentMm tid) mode).2.Books K := by
      rintro mode rfl
      cases hvm : args.has CloneArgs.CLONE_VM with
      | true => exact mmRetain_books h.books _
      | false => exact mmClone_books h.books _ (hroom hvm)
    have hbooks := hmm _ rfl
    simp only
    split
    · rename_i k hk
      rw [hk] at hbooks
      exact ⟨hbooks, h.records⟩
    · rename_i mm k hk
      rw [hk] at hbooks
      exact ⟨hbooks, fun q p hp => h.records_from (spawnMinimalChild_from _ _ _ _ _ _) hp⟩

theorem execve_booked (h : Booked K s) {x : ExecEnv} {payload : ExecPayload}
    (hbalanced : ∀ p, s.process tid = some p →
      ExecBalanced x s.memory p.mm p.execMappings payload)
    (hexec : s.execve tid x payload = some s') : Booked K s' := by
  unfold System.execve at hexec
  cases hp : s.process tid with
  | none =>
    rw [hp] at hexec
    cases hexec
    exact h
  | some p =>
    obtain ⟨hnodup, huser⟩ := h.records _ p hp
    rw [hp] at hexec
    simp only at hexec
    split at hexec
    · cases hexec
    rename_i r k recorded' hres
    obtain ⟨hbooks, hrecord⟩ :=
      execvePayload_books h.books hnodup huser (hbalanced p hp) hres
    cases hexec
    refine ⟨hbooks, fun q p' hp' => ?_⟩
    rw [find_setProcess] at hp'
    split at hp'
    · cases hp'
      exact hrecord
    · exact h.records q p' hp'

theorem exitCurrentProcess_booked (h : Booked K s) (code : ℤ)
    (hbalanced : Balanced (liveFrames s.memory (s.currentMm tid) (s.recorded tid)) s.memory.maps
      (s.recorded tid)) :
    Booked K (s.exitCurrentProcess tid code) := by
  refine ⟨?_, fun q p hp => h.records_from (.of_change (exitCurrentProcess_table _ _ _)) hp⟩
  unfold System.exitCurrentProcess System.apply
  rcases exitCurrentProcess_effects s.tasks tid code with
    ⟨-, heffects⟩ | ⟨p, rest, hp, heffects, hrest⟩
  · simp only [heffects]
    exact h.books
  obtain ⟨hnodup, huser⟩ := h.records _ p hp
  have hrecorded : s.recorded tid = p.execMappings := by
    rw [System.recorded, System.process, hp]
    rfl
  rw [hrecorded] at hbalanced
  simp only [heffects, foldl_append, foldl_rollback]
  exact foldl_applyEffect_books (rollbackExecMappings_books h.books hnodup huser hbalanced) _ hrest

/-- Collecting a child releases its address space and then undoes its recorded
pages in the page table of the caller. -/
theorem reapObservedChild_memory (s : System) (tid : TaskId) (child : ProcessId) :
    (s.collected tid child = none ∧ (s.reapObservedChild tid child).memory = s.memory) ∨
    ∃ c, s.collected tid child = some c ∧ s.tasks.findProcessByPid child = some c ∧
      (s.reapObservedChild tid child).memory = rollbackExecMappings
        ({ s.memory with fs := s.memory.fs.dropProcessFds child }.mmRelease c.mm)
        (s.currentMm tid) c.execMappings := by
  unfold System.collected System.reapObservedChild System.apply TaskManager.reapObservedChild
  cases s.tasks.parentOwnsChild tid child with
  | none => exact .inl ⟨rfl, rfl⟩
  | some _ =>
    cases hc : s.tasks.findProcessByPid child with
    | none => exact .inl ⟨rfl, rfl⟩
    | some c =>
      simp only
      by_cases hzombie : c.status = .zombie
      · rw [if_neg (not_not.2 hzombie)]
        refine .inr ⟨c, by simp [hzombie], rfl, ?_⟩
        simp only [foldl_append]
        exact foldl_rollback ..
      · rw [if_pos hzombie]
        exact .inl ⟨by simp [hzombie], rfl⟩

theorem reapObservedChild_booked (h : Booked K s) {child : ProcessId}
    (hbalanced : ∀ c, s.collected tid child = some c →
      Balanced (reapedFrames s.memory (s.currentMm tid) c)
        (fun f => s.memory.maps f - s.memory.releasedMaps c.mm f) c.execMappings) :
    Booked K (s.reapObservedChild tid child) := by
  refine ⟨?_, fun q p hp => h.records_from (.of_change (reapObservedChild_table _ _ _)) hp⟩
  rcases reapObservedChild_memory s tid child with ⟨-, hmemory⟩ | ⟨c, hcollected, hc, hmemory⟩
  · exact hmemory ▸ h.books
  rw [hmemory]
  obtain ⟨hnodup, huser⟩ := h.records child c hc
  have hfs : ({ s.memory with fs := s.memory.fs.dropProcessFds child } : Kernel).Books K :=
    h.books.congr rfl rfl
  refine rollbackExecMappings_books (mmRelease_books hfs c.mm) hnodup huser ?_
  have hlive : liveFrames (({ s.memory with fs := s.memory.fs.dropProcessFds child } :
      Kernel).mmRelease c.mm) (s.currentMm tid) c.execMappings =
        reapedFrames s.memory (s.currentMm tid) c := by
    unfold reapedFrames
    split
    · rename_i hlast
      exact framesAt_of_none fun m _ => by rw [mmRelease_pte, if_pos (by exact hlast)]
    rename_i hlast
    refine framesAt_congr fun n _ => ?_
    rw [mmRelease_pte, if_neg (by exact hlast)]
    rfl
  have hcount : (({ s.memory with fs := s.memory.fs.dropProcessFds child } :
      Kernel).mmRelease c.mm).maps = fun f => s.memory.maps f - s.memory.releasedMaps c.mm f :=
    funext fun f => Nat.eq_sub_of_add_eq (mmRelease_maps _ c.mm f)
  rw [hlive, hcount]
  exact hbalanced c hcollected

theorem pageStep_booked {call : Env × PageOp} (h : Booked K s) (hok : PageOk s call)
    (hstep : pageStep s call = some s') : Booked K s' := by
  obtain ⟨env, op⟩ := call
  have h := h.withEnv env
  unfold PageOk at hok
  unfold pageStep at hstep
  cases op with
  | fault tid addr error =>
    cases hstep
    exact ⟨handlePageFault_books h.books _ _ addr error, h.records⟩
  | munmap tid addr length =>
    cases hstep
    exact ⟨sysMunmap_books h.books _ addr length, h.records⟩
  | clone tid args pid child =>
    cases hstep
    exact cloneCurrent_booked h hok
  | execve tid x payload => exact execve_booked h hok hstep
  | exitProcess tid code =>
    cases hstep
    exact exitCurrentProcess_booked h code hok
  | signal tid pid sig =>
    cases hstep
    exact ⟨foldl_applyEffect_books h.books _ (sendSignal_noRollback _ _ _ _),
      fun q p hp => h.records_from (.of_change (sendSignal_table _ _ _ _)) hp⟩
  | reap tid child =>
    cases hstep
    exact reapObservedChild_booked h hok
  | reapOrphan tid pid =>
    cases hstep
    exact ⟨foldl_applyEffect_books h.books _ (reapOrphanZombieProcess_noRollback _ _),
      fun q p hp => h.records_from (reapOrphanZombieProcess_from _ _) hp⟩

/-! ### Runs -/

/-- Before the first program: no page is present and nothing is on record. -/
structure Unloaded (s : System) : Prop where
  memory : s.memory.NoPages
  words : ∀ id mm, s.memory.mms.get? id = some mm → mm.Words
  records : ∀ pid p, s.tasks.findProcessByPid pid = some p → p.execMappings = []

theorem Unloaded.booked (h : Unloaded s) : Booked (fun f => ¬ (s.memory.frames f).Free) s := by
  have hinv := h.memory.inv
  refine ⟨⟨hinv.accounted, fun id mm hid => ⟨hinv.wf id mm hid, ?_⟩⟩, fun pid p hp => ?_⟩
  · obtain ⟨mm', hmm', rfl⟩ := Option.map_eq_some_iff.1 hid
    exact Mm.words_skeleton.2 (h.words id mm' hmm')
  · rw [RecordOk, h.records pid p hp]
    exact ⟨.nil, nofun⟩

/-- In every run whose calls meet the condition: a frame that the kernel did not
keep for itself has as many references as there are pages with it, and is free
exactly if there are none; no page has a frame that is free or one of the
kernel. -/
theorem user_frames_accounted {s0 s : System} {calls : List (Env × PageOp)} (hstart : Unloaded s0)
    (hrun : Run (Guarded PageOk (ofPartial pageStep)) s0 calls s) :
    (∀ f, (s0.memory.frames f).Free → (s.memory.frames f).refcount = s.memory.maps f ∧
      ((s.memory.frames f).Free ↔ s.memory.maps f = 0)) ∧
    ∀ id n p, s.memory.pte id n = some p →
      (s0.memory.frames p.pfn).Free ∧ ¬ (s.memory.frames p.pfn).Free := by
  have hbooked : Booked (fun f => ¬ (s0.memory.frames f).Free) s := by
    refine hrun.invariant (Booked fun f => ¬ (s0.memory.frames f).Free) ?_ hstart.booked
    intro s call s' h hstep
    exact pageStep_booked h hstep.1 hstep.2
  have haccounted := hbooked.books.accounted
  constructor
  · intro f hfree
    rw [(haccounted f).user (not_not.2 hfree)]
    exact ⟨rfl, Frame.mapped_free⟩
  · intro id n p hp
    have hpos := maps_pos hp
    have huser := (haccounted p.pfn).user_of_maps hpos
    refine ⟨not_not.1 huser, ?_⟩
    rw [(haccounted p.pfn).user huser, Frame.mapped_free]
    exact hpos.ne'

/-! ### One program, started and forked -/

instance (k : Kernel) (id : MmId) (recorded : List ExecMappedPage) (plan : ExecLoadPlan)
    (payload : ExecPayload) : Decidable (Loads k id recorded plan payload) :=
  decidable_of_iff (StackApart plan ∧ (∀ p ∈ plan.stagePages, k.pte id (pageNumber p.virt) ≠ none →
      pageNumber p.virt ∈ recorded.map page) ∧
      FramesReady k.frames k.env.frames plan.stagePages.length ∧
      TablesReady k.env.tables
        (newTables (keptTables k id recorded) (plan.stagePages.map fun p => tableOf p.virt)) ∧
      StackFits payload.args payload.envp)
    ⟨fun h => ⟨h.1, h.2.1, h.2.2.1, h.2.2.2.1, h.2.2.2.2⟩, fun h => ⟨h.1, h.2, h.3, h.4, h.5⟩⟩

instance (x : ExecEnv) (k : Kernel) (id : MmId) (recorded : List ExecMappedPage)
    (payload : ExecPayload) : Decidable (ExecBalanced x k id recorded payload) :=
  inferInstanceAs (Decidable (∀ plan ∈ x.plan? payload.path, _ ∧ _))

instance (s : System) (call : Env × PageOp) : Decidable (PageOk s call) :=
  match call with
  | (_, .fault ..) | (_, .munmap ..) | (_, .signal ..) | (_, .reapOrphan ..) => .isTrue trivial
  | (env, .clone tid args _ _) => inferInstanceAs (Decidable (args.has CloneArgs.CLONE_VM = false →
      ∀ mm ∈ (s.withEnv env).memory.mms.get? ((s.withEnv env).currentMm tid),
        ∀ f ∈ (s.withEnv env).memory.todoFrames _ (cloneTodo mm.vmaTree.toList), _))
  | (env, .execve tid x payload) => inferInstanceAs (Decidable (∀ p ∈ (s.withEnv env).process tid,
      ExecBalanced x (s.withEnv env).memory p.mm p.execMappings payload))
  | (_, .exitProcess ..) => inferInstanceAs (Decidable (Balanced _ _ _))
  | (env, .reap tid child) => inferInstanceAs (Decidable (∀ c ∈ (s.withEnv env).collected tid child,
      Balanced (reapedFrames (s.withEnv env).memory ((s.withEnv env).currentMm tid) c)
        (fun f => (s.withEnv env).memory.maps f - (s.withEnv env).memory.releasedMaps c.mm f)
        c.execMappings))

/-- One process without a program. -/
def lone : System := ⟨oneMm, named.tasks⟩

theorem unloaded_lone : Unloaded lone := by
  refine ⟨noPages_oneMm, fun id mm hid => ?_, fun pid p hp => ?_⟩
  · rw [lone, oneMm, OrdMap.get?_insert] at hid
    split at hid
    · cases hid
      decide
    · cases hid
  · rw [lone, named, findProcessByPid, OrdMap.get?_insert] at hp
    split at hp
    · cases hp
      rfl
    · cases hp

/-- A task starts the program on the given frames. -/
def startOn (tid : TaskId) (frames : List Pfn) : Env × PageOp :=
  ({ frames := frames.map some }, .execve tid smallEnv ⟨[0x61], [], []⟩)

/-- The process has a child with a copy of its address space. -/
def forkChild : Env × PageOp := ({ mmAddr := some 2 }, .clone 10 { flags := 17 } 2 20)

/-- A program is started and forked, the child is killed and collected, and the
process ends. -/
theorem user_frames_accounted_forked : ∃ s,
    Run (ofPartial pageStep) lone [startOn 10 (range' 1 9), forkChild,
      ({}, .signal 10 2 SIGKILL), ({}, .reap 10 2), ({}, .exitProcess 10 0)] s ∧
    ∀ f, (s.memory.frames f).refcount = s.memory.maps f := by
  refine Run.exists_of_exec_free (Q := fun _ => True) PageOk (by decide +kernel)
    fun s hrun _ f => ?_
  exact ((user_frames_accounted unloaded_lone hrun).1 f ⟨rfl, rfl⟩).1

/-- The system after some calls. -/
def systemAfter (calls : List (Env × PageOp)) : Option System :=
  runGuarded (fun _ _ => True) pageStep lone calls

/-- The references to a frame, the pages with it, and whether it is free, after
some calls. -/
def frameAfter (calls : List (Env × PageOp)) (f : Pfn) : Option (ℕ × ℕ × Bool) :=
  (systemAfter calls).map fun s =>
    ((s.memory.frames f).refcount, s.memory.maps f, decide (s.memory.frames f).Free)

/-- Started a second time, the program has left the frames of the first time
behind. And after a fork, a process that writes to its stack and ends frees the
frame that its child still has. -/
theorem frame_lost_and_freed_in_use :
    frameAfter [startOn 10 (range' 1 9), startOn 10 (range' 11 9)] 1 =
      some (1, 0, false) ∧
    frameAfter [startOn 10 (range' 1 9), forkChild,
      ({ frames := [some 30] }, .fault 10 0x7FFFFFFF7000 ⟨true, true, false⟩),
      ({}, .exitProcess 10 0)] 2 = some (0, 1, true) := by
  decide +kernel

end JanuaryOs.Exec

import JanuaryOs.Exec.VforkExec

/-!
# What becomes of open files when a process forks or starts a program

Descriptor tables and working directories lie in `FsState`, under the number of
a process. `clone_current` and `sys_execve` reach that state for the backings of
file mappings only. So a child has what was there under its number before, which
is nothing for a new number, and a program starts with every descriptor of the
one before it, whatever its close-on-exec flag says.

Nothing is assumed of the memory here: the functions below leave the files alone
in every state.
-/

namespace JanuaryOs.Fs

/-- Two states with the same tables, working directories and pipes. -/
structure SameFiles (a b : FsState) : Prop where
  openFiles : b.openFiles = a.openFiles
  nextFd : b.nextFd = a.nextFd
  cwd : b.cwd = a.cwd
  nextPipeId : b.nextPipeId = a.nextPipeId
  pipes : b.pipes = a.pipes

namespace SameFiles

variable {a b c : FsState}

theorem refl (a : FsState) : SameFiles a a := ⟨rfl, rfl, rfl, rfl, rfl⟩

theorem of_eq (h : b = a) : SameFiles a b := h ▸ refl b

theorem trans (h : SameFiles a b) (h' : SameFiles b c) : SameFiles a c :=
  ⟨h'.openFiles.trans h.openFiles, h'.nextFd.trans h.nextFd, h'.cwd.trans h.cwd,
    h'.nextPipeId.trans h.nextPipeId, h'.pipes.trans h.pipes⟩

theorem lookup (h : SameFiles a b) (pid : ProcessId) (fd : ℤ) :
    b.lookup pid fd = a.lookup pid fd := by
  simp only [FsState.lookup, FsState.tableOf, h.openFiles]

theorem cwdForPid (h : SameFiles a b) (pid : ProcessId) : b.cwdForPid pid = a.cwdForPid pid := by
  simp only [FsState.cwdForPid, h.cwd]

end SameFiles

theorem retainMmapBacking_sameFiles (s : FsState) (id : ℕ) :
    SameFiles s (s.retainMmapBacking id).2 := by
  unfold FsState.retainMmapBacking
  split
  · exact .refl s
  · exact ⟨rfl, rfl, rfl, rfl, rfl⟩

theorem releaseMmapBacking_sameFiles (s : FsState) (id : ℕ) :
    SameFiles s (s.releaseMmapBacking id) := by
  unfold FsState.releaseMmapBacking
  split
  · exact .refl s
  · split <;> exact ⟨rfl, rfl, rfl, rfl, rfl⟩

end JanuaryOs.Fs

namespace JanuaryOs.Virt

open Lib Fs
open Proc (ExecMappedPage)

theorem releaseBackings_sameFiles (ids : List ℕ) (s : FsState) :
    SameFiles s (releaseBackings ids s) := by
  induction ids generalizing s with
  | nil => exact .refl s
  | cons id ids ih => exact (releaseMmapBacking_sameFiles s id).trans (ih _)

namespace Kernel

variable (k : Kernel) (id : MmId)

/-! ### Primitives -/

@[simp] theorem setMm_fs (mm : Mm) : (k.setMm id mm).fs = k.fs := rfl

theorem access_fs {k k' : Kernel} {recorded : List ExecMappedPage} {id : MmId} {addr : ℕ}
    {kind : Access} {pte : Pte} (h : k.access recorded id addr kind = some (pte, k')) :
    k'.fs = k.fs := by
  have hfault := (handlePageFault_enters k recorded id addr (k.faultError id addr kind)).fs
  unfold access at h
  split at h
  · cases h
    rfl
  split at h
  · cases h
  rename_i k1 hhandler
  obtain ⟨_, -, heq⟩ := Option.map_eq_some_iff.1 h
  cases heq
  unfold pageFaultHandler at hhandler
  split at hhandler
  · rename_i hres
    cases hhandler
    rwa [hres] at hfault
  · cases hhandler

/-- Kernel code that leaves the files alone. -/
def KeepsFs (k k' : Kernel) : Prop := k'.fs = k.fs

theorem KeepsFs.refl (k : Kernel) : KeepsFs k k := rfl

theorem KeepsFs.trans (k k1 k2 : Kernel) (h : KeepsFs k k1) (h' : KeepsFs k1 k2) : KeepsFs k k2 :=
  Eq.trans h' h

end Kernel

section UserAccess

open Fallible
open Kernel (KeepsFs)

variable (recorded : List ExecMappedPage) (id : MmId)

theorem readByte_keepsFs (addr : ℕ) : Keeps KeepsFs (UserM.readByte recorded id addr) := by
  intro k r k' h
  obtain ⟨⟨pte, k1⟩, haccess, heq⟩ := Option.map_eq_some_iff.1 h
  cases heq
  exact Kernel.access_fs haccess

theorem writeByte_keepsFs (addr : ℕ) (byte : UInt8) :
    Keeps KeepsFs (UserM.writeByte recorded id addr byte) := by
  intro k r k' h
  obtain ⟨⟨pte, k1⟩, haccess, heq⟩ := Option.map_eq_some_iff.1 h
  cases heq
  exact (Kernel.access_fs haccess : k1.fs = k.fs)

theorem writeBytes_keepsFs (bytes : List UInt8) (addr : ℕ) :
    Keeps KeepsFs (UserM.writeBytes recorded id bytes addr) := by
  induction bytes generalizing addr with
  | nil => exact .ret KeepsFs.refl ()
  | cons b bs ih =>
    exact .andThen KeepsFs.trans (writeByte_keepsFs recorded id addr b) fun _ => ih (addr + 1)

end UserAccess

/-! ### Cloning -/

namespace Kernel

variable (k : Kernel) (id : MmId)

theorem abandonClone_sameFiles : SameFiles k.fs (k.abandonClone id).fs := by
  unfold abandonClone
  split
  · exact .refl k.fs
  · rw [(teardownPrivateMm_eq _ id).1]
    exact releaseBackings_sameFiles _ k.fs

theorem clonePage_fs (src dst : MmId) (flags : VmFlags) (addr : ℕ) :
    (k.clonePage src dst flags addr).2.fs = k.fs := by
  unfold clonePage
  split
  · rfl
  rename_i pte _
  have hdst := (mapPage_enters k dst addr pte.pfn (cowPteFlags flags)).fs
  generalize k.mapPage dst addr pte.pfn (cowPteFlags flags) = mapped at hdst ⊢
  obtain ⟨_ | _, k1⟩ := mapped
  · exact hdst
  simp only
  split
  · exact hdst
  have hsrc := (mapPage_enters k1 src addr pte.pfn (cowPteFlags flags)).fs
  generalize k1.mapPage src addr pte.pfn (cowPteFlags flags) = mapped at hsrc ⊢
  obtain ⟨_ | _, k2⟩ := mapped <;> exact hsrc.trans hdst

theorem cloneAll_fs (src dst : MmId) (todo : List (VmFlags × ℕ)) :
    (cloneAll src dst todo k).2.fs = k.fs := by
  induction todo generalizing k with
  | nil => rfl
  | cons x todo ih =>
    have hpage := k.clonePage_fs src dst x.1 x.2
    rw [cloneAll]
    generalize k.clonePage src dst x.1 x.2 = cloned at hpage ⊢
    obtain ⟨_ | _, k1⟩ := cloned
    · exact hpage
    · exact (ih k1).trans hpage

theorem retainLoop_sameFiles {ids retained : List ℕ} {s s' : FsState}
    (h : retainLoop ids retained s = (.ok (), s')) : SameFiles s s' := by
  induction ids generalizing retained s with
  | nil =>
    cases h
    exact .refl _
  | cons id ids ih =>
    have hretain := retainMmapBacking_sameFiles s id
    rw [retainLoop] at h
    generalize s.retainMmapBacking id = res at h hretain
    obtain ⟨_ | _, s1⟩ := res
    · cases h
    · exact hretain.trans (ih h)

theorem mmClone_sameFiles (src : MmId) : SameFiles k.fs (k.mmClone src).2.fs := by
  refine mmClone_rule (P := fun r => SameFiles k.fs r.2.fs) (.refl k.fs) ?_
  intro mm dst mm' fs inserted k1 _ _ _ hfilled _ hk1
  have hareas : SameFiles k.fs k1.fs := hk1 ▸ retainLoop_sameFiles hfilled.retained
  refine ⟨hareas.trans (k1.abandonClone_sameFiles dst), fun _ => ?_⟩
  have hpages := hareas.trans (.of_eq (k1.cloneAll_fs src dst (cloneTodo mm.vmaTree.toList)))
  exact ⟨hpages.trans (abandonClone_sameFiles _ dst), hpages⟩

theorem mmRetain_fs : (k.mmRetain id).fs = k.fs := by
  unfold mmRetain
  split <;> rfl

end Kernel

end JanuaryOs.Virt

namespace JanuaryOs.Exec

open Lib Lib.Fallible Virt Virt.Kernel Proc Fs

/-! ### Reading the arguments -/

/-- The arguments are read byte by byte: a relation that every byte keeps is
kept. -/
theorem parseExecvePayload_keeps {σ : Type} {R : σ → σ → Prop} {read : ℕ → Fallible σ Errno UInt8}
    (hrefl : ∀ s, R s s) (htrans : ∀ s t u, R s t → R t u → R s u)
    (hread : ∀ addr, Keeps R (read addr)) (pathPtr argvPtr envpPtr : ℕ) :
    Keeps R (parseExecvePayload read pathPtr argvPtr envpPtr) :=
  -- compared with a reader that gives up at once
  have hnone : ∀ addr, Shadows R R (fun _ => none) (read addr) :=
    fun addr => ⟨hread addr, fun s => .inr ⟨rfl, hread addr s⟩⟩
  (parseExecvePayload_shadows ⟨hrefl, htrans, htrans⟩ hnone pathPtr argvPtr envpPtr).keeps

/-! ### The stack of a new program -/

section Stack

variable (recorded : List ExecMappedPage) (id : MmId)

theorem writeUserBytes_keepsFs (dst : ℕ) (src : List UInt8) :
    Keeps KeepsFs (writeUserBytes recorded id dst src) := by
  unfold writeUserBytes
  split
  · exact .ret KeepsFs.refl ()
  split
  · exact .fail KeepsFs.refl _
  split
  · exact .fail KeepsFs.refl _
  · exact writeBytes_keepsFs recorded id src dst

theorem writeUserUsize_keepsFs (dst value : ℕ) :
    Keeps KeepsFs (writeUserUsize recorded id dst value) := by
  unfold writeUserUsize
  split
  · exact .fail KeepsFs.refl _
  split
  · exact .fail KeepsFs.refl _
  · exact writeBytes_keepsFs recorded id _ dst

theorem pushStrings_keepsFs (stackBottom : ℕ) (values : List (List UInt8)) (sp : ℕ) :
    Keeps KeepsFs (pushStrings recorded id stackBottom values sp) := by
  induction values generalizing sp with
  | nil => exact .ret KeepsFs.refl _
  | cons value values ih =>
    rw [pushStrings]
    split
    · exact .fail KeepsFs.refl _
    simp only
    split
    · exact .fail KeepsFs.refl _
    refine .andThen KeepsFs.trans (writeUserBytes_keepsFs recorded id _ _) fun _ => ?_
    refine .andThen KeepsFs.trans (writeUserBytes_keepsFs recorded id _ _) fun _ => ?_
    exact .andThen KeepsFs.trans (ih _) fun _ => .ret KeepsFs.refl _

theorem pushWords_keepsFs (stackBottom : ℕ) (words : List ℕ) (sp : ℕ) :
    Keeps KeepsFs (pushWords recorded id stackBottom words sp) := by
  induction words generalizing sp with
  | nil => exact .ret KeepsFs.refl _
  | cons value words ih =>
    rw [pushWords]
    split
    · exact .fail KeepsFs.refl _
    split
    · exact .fail KeepsFs.refl _
    · exact .andThen KeepsFs.trans (writeUserUsize_keepsFs recorded id _ _) fun _ => ih _

theorem setupInitialUserStack_keepsFs (stackTop stackPages : ℕ) (argv envp : List (List UInt8))
    (auxv : List (ℕ × ℕ)) :
    Keeps KeepsFs (setupInitialUserStack recorded id stackTop stackPages argv envp auxv) := by
  unfold setupInitialUserStack
  split
  · exact .fail KeepsFs.refl _
  split
  · exact .fail KeepsFs.refl _
  refine .andThen KeepsFs.trans (pushStrings_keepsFs recorded id _ _ _) fun env => ?_
  refine .andThen KeepsFs.trans (pushStrings_keepsFs recorded id _ _ _) fun arg => ?_
  refine .andThen KeepsFs.trans ?_ fun sp => ?_
  · unfold pushArgumentBlock
    simp only
    split
    · split
      · exact .fail KeepsFs.refl _
      split
      · exact .fail KeepsFs.refl _
      · exact pushWords_keepsFs recorded id _ _ _
    · exact pushWords_keepsFs recorded id _ _ _
  · refine .andThen KeepsFs.trans ?_ fun _ => .ret KeepsFs.refl _
    intro k r k' h
    cases h
    rfl

end Stack

/-! ### Pages -/

section Pages

variable (k : Kernel) (id : MmId)

theorem remapLoop_fs (pages done : List ExecMappedPage) :
    (remapLoop id pages done k).2.fs = k.fs := by
  induction pages generalizing done k with
  | nil => rfl
  | cons m pages ih =>
    have hmap := (mapPage_enters k id m.virt m.phys m.flags).fs
    rw [remapLoop]
    generalize k.mapPage id m.virt m.phys m.flags = mapped at hmap ⊢
    obtain ⟨_ | _, k1⟩ := mapped
    · exact (foldl_unmapPage_dropped k1 id done).1.fs.trans hmap
    · exact (ih k1 _).trans hmap

theorem mapZeroPage_fs (virt : ℕ) (flags : PteFlags) :
    (mapZeroPage k id virt flags).2.fs = k.fs := by
  have halloc := (allocPage_same k).2
  unfold mapZeroPage
  generalize k.allocPage = taken at halloc ⊢
  obtain ⟨_ | f, k1⟩ := taken
  · exact halloc
  have hmap : _ = k1.fs :=
    (@mapNewPage_enters k1 (k1.fillPage f fun _ => 0) ⟨rfl, rfl⟩ id virt f flags).fs
  simp only
  generalize (k1.fillPage f fun _ => 0).mapNewPage id virt f flags = mapped at hmap ⊢
  obtain ⟨r, k2⟩ := mapped
  cases r <;> exact hmap.trans halloc

theorem stageLoop_fs (image : List UInt8) (pages : List StagePage) (mapped : List ExecMappedPage) :
    (stageLoop image id pages mapped k).2.2.fs = k.fs := by
  induction pages generalizing mapped k with
  | nil => rfl
  | cons p pages ih =>
    have hmap := mapZeroPage_fs k id p.virt p.flags
    rw [stageLoop]
    generalize mapZeroPage k id p.virt p.flags = taken at hmap ⊢
    obtain ⟨_ | f, k1⟩ := taken
    · exact hmap
    simp only
    split
    · exact hmap
    · exact (ih _ _).trans hmap

theorem stagePtLoadMappings_fs (image : List UInt8) (plan : ExecLoadPlan) :
    (stagePtLoadMappings k id image plan).2.fs = k.fs := by
  unfold stagePtLoadMappings
  split
  · rfl
  split
  · rfl
  have hloop := stageLoop_fs k id image plan.stagePages []
  generalize stageLoop image id plan.stagePages [] k = staged at hloop ⊢
  obtain ⟨_ | _, mapped, k1⟩ := staged
  · exact (rollbackExecMappings_spec k1 id mapped).1.fs.trans hloop
  · exact hloop

end Pages

/-! ### The call -/

section Call

variable {x : ExecEnv} {id : MmId} {r : Except Errno UserFrame} {k k' : Kernel}
  {recorded' : List ExecMappedPage} {payload : ExecPayload}

theorem failExec_fs (x : ExecEnv) (id : MmId) (previous : List ExecMappedPage)
    (restore : Option ExecVmaRestorePoint) (e : Errno) (k : Kernel) :
    (failExec x id previous restore e k).2.1.fs = k.fs := by
  unfold failExec
  cases restore with
  | none | some restore =>
    dsimp only
    split <;> rename_i hremap <;>
      exact (congrArg (·.2.fs) hremap).symm.trans (remapLoop_fs _ id previous [])

theorem commitExec_fs {previous staged : List ExecMappedPage} {plan : ExecLoadPlan}
    (h : commitExec x id previous staged plan payload k = some (r, k', recorded')) :
    k'.fs = k.fs := by
  have hfail : ∀ {restore e k1}, k1.fs = k.fs →
      some (failExec x id previous restore e (rollbackExecMappings k1 id staged)) =
        some (r, k', recorded') → k'.fs = k.fs := by
    intro restore e k1 hk1 heq
    have hfs := failExec_fs x id previous restore e (rollbackExecMappings k1 id staged)
    rw [Option.some.inj heq, (rollbackExecMappings_spec k1 id staged).1.fs] at hfs
    exact hfs.trans hk1
  unfold commitExec at h
  split at h
  · exact hfail rfl h
  split at h
  · exact hfail (k.setMm_fs id _) h
  simp only at h
  split at h
  · cases h
  · rename_i hstack
    have hsetup := setupInitialUserStack_keepsFs staged id _ _ _ _ _ _ _ _ hstack
    exact hfail (Eq.trans hsetup (k.setMm_fs id _)) h
  · rename_i hstack
    have hsetup := setupInitialUserStack_keepsFs staged id _ _ _ _ _ _ _ _ hstack
    cases h
    exact Eq.trans hsetup (k.setMm_fs id _)

theorem execvePayload_fs {recorded : List ExecMappedPage}
    (h : execvePayload x id recorded payload k = some (r, k', recorded')) : k'.fs = k.fs := by
  unfold execvePayload at h
  split at h
  · cases h
    rfl
  split at h
  · cases h
    rfl
  rename_i image _ _ plan _
  have hstage := stagePtLoadMappings_fs (unmapExecMappings k id recorded) id image plan
  rw [(unmapExecMappings_spec k id recorded).1.fs] at hstage
  unfold loadImage at h
  generalize stagePtLoadMappings (unmapExecMappings k id recorded) id image plan = staged at *
  obtain ⟨e | staged, k1⟩ := staged
  · have hfs := failExec_fs x id recorded none e k1
    rw [Option.some.inj h] at hfs
    exact hfs.trans hstage
  · exact (commitExec_fs h).trans hstage

theorem sysExecve_fs {recorded : List ExecMappedPage} {pathPtr argvPtr envpPtr : ℕ}
    (h : sysExecve x id recorded pathPtr argvPtr envpPtr k = some (r, k', recorded')) :
    k'.fs = k.fs := by
  have hparse := parseExecvePayload_keeps KeepsFs.refl KeepsFs.trans
    (readByte_keepsFs recorded id) pathPtr argvPtr envpPtr k
  unfold sysExecve at h
  split at h
  · cases h
  · rename_i heq
    cases h
    exact hparse _ _ heq
  · rename_i heq
    exact (execvePayload_fs h).trans (hparse _ _ heq)

end Call

theorem System.cloneCurrent_sameFiles {s s' : System} {tid child : TaskId} {args : CloneArgs}
    {pid : ProcessId} {r : Except Errno ProcessId}
    (h : s.cloneCurrent tid args pid child = (r, s')) :
    SameFiles s.memory.fs s'.memory.fs := by
  unfold cloneCurrent at h
  cases hcheck : args.check with
  | error e =>
    rw [hcheck] at h
    cases h
    exact .refl _
  | ok _ =>
    have hmm : ∀ mode, SameFiles s.memory.fs (s.resolveChildMm (s.currentMm tid) mode).2.fs := by
      intro mode
      cases mode with
      | inheritShared | inheritInit => exact .of_eq (mmRetain_fs s.memory _)
      | inheritPrivate | inheritInitPrivate => exact mmClone_sameFiles s.memory _
    simp only [hcheck] at h
    specialize hmm (if args.has CloneArgs.CLONE_VM then .inheritShared else .inheritPrivate)
    generalize s.resolveChildMm (s.currentMm tid) _ = resolved at h hmm
    obtain ⟨_ | mm, k⟩ := resolved
    all_goals
      cases h
      exact hmm

/-- A successful fork and a successful `execve` leave every descriptor table,
every working directory and every pipe as it was. A child whose number has no
entry starts with no descriptor and in the root; a program starts with all
descriptors of the one before it, also with those to be closed on exec. -/
theorem tables_kept_by_fork_and_execve :
    (∀ (s s' : System) (tid child : TaskId) (args : CloneArgs) (pid c : ProcessId),
      s.cloneCurrent tid args pid child = (.ok c, s') →
        SameFiles s.memory.fs s'.memory.fs ∧
          (s.memory.fs.openFiles.get? c = none → ∀ fd, s'.memory.fs.lookup c fd = none) ∧
          (s.memory.fs.cwd.get? c = none → s'.memory.fs.cwdForPid c = "/")) ∧
    ∀ (x : ExecEnv) (id : MmId) (recorded recorded' : List ExecMappedPage)
      (pathPtr argvPtr envpPtr : ℕ) (k k' : Kernel) (frame : UserFrame),
      sysExecve x id recorded pathPtr argvPtr envpPtr k = some (.ok frame, k', recorded') →
        SameFiles k.fs k'.fs := by
  refine ⟨fun s s' tid child args pid c h => ?_, fun x id recorded recorded' pathPtr argvPtr
    envpPtr k k' frame h => .of_eq (sysExecve_fs h)⟩
  have hsame := System.cloneCurrent_sameFiles h
  refine ⟨hsame, fun hnone fd => ?_, fun hnone => ?_⟩
  · rw [hsame.lookup]
    simp only [FsState.lookup, FsState.tableOf, hnone]
    rfl
  · rw [hsame.cwdForPid, FsState.cwdForPid, hnone, Option.getD_none]

/-- The process `named` with a file that is to be closed on exec, in a directory
of its own. -/
def opened : System :=
  { named with memory := { named.memory with
    fs := { (FsState.new.setFile 1 3 (.vfs 7 0 true)) with cwd := OrdMap.empty.insert 1 "/home" }
    env := { frames := (List.range' 1 9).map some, mmAddr := some 2 } } }

/-- The flags of `fork_current`. -/
def forkArgs : CloneArgs := { flags := 17 }

theorem opened_fork : (opened.cloneCurrent 10 forkArgs 2 20).1.toOption = some 2 := by
  decide

theorem opened_execve : ((sysExecve smallEnv 1 [] 0x10000000 0 0 opened.memory).bind
    fun r => r.1.toOption).isSome = true := by
  decide +kernel

/-- The child of the process, and the program that the process starts. -/
theorem tables_kept_opened :
    ((opened.cloneCurrent 10 forkArgs 2 20).2.memory.fs.lookup 2 3 = none ∧
      (opened.cloneCurrent 10 forkArgs 2 20).2.memory.fs.cwdForPid 2 = "/") ∧
    ∃ frame k' recorded',
      sysExecve smallEnv 1 [] 0x10000000 0 0 opened.memory = some (.ok frame, k', recorded') ∧
        SameFiles opened.memory.fs k'.fs := by
  refine ⟨?_, ?_⟩
  · have hok := opened_fork
    generalize hcall : opened.cloneCurrent 10 forkArgs 2 20 = forked at hok ⊢
    obtain ⟨_ | c, s⟩ := forked
    · cases hok
    · cases hok
      obtain ⟨-, htable, hcwd⟩ := tables_kept_by_fork_and_execve.1 _ _ _ _ _ _ _ hcall
      exact ⟨htable (by decide) 3, hcwd (by decide)⟩
  · have hok := opened_execve
    generalize hcall : sysExecve smallEnv 1 [] 0x10000000 0 0 opened.memory = res at hok ⊢
    obtain _ | ⟨_ | frame, k', recorded'⟩ := res
    · cases hok
    · cases hok
    · exact ⟨frame, k', recorded', rfl,
        tables_kept_by_fork_and_execve.2 _ _ _ _ _ _ _ _ _ _ hcall⟩

/-- The process has a descriptor and a working directory, its child has neither;
and the descriptor is to be closed on exec, but it is there after a successful
`execve`. -/
theorem opened_not_inherited :
    (opened.memory.fs.lookup 1 3, opened.memory.fs.cwdForPid 1) =
      (some (.vfs 7 0 true), "/home") ∧
    ((opened.cloneCurrent 10 forkArgs 2 20).1.toOption,
      (opened.cloneCurrent 10 forkArgs 2 20).2.memory.fs.lookup 2 3,
      (opened.cloneCurrent 10 forkArgs 2 20).2.memory.fs.cwdForPid 2) = (some 2, none, "/") ∧
    (sysExecve smallEnv 1 [] 0x10000000 0 0 opened.memory).map
      (fun r => (r.1.toOption.isSome, r.2.1.fs.lookup 1 3)) =
        some (true, some (.vfs 7 0 true)) := by
  decide +kernel

end JanuaryOs.Exec

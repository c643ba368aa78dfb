import JanuaryOs.Exec.FrameBooks

/-!
# What collecting a child does to the address space of the caller

`reap_observed_child` releases the address space of the child. After that it
hands the record that the last `execve` of the child left to
`rollback_exec_mappings`, which works on the page table in force: the one of the
caller. A child that went through `exit_current_process` has no record any more.
One that was killed by a signal still has it, and then the caller loses the
pages at the recorded addresses, and the recorded frames lose a reference they
may not have had.
-/

namespace JanuaryOs.Exec

open Lib Virt Virt.Kernel Proc List Function

/-! ### Releasing a frame that is not in use -/

/-- Nothing refers to the frame and nothing maps it. -/
def FullyReleased (f : Frame) : Prop := f.refcount = 0 ∧ f.mapcount ≤ -1

instance (f : Frame) : Decidable (FullyReleased f) := instDecidableAnd

theorem refcount_releaseMapped (f : Frame) : f.releaseMapped.refcount = f.refcount - 1 := by
  unfold Frame.releaseMapped Frame.put Frame.decMapcount
  split <;> rfl

theorem mapcount_releaseMapped (f : Frame) :
    f.releaseMapped.mapcount = if f.mapcount ≤ -1 then f.mapcount else f.mapcount - 1 := by
  unfold Frame.releaseMapped Frame.put Frame.decMapcount
  split <;> rfl

theorem FullyReleased.releaseMapped {f : Frame} (h : FullyReleased f) : f.releaseMapped = f := by
  obtain ⟨refcount, mapcount, reserved⟩ := f
  obtain ⟨rfl, hmap⟩ := h
  unfold Frame.releaseMapped Frame.decMapcount
  rw [if_pos hmap]
  rfl

theorem counts_iterate_releaseMapped (c : ℕ) (f : Frame) :
    (Frame.releaseMapped^[c] f).refcount = f.refcount - c ∧
      (Frame.releaseMapped^[c] f).mapcount ≤ f.mapcount := by
  induction c generalizing f with
  | zero => exact ⟨rfl, le_rfl⟩
  | succ c ih =>
    obtain ⟨href, hmap⟩ := ih f.releaseMapped
    rw [iterate_succ_apply, href, refcount_releaseMapped]
    rw [mapcount_releaseMapped] at hmap
    refine ⟨by omega, hmap.trans ?_⟩
    split <;> omega

/-- A release is without effect only on a frame that is not in use. -/
theorem iterate_releaseMapped_eq_self_iff {c : ℕ} (hc : c ≠ 0) (f : Frame) :
    Frame.releaseMapped^[c] f = f ↔ FullyReleased f := by
  constructor
  · intro h
    obtain ⟨c, rfl⟩ := Nat.exists_eq_succ_of_ne_zero hc
    rw [iterate_succ_apply] at h
    obtain ⟨href, hmap⟩ := counts_iterate_releaseMapped c f.releaseMapped
    rw [h, refcount_releaseMapped] at href
    rw [h, mapcount_releaseMapped] at hmap
    refine ⟨by omega, ?_⟩
    by_contra hpos
    rw [if_neg hpos] at hmap
    omega
  · intro h
    exact iterate_fixed h.releaseMapped c

/-! ### Collecting a child -/

/-- The frame after each mapping in the address space of the child has been
released once. -/
def frameWithoutChild (k : Kernel) (c : Process) (f : Pfn) : Frame :=
  Frame.releaseUserMapped^[k.releasedMaps c.mm f] (k.frames f)

/-- Collecting the child does nothing to the caller: no translation of it
changes, no frame that it maps is freed, and every frame is released as often as
the address space of the child had it. -/
structure Harmless (s : System) (tid : TaskId) (c : Process) (s' : System) : Prop where
  pages : ∀ n, s'.memory.pte (s.currentMm tid) n = s.memory.pte (s.currentMm tid) n
  kept : ∀ n p, s'.memory.pte (s.currentMm tid) n = some p → (s'.memory.frames p.pfn).Free →
    (s.memory.frames p.pfn).Free
  frames : ∀ f, s'.memory.frames f = frameWithoutChild s.memory c f

/-- What has to be true before: the address space of the caller does not go with
the child, it has no page where the child has one on record, a recorded frame is
in use by the child alone, and the frames of the caller have references of their
own. -/
structure Reapable (s : System) (tid : TaskId) (c : Process) : Prop where
  own : s.currentMm tid = c.mm → s.memory.LastReference c.mm →
    ∀ n, s.memory.pte (s.currentMm tid) n = none
  pages : ∀ m ∈ c.execMappings, s.memory.pte (s.currentMm tid) (page m) = none
  recorded : ∀ m ∈ c.execMappings, FullyReleased (frameWithoutChild s.memory c m.phys)
  kept : ∀ n p, s.memory.pte (s.currentMm tid) n = some p →
    (frameWithoutChild s.memory c p.pfn).Free → (s.memory.frames p.pfn).Free

variable {s : System} {tid : TaskId} {child : ProcessId} {c : Process}

theorem reaped_memory (hc : s.collected tid child = some c) :
    (∀ n, (s.reapObservedChild tid child).memory.pte (s.currentMm tid) n =
      if n ∈ c.execMappings.map page ∨ s.currentMm tid = c.mm ∧
        s.memory.LastReference c.mm then none
      else s.memory.pte (s.currentMm tid) n) ∧
    ∀ f, (s.reapObservedChild tid child).memory.frames f =
      Frame.releaseMapped^[(c.execMappings.map ExecMappedPage.phys).count f]
        (frameWithoutChild s.memory c f) := by
  rcases reapObservedChild_memory s tid child with ⟨hnone, -⟩ | ⟨c', hc', -, hmemory⟩
  · cases hc.symm.trans hnone
  cases hc.symm.trans hc'
  rw [hmemory]
  obtain ⟨hdropped, hframes⟩ := rollbackExecMappings_spec
    (({ s.memory with fs := s.memory.fs.dropProcessFds child } : Kernel).mmRelease c.mm)
    (s.currentMm tid) c.execMappings
  refine ⟨fun n => ?_, fun f => ?_⟩
  · rw [hdropped.pte, mmRelease_pte]
    by_cases hn : n ∈ c.execMappings.map page
    · rw [if_pos ⟨rfl, hn⟩, if_pos (.inl hn)]
    rw [if_neg fun h => hn h.2]
    by_cases hlast : s.currentMm tid = c.mm ∧ s.memory.LastReference c.mm
    · rw [if_pos (by exact hlast), if_pos (.inr hlast)]
    · rw [if_neg (by exact hlast), if_neg fun h => h.elim hn hlast]
      rfl
  · rw [hframes, mmRelease_frames]
    rfl

/-- Collecting a zombie child leaves the caller alone exactly if the record of
the child does not touch anything that is not the child's. -/
theorem reap_harmless_iff (hc : s.collected tid child = some c) :
    Harmless s tid c (s.reapObservedChild tid child) ↔ Reapable s tid c := by
  obtain ⟨hpte, hframes⟩ := reaped_memory hc
  constructor
  · intro h
    refine ⟨fun hcur hlast n => ?_, fun m hm => ?_, fun m hm => ?_, fun n p hp hfree => ?_⟩
    · rw [← h.pages n, hpte, if_pos (.inr ⟨hcur, hlast⟩)]
    · rw [← h.pages, hpte, if_pos (.inl (mem_map_of_mem hm))]
    · have hcount : (c.execMappings.map ExecMappedPage.phys).count m.phys ≠ 0 :=
        (count_pos_iff.2 (mem_map_of_mem hm)).ne'
      refine (iterate_releaseMapped_eq_self_iff hcount _).1 ?_
      rw [← hframes]
      exact h.frames m.phys
    · refine h.kept n p ((h.pages n).trans hp) ?_
      rw [h.frames]
      exact hfree
  · intro h
    have hpages : ∀ n, (s.reapObservedChild tid child).memory.pte (s.currentMm tid) n =
        s.memory.pte (s.currentMm tid) n := by
      intro n
      rw [hpte]
      split
      · rename_i hgone
        rcases hgone with hn | ⟨hcur, hlast⟩
        · obtain ⟨m, hm, rfl⟩ := mem_map.1 hn
          exact (h.pages m hm).symm
        · exact (h.own hcur hlast n).symm
      · rfl
    have hreleased : ∀ f, (s.reapObservedChild tid child).memory.frames f =
        frameWithoutChild s.memory c f := by
      intro f
      rw [hframes]
      by_cases hf : f ∈ c.execMappings.map ExecMappedPage.phys
      · obtain ⟨m, hm, rfl⟩ := mem_map.1 hf
        exact iterate_fixed (h.recorded m hm).releaseMapped _
      · rw [count_eq_zero_of_not_mem hf]
        rfl
    refine ⟨hpages, fun n p hp hfree => ?_, hreleased⟩
    rw [hpages] at hp
    rw [hreleased] at hfree
    exact h.kept n p hp hfree

/-! ### With the books in order -/

/-- Where the reference counts are right, frames of the caller have references
of their own, and a recorded frame is the child's alone if nobody else maps it. -/
theorem Reapable.of_books {K : Pfn → Prop} (hbooks : s.memory.Books K)
    (hown : s.currentMm tid = c.mm → ¬ s.memory.LastReference c.mm)
    (huser : ∀ m ∈ c.execMappings, ¬ K m.phys)
    (hpages : ∀ m ∈ c.execMappings, s.memory.pte (s.currentMm tid) (page m) = none)
    (hmaps : ∀ m ∈ c.execMappings, s.memory.maps m.phys = s.memory.releasedMaps c.mm m.phys) :
    Reapable s tid c := by
  have hframe : ∀ f, ¬ K f → frameWithoutChild s.memory c f =
      .mapped ((s.memory.mmRelease c.mm).maps f) := by
    intro f hf
    rw [frameWithoutChild, (hbooks.accounted f).user hf, ← mmRelease_maps _ c.mm f,
      Frame.iterate_releaseUserMapped]
  refine ⟨fun hcur hlast => absurd hlast (hown hcur), hpages, fun m hm => ?_,
    fun n p hp hfree => ?_⟩
  · have hzero : (s.memory.mmRelease c.mm).maps m.phys = 0 := by
      have := mmRelease_maps s.memory c.mm m.phys
      have := hmaps m hm
      omega
    rw [hframe m.phys (huser m hm), hzero]
    exact ⟨rfl, le_rfl⟩
  · have hleft : (s.memory.mmRelease c.mm).pte (s.currentMm tid) n = some p := by
      rw [mmRelease_pte, if_neg fun h => hown h.1 h.2]
      exact hp
    have hK := (hbooks.accounted p.pfn).user_of_maps (maps_pos hp)
    rw [hframe p.pfn hK, Frame.mapped_free] at hfree
    exact absurd hfree (maps_pos hleft).ne'

/-! ### Two programs -/

/-- A program is started, has a child, and the child is killed. -/
def childKilled : List (Env × PageOp) :=
  [startOn 10 (range' 1 9), forkChild, ({}, .signal 10 2 TaskManager.SIGKILL)]

/-- The child has never started a program, and its parent does not notice that
it goes. -/
theorem reap_harmless_forked : ∃ s c,
    Run (ofPartial pageStep) lone childKilled s ∧ s.collected 10 2 = some c ∧
      Harmless s 10 c (s.reapObservedChild 10 2) := by
  have hexec : Executes PageOk pageStep lone childKilled fun s =>
      ∃ c ∈ s.collected 10 2, s.currentMm 10 ≠ c.mm ∧ c.execMappings = [] := by
    decide +kernel
  obtain ⟨s, hrun, c, hc, hne, hnil⟩ := Run.exists_of_exec hexec fun _ _ h => h
  have hbooked : Booked (fun f => ¬ (lone.memory.frames f).Free) s := by
    refine hrun.invariant (Booked fun f => ¬ (lone.memory.frames f).Free) ?_ unloaded_lone.booked
    intro s call s' h hstep
    exact pageStep_booked h hstep.1 hstep.2
  refine ⟨s, c, hrun.mono fun _ _ _ h => h.2, hc, (reap_harmless_iff hc).2 ?_⟩
  refine Reapable.of_books hbooked.books (fun heq => absurd heq hne) ?_ ?_ ?_
  all_goals
    rw [hnil]
    exact nofun

/-- Parent and child start the program, each for itself, and the child is
killed. -/
def bothStarted : List (Env × PageOp) :=
  [forkChild, startOn 20 (range' 11 9), startOn 10 (range' 1 9),
    ({}, .signal 10 2 TaskManager.SIGKILL)]

/-- The parent collects the child and loses the first page of its program. The
frame of this page stays in use. -/
theorem reaper_loses_its_program :
    ((systemAfter bothStarted).map fun s => (s.memory.translate 1 0x400000,
        (s.tasks.reapObservedChild 10 2).1.isSome)) = some (some ⟨1, ⟨false, false⟩⟩, true) ∧
      ((systemAfter (bothStarted ++ [(({} : Env), .reap 10 2)])).map fun s =>
        (s.memory.translate 1 0x400000, (s.memory.frames 1).refcount, s.memory.maps 1)) =
          some (none, 1, 0) := by
  decide +kernel

end JanuaryOs.Exec

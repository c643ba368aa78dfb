import JanuaryOs.Exec.StackSpec
import JanuaryOs.Exec.StageSpec
import JanuaryOs.Virt.Invariant

/-!
# What an `execve` comes to once its arguments are read

Whether a plan is carried out can be told from the memory before the call:
`Loads` lists what it takes. If it is carried out, the new pages are in and the
areas are exchanged (`Replaced`). If not, the way back goes through the record
of the old pages: what the record does not list is as it was, and what it lists
is as recorded, or gone if a page table for it is missing (`Restored`).
-/

namespace JanuaryOs.Exec

open Lib Virt Virt.Kernel Virt.Mm Proc List

variable {k k1 k2 k3 : Kernel} {id : MmId} {mm : Mm} {plan : ExecLoadPlan} {imageLen : ℕ}
  {image : List UInt8}

/-! ### Pages of a plan -/

def areaPages (a : Vma) : List ℕ := range' (pageNumber a.start) ((a.stop - a.start) / pageSize)

theorem pageNumber_add_mul (start i : ℕ) :
    pageNumber (start + i * pageSize) = pageNumber start + i :=
  Nat.add_mul_div_right start i (by decide)

theorem map_pageNumber_range (start count : ℕ) :
    (range count).map (fun i => pageNumber (start + i * pageSize)) =
      range' (pageNumber start) count := by
  simp only [pageNumber_add_mul]
  exact (range'_eq_map_range).symm

theorem stagePages_areaPages (hplan : plan.Ok imageLen) :
    plan.stagePages.map (fun p => pageNumber p.virt) =
      (buildExecVmaPlan plan).flatMap areaPages := by
  have hpos : 0 < pageSize := by decide
  have hseg : ∀ s ∈ plan.segments, (s.stagePages.map fun p => pageNumber p.virt) =
      areaPages ⟨s.pageStart, s.pageEnd, { flags := s.vmFlags }⟩ := by
    intro s hs
    have hpages := (hplan.segment s hs).pages
    rw [ExecLoadSegmentPlan.stagePages, map_map, areaPages, ← hpages,
      Nat.mul_div_cancel _ hpos]
    exact map_pageNumber_range _ _
  have hstack : (plan.stackStagePages.map fun p => pageNumber p.virt) =
      areaPages ⟨plan.stackBottom, plan.stackTop, { flags := stackVmFlags }⟩ := by
    rw [ExecLoadPlan.stackStagePages, map_map, areaPages]
    have hcount : (plan.stackTop - plan.stackBottom) / pageSize = plan.stackPages := by
      rw [stackBottom_eq hplan, hplan.stackTop, hplan.stackPages]
      rfl
    rw [hcount]
    exact map_pageNumber_range _ _
  rw [ExecLoadPlan.stagePages, buildExecVmaPlan, map_append, flatMap_append,
    flatMap_singleton, hstack, map_flatMap, flatMap_map]
  congr 1
  exact flatMap_congr hseg

theorem buildExecVmaPlan_aligned (hplan : plan.Ok imageLen) {a : Vma}
    (ha : a ∈ buildExecVmaPlan plan) : pageSize ∣ a.start ∧ pageSize ∣ a.stop := by
  rcases mem_append.1 ha with ha | ha
  · obtain ⟨s, hs, rfl⟩ := mem_map.1 ha
    exact ⟨(hplan.segment s hs).start_aligned, (hplan.segment s hs).end_aligned⟩
  · rw [mem_singleton.1 ha]
    simp only [stackBottom_eq hplan, hplan.stackTop]
    decide

theorem mem_areaPages {a : Vma} (hstart : pageSize ∣ a.start) (hstop : pageSize ∣ a.stop)
    (hlt : a.start < a.stop) {n : ℕ} :
    n ∈ areaPages a ↔ a.start ≤ n * pageSize ∧ n * pageSize < a.stop := by
  obtain ⟨i, hi⟩ := hstart
  obtain ⟨j, hj⟩ := hstop
  simp only [areaPages, mem_range'_1, pageNumber, pageSize] at *
  omega

theorem stagePages_nodup (hplan : plan.Ok imageLen) (hstack : StackApart plan) :
    (plan.stagePages.map fun p => pageNumber p.virt).Nodup := by
  rw [stagePages_areaPages hplan, nodup_flatMap]
  refine ⟨fun a _ => nodup_range', ?_⟩
  refine (buildExecVmaPlan_apart hplan hstack).imp_of_mem fun {a b} ha hb hapart n hna hnb => ?_
  obtain ⟨hsa, hea⟩ := buildExecVmaPlan_aligned hplan ha
  obtain ⟨hsb, heb⟩ := buildExecVmaPlan_aligned hplan hb
  have ha := (mem_areaPages hsa hea (buildExecVmaPlan_user hplan ha).2.1).1 hna
  have hb := (mem_areaPages hsb heb (buildExecVmaPlan_user hplan hb).2.1).1 hnb
  rcases hapart with h | h <;> omega

/-- The segments of a plan lie in the image, so filling a page does not fail. -/
theorem fill_ok (hplan : plan.Ok image.length) {p : StagePage} (hp : p ∈ plan.stagePages)
    (data : PageData) : ∃ data', p.fill image data = .ok data' := by
  rcases mem_append.1 hp with hp | hp
  · obtain ⟨s, hs, hp⟩ := mem_flatMap.1 hp
    obtain ⟨i, hi, rfl⟩ := mem_map.1 hp
    have hseg := hplan.segment s hs
    have hmax : userSpaceEnd + pageSize ≤ u64Max := by decide
    have hpage : s.pageStart + i * pageSize < s.pageEnd := by
      have := hseg.pages
      have : i * pageSize < s.pageCount * pageSize :=
        Nat.mul_lt_mul_of_pos_right (mem_range.1 hi) (by decide)
      omega
    have := hseg.user_end
    have := hseg.in_pages
    have := hseg.file_le
    have := hseg.in_image
    have := hseg.in_file
    simp only [StagePage.fill, copySegmentPageData]
    rw [if_neg (by omega)]
    split
    · exact ⟨_, rfl⟩
    rw [if_neg (by omega)]
    split
    · exact ⟨_, rfl⟩
    · rw [if_neg (by omega), if_neg (by omega)]
      exact ⟨_, rfl⟩
  · obtain ⟨i, -, rfl⟩ := mem_map.1 hp
    exact ⟨data, rfl⟩

/-! ### Staging and its way back -/

/-- The tests before staging are that the stack is apart from the segments and
that the target is free. -/
theorem checkStage_eq (hplan : plan.Ok imageLen) (hid : k.mms.get? id = some mm) :
    (checkStage mm plan = .ok () ∧ StackApart plan ∧
      ∀ p ∈ plan.stagePages, k.pte id (pageNumber p.virt) = none) ∨
    ((∃ e, checkStage mm plan = .error e) ∧ ¬ (StackApart plan ∧
      ∀ p ∈ plan.stagePages, k.pte id (pageNumber p.virt) = none)) := by
  have htop : plan.stackTop = 0x7FFFFFFFF000 := hplan.stackTop
  have hbottom : plan.stackBottom = 0x7FFFFFFF7000 := stackBottom_eq hplan
  have hsize : plan.stackPages * pageSize = 0x8000 := by rw [hplan.stackPages]; rfl
  have hlo : userSpaceStart = 0x400000 := rfl
  have hhi : userSpaceEnd = 0x800000000000 := rfl
  have hpte : ∀ addr, k.pte id (pageNumber addr) = mm.translate addr := fun addr => by
    rw [pte, hid]
    rfl
  rw [checkStage, if_neg (by omega), if_neg (by omega), if_neg (by omega), if_neg (by omega)]
  split
  · rename_i hany
    obtain ⟨s, hs, hoverlap⟩ := any_eq_true.1 hany
    exact .inr ⟨⟨_, rfl⟩, fun h => Bool.false_ne_true ((h.1 s hs).symm.trans hoverlap)⟩
  rename_i hapart
  have hapart : StackApart plan := fun s hs => by
    rw [any_eq_true, not_exists] at hapart
    exact Bool.eq_false_iff.2 fun h => hapart s ⟨hs, h⟩
  split
  · rename_i hany
    obtain ⟨p, hp, hsome⟩ := any_eq_true.1 hany
    refine .inr ⟨⟨_, rfl⟩, fun h => ?_⟩
    rw [← hpte, h.2 p hp] at hsome
    cases hsome
  · rename_i hfree
    refine .inl ⟨rfl, hapart, fun p hp => ?_⟩
    rw [any_eq_true, not_exists] at hfree
    rw [hpte]
    exact Option.not_isSome_iff_eq_none.1 fun h => hfree p ⟨hp, h⟩

/-- Address spaces and backings are as before, and so are the frames if the free
ones were in order. -/
structure Unchanged (k k' : Kernel) : Prop where
  fs : k'.fs = k.fs
  skeleton : k'.skeleton = k.skeleton
  pte : k'.pte = k.pte
  frames : (∀ f, (k.frames f).Free → (k.frames f).mapcount = -1) → k'.frames = k.frames

theorem releaseMapped_staged {f : Frame} (hfree : f.Free) (hmap : f.mapcount = -1) :
    f.setCountOne.incMapcount.releaseMapped = f := by
  obtain ⟨refcount, mapcount, reserved⟩ := f
  obtain ⟨rfl, rfl⟩ := hfree
  cases hmap
  rfl

/-- `rollback_exec_mappings` undoes staging, also after changes that pages and
frames do not show. -/
theorem rollback_staged {new : List ExecMappedPage} (h : Staged k id new k1)
    (habs : ∀ m ∈ new, k.pte id (page m) = none) (hpte : k2.pte = k1.pte)
    (hframes : k2.frames = k1.frames) :
    (rollbackExecMappings k2 id new).fs = k2.fs ∧
      (rollbackExecMappings k2 id new).skeleton = k2.skeleton ∧
      (rollbackExecMappings k2 id new).pte = k.pte ∧
      ((∀ f, (k.frames f).Free → (k.frames f).mapcount = -1) →
        (rollbackExecMappings k2 id new).frames = k.frames) := by
  obtain ⟨hdropped, hreleased⟩ := rollbackExecMappings_spec k2 id new
  refine ⟨hdropped.fs, hdropped.skeleton, funext fun i => funext fun n => ?_,
    fun hfree => funext fun f => ?_⟩
  · rw [hdropped.pte, hpte]
    split
    · rename_i hin
      obtain ⟨rfl, hin⟩ := hin
      obtain ⟨m, hm, rfl⟩ := mem_map.1 hin
      exact (habs m hm).symm
    · rename_i hin
      exact h.others i n hin
  · rw [hreleased, hframes, h.frames]
    by_cases hf : f ∈ new.map ExecMappedPage.phys
    · obtain ⟨m, hm, rfl⟩ := mem_map.1 hf
      rw [if_pos hf, count_eq_one_of_mem h.nodup hf]
      exact releaseMapped_staged (h.free m hm) (hfree _ (h.free m hm))
    · rw [if_neg hf, count_eq_zero_of_not_mem hf]
      rfl

/-- What staging takes, on the memory in which it begins. -/
def Stages (k : Kernel) (id : MmId) (plan : ExecLoadPlan) : Prop :=
  StackApart plan ∧ (∀ p ∈ plan.stagePages, k.pte id (pageNumber p.virt) = none) ∧
    Ready k id (plan.stagePages.map StagePage.virt)

theorem stagePtLoadMappings_spec (hplan : plan.Ok image.length) (hid : k.mms.get? id = some mm) :
    (Stages k id plan ∧ ∃ staged k', stagePtLoadMappings k id image plan = (.ok staged, k') ∧
      Staged k id staged k' ∧ List.Forall₂ Records staged plan.stagePages) ∨
    (¬ Stages k id plan ∧ ∃ e k', stagePtLoadMappings k id image plan = (.error e, k') ∧
      Unchanged k k') := by
  rw [stagePtLoadMappings, hid]
  rcases checkStage_eq hplan hid with ⟨hcheck, hstack, habs⟩ | ⟨⟨e, hcheck⟩, hnot⟩
  · simp only [hcheck]
    obtain ⟨r, new, k', hloop, hstaged, hinit, hcase⟩ := stageLoop_spec hid
      (fun p hp => fill_ok hplan hp) (stagePages_nodup hplan hstack) (fun _ _ => not_mem_nil)
      habs (.refl k id)
    rw [nil_append] at hloop hstaged
    rcases hcase with ⟨rfl, hrecords, hready⟩ | ⟨⟨e, rfl⟩, hready⟩
    · simp only [hloop]
      exact .inl ⟨⟨hstack, habs, hready⟩, new, k', rfl, hstaged, hrecords⟩
    simp only [hloop]
    have habs' : ∀ m ∈ new, k.pte id (page m) = none := by
      intro m hm
      obtain ⟨p, hp, heq⟩ := mem_map.1 (hinit.subset (mem_map_of_mem hm))
      rw [← heq]
      exact habs p hp
    obtain ⟨hfs, hsk, hpte, hframes⟩ := rollback_staged hstaged habs' rfl rfl
    exact .inr ⟨fun h => hready h.2.2, e, _, rfl, hfs.trans hstaged.fs,
      hsk.trans hstaged.skeleton, hpte, hframes⟩
  · simp only [hcheck]
    exact .inr ⟨fun h => hnot ⟨h.1, h.2.1⟩, e, k, rfl, rfl, rfl, rfl, fun _ => rfl⟩

variable {recorded staged : List ExecMappedPage}

theorem map_page_of_records {pages : List StagePage} (h : List.Forall₂ Records staged pages) :
    staged.map page = pages.map fun p => pageNumber p.virt := by
  induction h with
  | nil => rfl
  | cons hrec _ ih => rw [map_cons, map_cons, ih, page, hrec.1]

/-! ### Areas and stack -/

theorem modify_eq_setMm (hid : k.mms.get? id = some mm) (f : Mm → Mm) :
    { k with mms := k.mms.modify id f } = k.setMm id (f mm) := by
  refine congrArg (fun mms => { k with mms := mms }) (OrdMap.ext_get? fun i => ?_)
  rw [OrdMap.get?_modify, OrdMap.get?_insert]
  split
  · rename_i hi
    rw [hid]
    rfl
  · rfl

/-- The pages of the initial stack were staged writable. -/
theorem writable_of_staged (hplan : plan.Ok imageLen) (hstaged : Staged k id staged k1)
    (hrecords : List.Forall₂ Records staged plan.stagePages) (hpte : k2.pte = k1.pte) :
    Writable k2 id plan.stackBottom plan.stackTop := by
  intro addr hlo hhi
  have hbottom : plan.stackBottom = 0x7FFFFFFF7000 := stackBottom_eq hplan
  have htop : plan.stackTop = 0x7FFFFFFFF000 := hplan.stackTop
  have hpages : plan.stackPages = 8 := hplan.stackPages
  -- the page of the plan at this address, and its record
  have hp : (⟨plan.stackBottom + (addr - plan.stackBottom) / pageSize * pageSize, ⟨true, true⟩,
      .stack, none⟩ : StagePage) ∈ plan.stagePages := by
    refine mem_append_right _ (mem_map.2 ⟨(addr - plan.stackBottom) / pageSize, ?_, rfl⟩)
    rw [mem_range, hpages]
    simp only [pageSize]
    omega
  obtain ⟨i, hi, heq⟩ := getElem_of_mem hp
  have hi' : i < staged.length := hrecords.length_eq ▸ hi
  have hrec := hrecords.get hi' hi
  rw [get_eq_getElem, get_eq_getElem, heq] at hrec
  obtain ⟨hvirt, hflags, -⟩ := hrec
  have hentered := hstaged.entered staged[i] (getElem_mem hi')
  have hpage : page staged[i] = pageNumber addr := by
    rw [page, hvirt]
    simp only [pageNumber, pageSize]
    omega
  refine ⟨⟨staged[i].phys, staged[i].flags⟩, ?_⟩
  rw [accessible, translate_eq_pte, hpte, ← hpage, hentered]
  simp only [hflags, Option.filter, Pte.allows, if_true]

/-- Areas and stack of a new program are in place. -/
structure Installed (k : Kernel) (id : MmId) (plan : ExecLoadPlan) (k' : Kernel) : Prop where
  fs : k'.fs = k.fs
  frames : k'.frames = k.frames
  pte : k'.pte = k.pte
  maps : k'.maps = k.maps
  others : ∀ i, i ≠ id → k'.skeleton i = k.skeleton i
  space : ∃ mm mm' argStart argEnd envStart envEnd, k.mms.get? id = some mm ∧
    Moved mm mm' (userVmas mm) (buildExecVmaPlan plan) ∧
    k'.skeleton id = some { restoreMmLayout mm' plan.layout with
      argStart := argStart, argEnd := argEnd, envStart := envStart, envEnd := envEnd }.skeleton

def ExecPayload.args (payload : ExecPayload) : List (List UInt8) :=
  if payload.argv = [] then [payload.path] else payload.argv

theorem commitExec_spec (hplan : plan.Ok imageLen) (hstack : StackApart plan)
    (hid : k.mms.get? id = some mm) (hwords : mm.Words) (hstaged : Staged k id staged k1)
    (hrecords : List.Forall₂ Records staged plan.stagePages)
    (habs : ∀ m ∈ staged, k.pte id (page m) = none) (x : ExecEnv) (previous : List ExecMappedPage)
    (payload : ExecPayload) :
    (StackFits payload.args payload.envp ∧ ∃ rsp k',
      commitExec x id previous staged plan payload k1 =
        some (.ok ⟨plan.entry, rsp⟩, k', staged) ∧ Installed k1 id plan k') ∨
    (¬ StackFits payload.args payload.envp ∧ ∃ e k',
      commitExec x id previous staged plan payload k1 = some (failExec x id previous none e k') ∧
        Unchanged k k') := by
  obtain ⟨mm1, hid1, hsk1⟩ := exists_mm_of_skeleton hid hstaged.skeleton
  have hwords1 : mm1.Words := Mm.words_of_skeleton hsk1 hwords
  obtain ⟨mm2, hinstall, hmoved⟩ := installCurrentExecVmas_ok hplan hstack hwords1
  rw [commitExec, hid1]
  simp only [hinstall]
  have hpages : (restoreMmLayout mm2 plan.layout).pageTable = mm1.pageTable :=
    hmoved.exchanged.pageTable
  have hpte2 := pte_setMm hid1 hpages
  have hmaps2 := maps_setMm hid1 hpages
  generalize hk2 : k1.setMm id (restoreMmLayout mm2 plan.layout) = k2 at hpte2 hmaps2
  have hw := writable_of_staged hplan hstaged hrecords hpte2
  obtain ⟨r, k3, hsetup, hcase⟩ := setupInitialUserStack_spec hplan hw payload.args payload.envp
  rw [← ExecPayload.args, hsetup]
  have hid2 : k2.mms.get? id = some (restoreMmLayout mm2 plan.layout) := by
    rw [← hk2]
    exact OrdMap.get?_insert_self _ _ _
  have hothers2 : ∀ i, i ≠ id → k2.skeleton i = k1.skeleton i := fun i hi => by
    rw [← hk2, skeleton_setMm, if_neg hi]
  have hframes2 : k2.frames = k1.frames := by rw [← hk2]; rfl
  have hfs2 : k2.fs = k1.fs := by rw [← hk2]; rfl
  clear hk2
  rcases hcase with ⟨⟨sp, rfl⟩, hfits, a, b, c, d, hbooks⟩ | ⟨⟨e, rfl⟩, hfits, hbooks⟩
  · rw [modify_eq_setMm hid2] at hbooks
    refine .inl ⟨hfits, sp, k3, rfl, hbooks.fs.trans hfs2, hbooks.frames.trans hframes2,
      hbooks.pte.trans ((pte_setMm hid2 (by rfl)).trans hpte2),
      hbooks.maps_eq.trans ((maps_setMm hid2 (by rfl)).trans hmaps2), ?_, ?_⟩
    · intro i hi
      rw [hbooks.skeleton, skeleton_setMm, if_neg hi, hothers2 i hi]
    · refine ⟨mm1, mm2, a, b, c, d, hid1, hmoved, ?_⟩
      rw [hbooks.skeleton, skeleton_setMm, if_pos rfl]
  · obtain ⟨hfs4, hsk4, hpte4, hframes4⟩ := rollback_staged hstaged habs (hbooks.pte.trans hpte2)
      (hbooks.frames.trans hframes2)
    refine .inr ⟨hfits, e, { rollbackExecMappings k3 id staged with
      mms := (rollbackExecMappings k3 id staged).mms.modify id fun mm =>
        restoreCurrentExecVmas mm ⟨snapshotMmLayout mm1, userVmas mm1⟩ }, rfl, ?_⟩
    generalize rollbackExecMappings k3 id staged = k4 at hfs4 hsk4 hpte4 hframes4
    have hsk42 : k4.skeleton = k2.skeleton := hsk4.trans hbooks.skeleton
    obtain ⟨mm4, hid4, hmm4⟩ := exists_mm_of_skeleton hid2 hsk42
    have hback : restoreCurrentExecVmas mm4 ⟨snapshotMmLayout mm1, userVmas mm1⟩ =
        { mm1 with pageTable := mm4.pageTable } := by
      have htree := congrArg Mm.vmaTree hmm4
      have hcounters := congrArg Mm.counters hmm4
      have hcount := congrArg Mm.mmCount hmm4
      refine restoreCurrentExecVmas_moved hplan hstack hwords1 hmoved htree hcounters
        (Mm.words_of_skeleton hmm4 ?_) hcount
      exact ⟨hmoved.words.1, hmoved.words.2, hmoved.words.3, hmoved.words.4⟩
    rw [modify_eq_setMm hid4, hback]
    refine ⟨hfs4.trans (hbooks.fs.trans (hfs2.trans hstaged.fs)), funext fun i => ?_,
      (pte_setMm hid4 (by rfl)).trans hpte4, hframes4⟩
    rw [skeleton_setMm]
    split
    · rename_i hi
      rw [hi, Kernel.skeleton, hid]
      exact congrArg some hsk1
    · rename_i hi
      rw [hsk42, hothers2 i hi, hstaged.skeleton]

/-! ### The way back -/

/-- The leaf tables that stay when the recorded pages are unmapped. -/
def keptTables (k : Kernel) (id : MmId) (recorded : List ExecMappedPage) : List ℕ :=
  ((k.mms.get? id).map fun mm => (mm.pageTable.entries.filter fun e =>
    e.1 ∉ recorded.map page).map fun e => e.1 / tableEntries).getD []

theorem mem_keptTables {t : ℕ} : t ∈ keptTables k id recorded ↔
    ∃ n p, k.pte id n = some p ∧ n ∉ recorded.map page ∧ n / tableEntries = t := by
  unfold keptTables pte
  cases k.mms.get? id with
  | none => simp
  | some mm => simp [OrdMap.mem_entries_iff, and_assoc]

theorem Dropped.mem_leafTables (h : Dropped k id recorded k1) (t : ℕ) :
    t ∈ k1.leafTables id ↔ t ∈ keptTables k id recorded := by
  rw [Kernel.mem_leafTables, mem_keptTables]
  constructor
  · rintro ⟨n, p, hp, rfl⟩
    rw [h.pte] at hp
    by_cases hn : n ∈ recorded.map page
    · rw [if_pos ⟨rfl, hn⟩] at hp
      cases hp
    · rw [if_neg fun hin => hn hin.2] at hp
      exact ⟨n, p, hp, hn, rfl⟩
  · rintro ⟨n, p, hp, hn, rfl⟩
    exact ⟨n, p, by rw [h.pte, if_neg fun hin => hn hin.2]; exact hp, rfl⟩

/-- The page tables with which the recorded pages can be mapped back after a
failure. -/
def RestoreTables (x : ExecEnv) (k : Kernel) (id : MmId) (recorded : List ExecMappedPage) : Prop :=
  TablesReady x.restoreTables
    (newTables (keptTables k id recorded) (recorded.map fun m => tableOf m.virt))

instance (x : ExecEnv) (k : Kernel) (id : MmId) (recorded : List ExecMappedPage) :
    Decidable (RestoreTables x k id recorded) :=
  inferInstanceAs (Decidable (TablesReady _ _))

/-- The memory after a call that failed with the recorded pages unmapped. -/
structure Restored (x : ExecEnv) (k : Kernel) (id : MmId) (recorded recorded' : List ExecMappedPage)
    (k' : Kernel) : Prop where
  fs : k'.fs = k.fs
  skeleton : k'.skeleton = k.skeleton
  frames : (∀ f, (k.frames f).Free → (k.frames f).mapcount = -1) → k'.frames = k.frames
  others : ∀ i n, ¬ (i = id ∧ n ∈ recorded.map page) → k'.pte i n = k.pte i n
  outcome : RestoreTables x k id recorded ∧ recorded' = recorded ∧
      (∀ m ∈ recorded, k'.pte id (page m) = some ⟨m.phys, m.flags⟩) ∨
    ¬ RestoreTables x k id recorded ∧ recorded' = [] ∧ ∀ m ∈ recorded, k'.pte id (page m) = none

theorem failExec_spec (hid : k.mms.get? id = some mm) (hnodup : (recorded.map page).Nodup)
    (hdropped : Dropped k id recorded k1) (hframes : k1.frames = k.frames) (hsame : Unchanged k1 k2)
    (x : ExecEnv) (e : Errno) :
    ∃ e' k' recorded', failExec x id recorded none e k2 = (.error e', k', recorded') ∧
      Restored x k id recorded recorded' k' := by
  let k3 : Kernel := { k2 with env := { k2.env with tables := x.restoreTables } }
  have hpte : k3.pte = k1.pte := hsame.pte
  have hsk : k3.skeleton = k.skeleton := hsame.skeleton.trans hdropped.skeleton
  obtain ⟨mm3, hid3, -⟩ := exists_mm_of_skeleton hid hsk
  have habs : ∀ m ∈ recorded, k3.pte id (page m) = none := fun m hm => by
    rw [hpte, hdropped.pte, if_pos ⟨rfl, mem_map_of_mem hm⟩]
  have htables : TablesFor k3 id recorded ↔ RestoreTables x k id recorded := by
    refine iff_of_eq (congrArg (TablesReady x.restoreTables) (newTables_congr (fun t => ?_) _))
    rw [← hdropped.mem_leafTables, Kernel.mem_leafTables, Kernel.mem_leafTables, hpte]
  have hfr : (∀ f, (k.frames f).Free → (k.frames f).mapcount = -1) → k3.frames = k.frames :=
    fun hfree => (hsame.frames (by rwa [hframes])).trans hframes
  have hothers : ∀ i n, ¬ (i = id ∧ n ∈ recorded.map page) → k3.pte i n = k.pte i n :=
    fun i n hn => by rw [hpte, hdropped.pte, if_neg hn]
  have hfs : k3.fs = k.fs := hsame.fs.trans hdropped.fs
  rw [failExec]
  rcases remapExecMappings_spec hid3 hnodup habs with
    ⟨hready, k', hremap, h⟩ | ⟨hready, k', hremap, hfs', hsk', hframes', hpte'⟩
  · rw [hremap]
    refine ⟨e, k', recorded, rfl, h.fs.trans hfs, h.skeleton.trans hsk,
      fun hfree => h.frames.trans (hfr hfree), fun i n hn =>
        (h.others i n hn).trans (hothers i n hn),
      .inl ⟨htables.1 hready, rfl, h.entered⟩⟩
  · rw [hremap]
    refine ⟨_, k', [], rfl, hfs'.trans hfs, hsk'.trans hsk,
      fun hfree => hframes'.trans (hfr hfree), fun i n hn => ?_,
      .inr ⟨fun h => hready (htables.2 h), rfl, fun m hm => ?_⟩⟩
    · rw [hpte']
      exact hothers i n hn
    · rw [hpte']
      exact habs m hm

/-! ### The call -/

/-- The plan of a program, if its file is read and accepted. -/
def ExecEnv.plan? (x : ExecEnv) (path : List UInt8) : Option ExecLoadPlan :=
  match x.readAll path with
  | .error _ => none
  | .ok image => (buildElfLoadPlan image).toOption

/-- What it takes for a plan to be carried out, on the memory before the call. -/
structure Loads (k : Kernel) (id : MmId) (recorded : List ExecMappedPage) (plan : ExecLoadPlan)
    (payload : ExecPayload) : Prop where
  stack : StackApart plan
  target : ∀ p ∈ plan.stagePages, k.pte id (pageNumber p.virt) ≠ none →
    pageNumber p.virt ∈ recorded.map page
  frames : FramesReady k.frames k.env.frames plan.stagePages.length
  tables : TablesReady k.env.tables
    (newTables (keptTables k id recorded) (plan.stagePages.map fun p => tableOf p.virt))
  fits : StackFits payload.args payload.envp

/-- The memory after a call that succeeded. -/
structure Replaced (k : Kernel) (id : MmId) (recorded : List ExecMappedPage) (plan : ExecLoadPlan)
    (staged : List ExecMappedPage) (k' : Kernel) : Prop where
  records : List.Forall₂ Records staged plan.stagePages
  staged : ∃ k1 k2, Dropped k id recorded k1 ∧ k1.frames = k.frames ∧ Staged k1 id staged k2 ∧
    Installed k2 id plan k'

theorem stages_iff (hdropped : Dropped k id recorded k1) (hframes : k1.frames = k.frames) :
    Stages k1 id plan ↔
      StackApart plan ∧ (∀ p ∈ plan.stagePages, k.pte id (pageNumber p.virt) ≠ none →
        pageNumber p.virt ∈ recorded.map page) ∧
      FramesReady k.frames k.env.frames plan.stagePages.length ∧
      TablesReady k.env.tables
        (newTables (keptTables k id recorded) (plan.stagePages.map fun p => tableOf p.virt)) := by
  have htarget : ∀ p : StagePage, k1.pte id (pageNumber p.virt) = none ↔
      (k.pte id (pageNumber p.virt) ≠ none → pageNumber p.virt ∈ recorded.map page) := by
    intro p
    rw [hdropped.pte]
    by_cases hp : pageNumber p.virt ∈ recorded.map page
    · simp [hp]
    · simp only [hp, and_false, if_false, imp_false, not_not]
  unfold Stages Ready
  rw [hframes, hdropped.env, length_map, map_map,
    newTables_congr hdropped.mem_leafTables]
  simp only [htarget]
  rfl

/-- A call with its arguments at hand either finds no plan, or carries it out,
or finds its way back. -/
theorem execvePayload_spec (hid : k.mms.get? id = some mm) (hwords : mm.Words)
    (hnodup : (recorded.map page).Nodup) (x : ExecEnv) (payload : ExecPayload) :
    (x.plan? payload.path = none ∧
      ∃ e, execvePayload x id recorded payload k = some (.error e, k, recorded)) ∨
    ∃ image plan, x.readAll payload.path = .ok image ∧ x.plan? payload.path = some plan ∧
      plan.Ok image.length ∧
      ((Loads k id recorded plan payload ∧ ∃ frame k' staged,
          execvePayload x id recorded payload k = some (.ok frame, k', staged) ∧
          Replaced k id recorded plan staged k') ∨
        (¬ Loads k id recorded plan payload ∧ ∃ e k' recorded',
          execvePayload x id recorded payload k = some (.error e, k', recorded') ∧
          Restored x k id recorded recorded' k')) := by
  unfold ExecEnv.plan? execvePayload
  cases himage : x.readAll payload.path with
  | error e => exact .inl ⟨rfl, e, rfl⟩
  | ok image =>
    simp only
    cases hbuild : buildElfLoadPlan image with
    | error e => exact .inl ⟨rfl, e, rfl⟩
    | ok plan =>
      have hplan := buildElfLoadPlan_ok hbuild
      refine .inr ⟨image, plan, rfl, rfl, hplan, ?_⟩
      simp only [loadImage]
      obtain ⟨hdropped, hframes⟩ := unmapExecMappings_spec k id recorded
      generalize unmapExecMappings k id recorded = k1 at hdropped hframes
      obtain ⟨mm1, hid1, hmm1⟩ := exists_mm_of_skeleton hid hdropped.skeleton
      have hstages : Stages k1 id plan ↔ _ := stages_iff hdropped hframes
      rcases stagePtLoadMappings_spec hplan hid1 with
        ⟨hst, staged, k2, hstage, hstaged, hrecords⟩ | ⟨hst, e, k2, hstage, hsame⟩
      · rw [hstage]
        obtain ⟨hstack, htarget, hfr, htb⟩ := hstages.1 hst
        have habs : ∀ m ∈ staged, k1.pte id (page m) = none := by
          intro m hm
          have hm := mem_map_of_mem (f := page) hm
          rw [map_page_of_records hrecords] at hm
          obtain ⟨p, hp, heq⟩ := mem_map.1 hm
          rw [← heq]
          exact hst.2.1 p hp
        rcases commitExec_spec hplan hstack hid1 (Mm.words_of_skeleton hmm1 hwords) hstaged
            hrecords habs x recorded payload with
          ⟨hfits, rsp, k', hcommit, hinst⟩ | ⟨hfits, e, k', hcommit, hsame⟩
        · exact .inl ⟨⟨hstack, htarget, hfr, htb, hfits⟩, _, k', staged, hcommit, hrecords,
            k1, k2, hdropped, hframes, hstaged, hinst⟩
        obtain ⟨e', k4, recorded', hfail, hrest⟩ :=
          failExec_spec hid hnodup hdropped hframes hsame x e
        exact .inr ⟨fun h => hfits h.fits, e', k4, recorded', by simp only [hcommit, hfail],
          hrest⟩
      · rw [hstage]
        obtain ⟨e', k4, recorded', hfail, hrest⟩ :=
          failExec_spec hid hnodup hdropped hframes hsame x e
        exact .inr ⟨fun h => hst (hstages.2 ⟨h.stack, h.target, h.frames, h.tables⟩), e', k4,
          recorded', by simp only [hfail], hrest⟩

end JanuaryOs.Exec

import JanuaryOs.Virt.CopyOnWrite
import JanuaryOs.Virt.Counters

/-!
# The books of the frames, without the isolation of the address spaces

`Books` is what the reference counts need: every frame is in order and the areas
are as the calls make them. Page faults, `munmap` and `mm_release` keep it
without a condition. `mm_clone` keeps it as long as no counter runs over; that
an area is read-only does not matter here.
-/

namespace JanuaryOs.Virt.Kernel

open Lib OrdMap List
open Fs (FsState)
open Proc (ExecMappedPage)

/-- Every frame is in order, the areas are as the calls make them, and the
counters are words. -/
structure Books (K : Pfn → Prop) (k : Kernel) : Prop where
  accounted : k.Accounted K
  spaces : ∀ id mm, k.skeleton id = some mm → mm.Wf ∧ mm.Words

variable {K : Pfn → Prop} {k k' : Kernel} {id src dst : MmId} {mm mm' : Mm} {addr : ℕ}
  {todo : List (VmFlags × ℕ)} {pages : List ℕ}

theorem Books.wf_mm (h : k.Books K) (hid : k.mms.get? id = some mm) : mm.Wf :=
  wf_skeleton.1 (h.spaces id mm.skeleton (by rw [skeleton, hid]; rfl)).1

theorem Books.words_mm (h : k.Books K) (hid : k.mms.get? id = some mm) : mm.Words :=
  Mm.words_skeleton.1 (h.spaces id mm.skeleton (by rw [skeleton, hid]; rfl)).2

theorem Books.of_skeleton (h : k.Books K) (ha : k'.Accounted K)
    (hskeleton : k'.skeleton = k.skeleton) : k'.Books K :=
  ⟨ha, hskeleton ▸ h.spaces⟩

theorem Books.congr (h : k.Books K) (hframes : k'.frames = k.frames) (hmms : k'.mms = k.mms) :
    k'.Books K :=
  h.of_skeleton (h.accounted.congr hframes (by unfold maps; rw [hmms]))
    (by unfold skeleton; rw [hmms])

theorem Books.of_skeleton_at (h : k.Books K) (ha : k'.Accounted K)
    (hothers : ∀ i, i ≠ id → k'.skeleton i = k.skeleton i)
    (hspace : k'.skeleton id = some mm.skeleton) (hwf : mm.Wf) (hwords : mm.Words) :
    k'.Books K := by
  refine ⟨ha, fun i m hi => ?_⟩
  by_cases heq : i = id
  · subst heq
    cases hspace.symm.trans hi
    exact ⟨wf_skeleton.2 hwf, Mm.words_skeleton.2 hwords⟩
  · exact h.spaces i m (hothers i heq ▸ hi)

theorem Books.setMm (h : k.Books K) (hid : k.mms.get? id = some mm)
    (hpages : mm'.pageTable = mm.pageTable) (hwf : mm'.Wf) (hwords : mm'.Words) :
    (k.setMm id mm').Books K :=
  h.of_skeleton_at (h.accounted.congr rfl (maps_setMm hid hpages))
    (fun i hi => by rw [skeleton_setMm, if_neg hi]) (by rw [skeleton_setMm, if_pos rfl]) hwf hwords

theorem Books.addMm (h : k.Books K) (hid : k.mms.get? id = none) (hpages : mm.pageTable = .empty)
    (hwf : mm.Wf) (hwords : mm.Words) : (k.setMm id mm).Books K :=
  h.of_skeleton_at (h.accounted.congr rfl (maps_addMm hid hpages))
    (fun i hi => by rw [skeleton_setMm, if_neg hi]) (by rw [skeleton_setMm, if_pos rfl]) hwf hwords

/-! ### Pages that come and go -/

/-- The frames of some pages of an address space. -/
def framesAt (k : Kernel) (id : MmId) (pages : List ℕ) : List Pfn :=
  pages.filterMap fun n => (k.pte id n).map Pte.pfn

theorem count_framesAt_cons (k : Kernel) (id : MmId) (n : ℕ) (pages : List ℕ) (f : Pfn) :
    (k.framesAt id (n :: pages)).count f =
      ((k.pte id n).elim 0 fun p => p.maps f) + (k.framesAt id pages).count f := by
  unfold framesAt
  cases hp : k.pte id n with
  | none => rw [filterMap_cons_none (by rw [hp]; rfl), Option.elim_none, zero_add]
  | some p =>
    rw [filterMap_cons_some (by rw [hp]; rfl), List.count_cons, add_comm]
    simp only [Option.elim_some, Pte.maps, beq_iff_eq]

theorem framesAt_congr (h : ∀ n ∈ pages, k'.pte id n = k.pte id n) :
    k'.framesAt id pages = k.framesAt id pages :=
  filterMap_congr fun n hn => by rw [h n hn]

theorem exists_setEntry (k : Kernel) (id : MmId) (n : ℕ) {v : Option Pte}
    (hid : v ≠ none → ∃ mm, k.mms.get? id = some mm) (f : Pfn) :
    ∃ k1 : Kernel, k1.skeleton = k.skeleton ∧ k1.pte = setEntry k.pte id n v ∧
      k1.maps f + ((k.pte id n).elim 0 fun p => p.maps f) =
        k.maps f + v.elim 0 fun p => p.maps f := by
  have hn : pageNumber (n * pageSize) = n := Nat.mul_div_cancel n (by decide)
  cases v with
  | none =>
    have hpte := pte_unmapPage k id (n * pageSize)
    have hmaps := maps_unmapPage k id (n * pageSize) f
    rw [hn] at hpte hmaps
    exact ⟨_, skeleton_unmapPage .., hpte, hmaps⟩
  | some p =>
    obtain ⟨mm, hid⟩ := hid nofun
    have hpte : (k.setPte id (n * pageSize) p).pte = _ := pte_setPte hid p
    have hmaps := maps_setPte (n * pageSize) hid p f
    rw [hn] at hpte hmaps
    exact ⟨_, skeleton_setPte .., hpte, hmaps⟩

/-- If only some pages of an address space changed, the mappings of a frame
changed by what these pages have now and what they had. -/
theorem maps_exchange (hskeleton : k'.skeleton = k.skeleton) (hnodup : pages.Nodup)
    (hothers : ∀ i n, ¬ (i = id ∧ n ∈ pages) → k'.pte i n = k.pte i n) (f : Pfn) :
    k'.maps f + (k.framesAt id pages).count f = k.maps f + (k'.framesAt id pages).count f := by
  induction pages generalizing k with
  | nil =>
    have hmms : k'.mms = k.mms := ext_get? fun i =>
      space_eq_iff.2 ⟨congrFun hskeleton i, fun n => hothers i n fun h => not_mem_nil h.2⟩
    rw [maps, hmms, maps]
    rfl
  | cons n rest ih =>
    obtain ⟨hnot, hrest⟩ := nodup_cons.1 hnodup
    have hid : k'.pte id n ≠ none → ∃ mm, k.mms.get? id = some mm := by
      intro hp
      obtain ⟨p, hp⟩ := Option.ne_none_iff_exists'.1 hp
      obtain ⟨mm, hmm, -⟩ := Option.bind_eq_some_iff.1 hp
      obtain ⟨mm', hmm', -⟩ := exists_mm_of_skeleton hmm hskeleton.symm
      exact ⟨mm', hmm'⟩
    -- the page goes over first, the others follow
    obtain ⟨k1, hsk1, hpte1, hmaps1⟩ := exists_setEntry k id n hid f
    have hgo := ih (k := k1) (hskeleton.trans hsk1.symm) hrest fun i m hm => by
      rw [hpte1]
      by_cases heq : i = id ∧ m = n
      · obtain ⟨rfl, rfl⟩ := heq
        rw [setEntry_self]
      · rw [setEntry_of_ne heq]
        refine hothers i m ?_
        rintro ⟨hi, hmem⟩
        exact (mem_cons.1 hmem).elim (fun hmn => heq ⟨hi, hmn⟩) fun hmem => hm ⟨hi, hmem⟩
    have hsame : k1.framesAt id rest = k.framesAt id rest := framesAt_congr fun m hm => by
      rw [hpte1, setEntry_of_ne]
      rintro ⟨-, rfl⟩
      exact hnot hm
    rw [hsame] at hgo
    rw [count_framesAt_cons, count_framesAt_cons]
    omega

/-! ### Page faults and `munmap` -/

theorem handleVmaFault_books (h : k.Books K) {vma : Vma} (hid : k.mms.get? id = some mm)
    (hvma : vma ∈ mm.vmaTree) (recorded : List ExecMappedPage) (addr : ℕ) (error : PageFaultError) :
    (k.handleVmaFault recorded id vma addr error).2.Books K := by
  have hdone : FaultDone K k id _ _ (k.handleVmaFault recorded id vma addr error).2 :=
    handleVmaFault_done h.accounted hid ((h.wf_mm hid).areas vma hvma).file
  exact h.of_skeleton hdone.accounted hdone.skeleton

theorem handlePageFault_books (h : k.Books K) (recorded : List ExecMappedPage) (id : MmId)
    (addr : ℕ) (error : PageFaultError) : (k.handlePageFault recorded id addr error).2.Books K := by
  refine handlePageFault_rule h (fun _ h => h) (fun mm hid => ?_) fun k1 mm vma h1 hid hvma => ?_
  · have hext := mm.expandStackForFault_extends addr
    exact h.setMm hid hext.pageTable (hext.wf (h.wf_mm hid))
      (Mm.expandStackForFault_words (h.words_mm hid) addr)
  · exact handleVmaFault_books h1 hid hvma recorded addr error

theorem sysMunmap_books (h : k.Books K) (id : MmId) (addr length : ℕ) :
    (k.sysMunmap id addr length).2.Books K := by
  rcases k.sysMunmap_cases id addr length with ⟨e, heq⟩ | ⟨mm, stop, hid, -, hlo, hhi, hlt, heq⟩
  · rw [heq]
    exact h
  have hwf := h.wf_mm hid
  rw [heq]
  rcases unmapRange_cases h.accounted hid hwf hlo hhi hlt with
    ⟨e, fs, -, heq⟩ | ⟨fs, mm', k', -, heq, hcut, -⟩
  · rw [heq]
    exact h.congr rfl rfl
  have hwords := Mm.replaceSegments_words (h.words_mm hid) (mm.unmapEdits addr stop)
  rw [hcut.replaced] at hwords
  rw [heq]
  exact h.of_skeleton_at hcut.accounted
    (fun i hi => by rw [hcut.skeleton, skeleton_setMm, if_neg hi])
    (by rw [hcut.skeleton, skeleton_setMm, if_pos rfl])
    (Mm.unmapEdits_wf hlo hhi hwf hcut.exchanged) hwords

/-! ### `mm_release` -/

/-- How many mappings of a frame go with a reference to an address space. -/
def releasedMaps (k : Kernel) (id : MmId) (f : Pfn) : ℕ :=
  if id = initMm then 0
  else ((k.mms.get? id).map fun mm => if mm.mmCount ≤ 1 then mm.maps f else 0).getD 0

/-- The reference is the last one. -/
def LastReference (k : Kernel) (id : MmId) : Prop :=
  id ≠ initMm ∧ ∃ mm, k.mms.get? id = some mm ∧ mm.mmCount ≤ 1

instance (k : Kernel) (id : MmId) : Decidable (k.LastReference id) :=
  decidable_of_iff (id ≠ initMm ∧ ∃ mm ∈ (k.mms.get? id).toList, mm.mmCount ≤ 1)
    (by simp only [LastReference, Option.mem_toList])

theorem teardownPrivateMm_books (h : k.Books K) (id : MmId) : (k.teardownPrivateMm id).Books K := by
  refine ⟨teardownPrivateMm_accounted h.accounted id, fun i mm hi => ?_⟩
  obtain ⟨mm', hmm', rfl⟩ := Option.map_eq_some_iff.1 hi
  have hmm := get?_teardownPrivateMm hmm'
  exact ⟨wf_skeleton.2 (h.wf_mm hmm), Mm.words_skeleton.2 (h.words_mm hmm)⟩

/-- Dropping a reference either takes the address space away, or counts it. -/
theorem mmRelease_cases (k : Kernel) (id : MmId) :
    (¬ k.LastReference id ∧ ((k.mmRelease id) = k ∨ ∃ mm, k.mms.get? id = some mm ∧
      k.mmRelease id = k.setMm id { mm with mmCount := mm.mmCount - 1 })) ∨
    ∃ mm, k.mms.get? id = some mm ∧ k.LastReference id ∧
      k.mmRelease id = { k with fs := releaseMmVmaBackings mm k.fs }.teardownPrivateMm id := by
  unfold mmRelease LastReference
  by_cases hinit : id = initMm
  · rw [if_pos hinit]
    exact .inl ⟨fun h => h.1 hinit, .inl rfl⟩
  rw [if_neg hinit]
  cases hid : k.mms.get? id with
  | none => exact .inl ⟨fun ⟨_, _, hmm, _⟩ => (nomatch hmm), .inl rfl⟩
  | some mm =>
    simp only
    by_cases hlast : mm.mmCount ≤ 1
    · rw [if_pos hlast]
      exact .inr ⟨mm, rfl, ⟨hinit, mm, rfl, hlast⟩, rfl⟩
    rw [if_neg hlast]
    refine .inl ⟨?_, .inr ⟨mm, rfl, rfl⟩⟩
    rintro ⟨-, _, hmm, hle⟩
    cases hmm
    exact hlast hle

theorem releasedMaps_of_last (hlast : k.LastReference id) (hid : k.mms.get? id = some mm)
    (f : Pfn) : k.releasedMaps id f = mm.maps f := by
  obtain ⟨hinit, _, hmm, hle⟩ := hlast
  cases hid.symm.trans hmm
  simp only [releasedMaps, if_neg hinit, hid, Option.map_some, Option.getD_some, if_pos hle]

theorem releasedMaps_of_not_last (hlast : ¬ k.LastReference id) (f : Pfn) :
    k.releasedMaps id f = 0 := by
  unfold releasedMaps
  split
  · rfl
  rename_i hinit
  cases hid : k.mms.get? id with
  | none => rfl
  | some mm =>
    rw [Option.map_some, Option.getD_some, if_neg]
    exact fun hle => hlast ⟨hinit, mm, hid, hle⟩

theorem mmRelease_pte (k : Kernel) (id i : MmId) (n : ℕ) :
    (k.mmRelease id).pte i n = if i = id ∧ k.LastReference id then none else k.pte i n := by
  rcases k.mmRelease_cases id with ⟨hlast, heq | ⟨mm, hid, heq⟩⟩ | ⟨mm, hid, hlast, heq⟩
  · rw [heq, if_neg fun h => hlast h.2]
  · rw [heq, if_neg fun h => hlast h.2, pte_setMm hid (by rfl)]
  · obtain ⟨-, hmms, -⟩ :=
      ({ k with fs := releaseMmVmaBackings mm k.fs } : Kernel).teardownPrivateMm_eq id
    rw [heq, pte, hmms, get?_erase]
    by_cases hi : i = id
    · rw [if_pos hi, if_pos ⟨hi, hlast⟩]
      rfl
    · rw [if_neg hi, if_neg fun h => hi h.1, pte]

theorem mmRelease_frames (k : Kernel) (id : MmId) (f : Pfn) :
    (k.mmRelease id).frames f = Frame.releaseUserMapped^[k.releasedMaps id f] (k.frames f) := by
  rcases k.mmRelease_cases id with ⟨hlast, heq | ⟨mm, hid, heq⟩⟩ | ⟨mm, hid, hlast, heq⟩
  · rw [heq, releasedMaps_of_not_last hlast]
    rfl
  · rw [heq, releasedMaps_of_not_last hlast]
    rfl
  · obtain ⟨-, -, hframes⟩ :=
      ({ k with fs := releaseMmVmaBackings mm k.fs } : Kernel).teardownPrivateMm_eq id
    rw [heq, hframes, releasedMaps_of_last hlast hid]
    simp only [hid, Option.elim_some]

theorem mmRelease_maps (k : Kernel) (id : MmId) (f : Pfn) :
    (k.mmRelease id).maps f + k.releasedMaps id f = k.maps f := by
  rcases k.mmRelease_cases id with ⟨hlast, heq | ⟨mm, hid, heq⟩⟩ | ⟨mm, hid, hlast, heq⟩
  · rw [heq, releasedMaps_of_not_last hlast]
    rfl
  · rw [heq, releasedMaps_of_not_last hlast, maps_setMm hid (by rfl)]
    rfl
  · obtain ⟨-, hmms, -⟩ :=
      ({ k with fs := releaseMmVmaBackings mm k.fs } : Kernel).teardownPrivateMm_eq id
    have hsum := k.mms.sum_erase (fun _ mm => mm.maps f) id
    rw [hid, Option.elim_some] at hsum
    rw [heq, releasedMaps_of_last hlast hid, maps, hmms]
    exact hsum

theorem mmRelease_books (h : k.Books K) (id : MmId) : (k.mmRelease id).Books K := by
  rcases k.mmRelease_cases id with ⟨-, heq | ⟨mm, hid, heq⟩⟩ | ⟨mm, -, -, heq⟩
  · rw [heq]
    exact h
  · have hwf := h.wf_mm hid
    have hwords := h.words_mm hid
    rw [heq]
    exact h.setMm hid rfl ⟨hwf.areas, hwf.brk⟩ ⟨hwords.1, hwords.2, hwords.3, hwords.4⟩
  · have hfs : ({ k with fs := releaseMmVmaBackings mm k.fs } : Kernel).Books K := h.congr rfl rfl
    rw [heq]
    exact teardownPrivateMm_books hfs id

/-! ### `mm_clone` -/

/-- The frames of the pages that are still to be copied. -/
def todoFrames (k : Kernel) (src : MmId) (todo : List (VmFlags × ℕ)) : List Pfn :=
  todo.filterMap fun x => (k.pte src (pageNumber x.2)).map Pte.pfn

/-- No frame is counted beyond what a mapping counter holds. -/
def CloneRoom (k : Kernel) (src : MmId) (todo : List (VmFlags × ℕ)) : Prop :=
  ∀ f ∈ k.todoFrames src todo, k.maps f + (k.todoFrames src todo).count f ≤ 2147483648

/-- What the loop over the pages needs for the pages that are left. -/
structure Copying (K : Pfn → Prop) (k : Kernel) (src dst : MmId) (todo : List (VmFlags × ℕ)) :
    Prop where
  books : k.Books K
  ne : src ≠ dst
  target : ∃ mm, k.mms.get? dst = some mm
  nodup : (todo.map fun x => pageNumber x.2).Nodup
  fresh : ∀ x ∈ todo, k.pte dst (pageNumber x.2) = none
  room : k.CloneRoom src todo

theorem clonePage_copying {x : VmFlags × ℕ} (h : Copying K k src dst (x :: todo)) :
    (∃ k', k.clonePage src dst x.1 x.2 = (false, k') ∧ k'.Books K) ∨
    ∃ k', k.clonePage src dst x.1 x.2 = (true, k') ∧ Copying K k' src dst todo := by
  obtain ⟨hnot, hnodup⟩ := nodup_cons.1 h.nodup
  have hne : ∀ y ∈ todo, pageNumber y.2 ≠ pageNumber x.2 := fun y hy heq =>
    hnot (mem_map.2 ⟨y, hy, heq⟩)
  cases hp : k.pte src (pageNumber x.2) with
  | none =>
    have hframes : k.todoFrames src (x :: todo) = k.todoFrames src todo := by
      simp [todoFrames, hp]
    refine .inr ⟨k, by simp only [clonePage, translate_eq_pte, hp], h.books, h.ne, h.target,
      hnodup, fun y hy => h.fresh y (.tail _ hy), ?_⟩
    have hroom := h.room
    rwa [CloneRoom, hframes] at hroom
  | some p =>
    have hframes : k.todoFrames src (x :: todo) = p.pfn :: k.todoFrames src todo := by
      simp [todoFrames, hp]
    have hroom : ∀ f ∈ p.pfn :: k.todoFrames src todo,
        k.maps f + (p.pfn :: k.todoFrames src todo).count f ≤ 2147483648 := by
      have hroom := h.room
      rwa [CloneRoom, hframes] at hroom
    obtain ⟨mm, hdst⟩ := h.target
    have hpos := maps_pos hp
    have hlt : (k.frames p.pfn).mapcount < 2147483647 := by
      have hself := hroom p.pfn (.head _)
      rw [count_cons_self] at hself
      rw [(h.books.accounted _).user ((h.books.accounted _).user_of_maps hpos), Frame.mapped]
      simp only
      omega
    rcases clonePage_cases h.books.accounted h.ne hdst hp (h.fresh x (.head _)) hlt x.1 with
      ⟨k', heq, hsame⟩ | ⟨k', P, heq, hacc, -, hsk, hmaps, -, hpte, hP⟩
    · exact .inl ⟨k', heq, h.books.congr hsame.frames hsame.mms⟩
    have hother : ∀ i, ∀ y ∈ todo, k'.pte i (pageNumber y.2) = k.pte i (pageNumber y.2) := by
      intro i y hy
      rw [hpte, setEntry_of_ne fun hc => hne y hy hc.2]
      rcases hP with ⟨rfl, -⟩ | ⟨rfl, -⟩
      · rfl
      · exact setEntry_of_ne fun hc => hne y hy hc.2
    have hrest : k'.todoFrames src todo = k.todoFrames src todo :=
      filterMap_congr fun y hy => by rw [hother src y hy]
    obtain ⟨mm', hdst', -⟩ := exists_mm_of_skeleton hdst hsk
    refine .inr ⟨k', heq, h.books.of_skeleton hacc hsk, h.ne, ⟨mm', hdst'⟩, hnodup,
      fun y hy => by rw [hother dst y hy]; exact h.fresh y (.tail _ hy), fun f hf => ?_⟩
    rw [hrest] at hf ⊢
    have hf := hroom f (.tail _ hf)
    rw [List.count_cons] at hf
    rw [hmaps]
    by_cases hfp : f = p.pfn
    · simp only [hfp, beq_self_eq_true, if_true] at hf ⊢
      omega
    · simp only [hfp, if_false, beq_iff_eq, Ne.symm hfp] at hf ⊢
      omega

theorem abandonClone_books (h : k.Books K) (id : MmId) : (k.abandonClone id).Books K := by
  unfold abandonClone
  split
  · exact h
  · rename_i mm _
    have hfs : ({ k with fs := releaseMmVmaBackings mm k.fs } : Kernel).Books K := h.congr rfl rfl
    exact teardownPrivateMm_books hfs id

theorem Filled.words {fs fs' : FsState} {inserted : List Vma}
    (h : Filled mm.cloneLayout fs inserted mm' fs') (hwords : mm.Words) : mm'.Words := by
  have hcount : ∀ (areas : List Vma) (n : ℕ), n < 2 ^ 32 →
      areas.foldl (fun n _ => satAdd u32Max n 1) n < 2 ^ 32 := by
    intro areas
    induction areas with
    | nil => exact fun n hn => hn
    | cons _ rest ih => exact fun n hn => ih _ (Mm.satAdd_lt_of_lt 1 hn)
  have h1 := congrArg Mm.vmaCount h.counters
  have h2 := congrArg Mm.totalVm h.counters
  have h3 := congrArg Mm.execVm h.counters
  have h4 := congrArg Mm.stackVm h.counters
  exact ⟨h1 ▸ hcount inserted 0 (Nat.two_pow_pos 32), h2 ▸ hwords.totalVm, h3 ▸ hwords.execVm,
    h4 ▸ hwords.stackVm⟩

theorem mmClone_books (h : k.Books K) (src : MmId) (hroom : ∀ mm, k.mms.get? src = some mm →
      k.CloneRoom src (cloneTodo mm.vmaTree.toList)) : (k.mmClone src).2.Books K := by
  refine mmClone_rule (P := fun r => r.2.Books K) h ?_
  rintro mm dst mm' fs inserted _ hsrc hdst hne hfilled hinit rfl
  have hpages := congrArg Mm.pageTable hfilled.counters
  have hk : ({ k with fs := fs } : Kernel).Books K := h.congr rfl rfl
  have hadded := hk.addMm hdst hpages (hfilled.wf (h.wf_mm hsrc) hinit)
    (hfilled.words (h.words_mm hsrc))
  have hcopy : Copying K (({ k with fs := fs } : Kernel).setMm dst mm') src dst
      (cloneTodo mm.vmaTree.toList) := by
    refine ⟨hadded, hne, ⟨mm', get?_insert_self ..⟩, cloneTodo_nodup (h.wf_mm hsrc).areas,
      fun x _ => ?_, ?_⟩
    · rw [pte, Kernel.setMm, get?_insert_self, Option.bind_some, hpages]
      rfl
    · have hpte : ∀ n, (({ k with fs := fs } : Kernel).setMm dst mm').pte src n = k.pte src n :=
        fun n => by simp only [pte, Kernel.setMm, get?_insert, if_neg hne]
      have hframes : todoFrames _ src (cloneTodo mm.vmaTree.toList) =
          k.todoFrames src (cloneTodo mm.vmaTree.toList) :=
        filterMap_congr fun x _ => by rw [hpte]
      have hmaps : (({ k with fs := fs } : Kernel).setMm dst mm').maps = k.maps :=
        maps_addMm hdst hpages
      rw [CloneRoom, hframes, hmaps]
      exact hroom mm hsrc
  have hdone := cloneAll_rule (I := fun todo k => Copying K k src dst todo)
    (fun _ _ _ => clonePage_copying) (fun _ h => h.books) hcopy
  exact ⟨abandonClone_books hadded dst, fun _ => ⟨abandonClone_books hdone dst, hdone⟩⟩

end JanuaryOs.Virt.Kernel

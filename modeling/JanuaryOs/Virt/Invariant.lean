import JanuaryOs.Virt.Areas
import JanuaryOs.Virt.FaultSpec
import JanuaryOs.Virt.Isolated

/-!
# The invariant of the memory state

The frames are accounted for, every area is in order and private frames with two
owners are read-only. Page faults, `mmap`, `munmap`, `brk` and `mm_release` keep
it without any condition.
-/

namespace JanuaryOs.Virt

open Lib List Function
open Proc (ExecMappedPage)

namespace Kernel

/-! ### The invariant -/

def SharedAt (k : Kernel) (id : MmId) (n : ℕ) : Prop :=
  ∃ mm, k.skeleton id = some mm ∧ mm.SharedAt n

/-- The memory state is in order; `K` are the frames the kernel keeps for
itself. -/
structure Inv (K : Pfn → Prop) (k : Kernel) : Prop where
  accounted : k.Accounted K
  wf : ∀ id mm, k.skeleton id = some mm → mm.Wf
  isolated : Isolated k.SharedAt k.pte

variable {K : Pfn → Prop} {k k' : Kernel} {id : MmId} {mm mm' : Mm} {addr hi len lo n : ℕ}

theorem wf_skeleton : mm.skeleton.Wf ↔ mm.Wf :=
  ⟨fun h => ⟨h.areas, h.brk⟩, fun h => ⟨h.areas, h.brk⟩⟩

theorem Inv.wf_mm (h : k.Inv K) (hid : k.mms.get? id = some mm) : mm.Wf :=
  wf_skeleton.1 (h.wf id mm.skeleton (by rw [skeleton, hid]; rfl))

theorem sharedAt_iff (hid : k.mms.get? id = some mm) : k.SharedAt id n ↔ mm.SharedAt n := by
  unfold SharedAt skeleton
  rw [hid]
  exact ⟨fun ⟨_, heq, hs⟩ => by cases heq; exact hs, fun hs => ⟨_, rfl, hs⟩⟩

theorem Inv.congr (h : k.Inv K) (hframes : k'.frames = k.frames) (hmms : k'.mms = k.mms) :
    k'.Inv K := by
  have hmaps : k'.maps = k.maps := by unfold maps; rw [hmms]
  have hsk : k'.skeleton = k.skeleton := by unfold skeleton; rw [hmms]
  have hpte : k'.pte = k.pte := by unfold pte; rw [hmms]
  have hshared : k'.SharedAt = k.SharedAt := by unfold SharedAt; rw [hsk]
  exact ⟨h.accounted.congr hframes hmaps, hsk ▸ h.wf, by rw [hshared, hpte]; exact h.isolated⟩

/-! ### Replacing an address space -/

theorem skeleton_setMm (k : Kernel) (id : MmId) (mm : Mm) (i : MmId) :
    (k.setMm id mm).skeleton i = if i = id then some mm.skeleton else k.skeleton i := by
  simp only [skeleton, setMm, OrdMap.get?_insert]
  split <;> rfl

theorem pte_setMm (hid : k.mms.get? id = some mm) (hpages : mm'.pageTable = mm.pageTable) :
    (k.setMm id mm').pte = k.pte := by
  funext i n
  simp only [pte, setMm, OrdMap.get?_insert]
  by_cases hi : i = id
  · subst hi
    rw [if_pos rfl, hid]
    simp only [Option.bind_some, hpages]
  · rw [if_neg hi]

theorem maps_setMm (hid : k.mms.get? id = some mm) (hpages : mm'.pageTable = mm.pageTable) :
    (k.setMm id mm').maps = k.maps := by
  funext f
  have hsum := k.mms.sum_insert (fun _ mm => mm.maps f) id mm'
  have hmaps : mm'.maps f = mm.maps f := by unfold Mm.maps; rw [hpages]
  rw [hid, Option.elim_some, hmaps] at hsum
  exact Nat.add_right_cancel hsum

/-- Shared pages of the other address spaces do not change. -/
theorem sharedAt_setMm (k : Kernel) (id : MmId) (mm : Mm) (i : MmId) (n : ℕ) :
    (k.setMm id mm).SharedAt i n ↔ if i = id then mm.SharedAt n else k.SharedAt i n := by
  unfold SharedAt
  rw [skeleton_setMm]
  split
  · exact ⟨fun ⟨_, heq, hs⟩ => by cases heq; exact hs, fun hs => ⟨_, rfl, hs⟩⟩
  · exact Iff.rfl

/-- An address space with other areas, under which the pages of shared ones are
still shared. -/
theorem Inv.of_skeleton_at (h : k.Inv K) (ha : k'.Accounted K)
    (hskeleton : k'.skeleton = (k.setMm id mm').skeleton) (hwf : mm'.Wf)
    (hpte : ∀ i m p, k'.pte i m = some p → k.pte i m = some p)
    (hshared : ∀ m p, k'.pte id m = some p → k.SharedAt id m → mm'.SharedAt m) : k'.Inv K := by
  have hsame : k'.SharedAt = (k.setMm id mm').SharedAt := by unfold SharedAt; rw [hskeleton]
  refine ⟨ha, fun i m hi => ?_, h.isolated.mono hpte fun i m p hp hs => ?_⟩
  · rw [hskeleton, skeleton_setMm] at hi
    split at hi
    · cases hi
      exact wf_skeleton.2 hwf
    · exact h.wf i m hi
  · rw [hsame, sharedAt_setMm]
    split
    · rename_i heq
      subst heq
      exact hshared m p hp hs
    · exact hs

theorem Inv.setMm (h : k.Inv K) (hid : k.mms.get? id = some mm) (hext : mm.Extends mm') :
    (k.setMm id mm').Inv K := by
  have hwf := h.wf_mm hid
  refine h.of_skeleton_at (h.accounted.congr rfl (maps_setMm hid hext.pageTable)) rfl (hext.wf hwf)
    (fun i m p hp => ?_) fun m _ _ hs => hext.shared hwf m ((sharedAt_iff hid).1 hs)
  rwa [pte_setMm hid hext.pageTable] at hp

/-! ### Page faults -/

theorem FaultDone.inv {flags : PteFlags} (h : k.Inv K) (hd : FaultDone K k id n flags k') :
    k'.Inv K := by
  have hshared : k'.SharedAt = k.SharedAt := by unfold SharedAt; rw [hd.skeleton]
  refine ⟨hd.accounted, hd.skeleton ▸ h.wf, ?_⟩
  rw [hshared]
  have hentries := hd.entries
  generalize k'.pte = P at hentries
  cases hentries with
  | unchanged => exact h.isolated
  | install f hf => exact h.isolated.install (fun i m q hq => pfn_ne_of_maps_eq_zero hf hq) flags
  | reuse p hp hone =>
    exact h.isolated.reuse hp (fun i m q hq hpfn => eq_of_maps_eq_one hone hp hq hpfn) flags

/-- A page fault does nothing, or grows the stack, or lets the area of the
address handle it. -/
theorem handlePageFault_rule {P Q : Kernel → Prop} {recorded : List ExecMappedPage} {addr : ℕ}
    {error : PageFaultError} (h : P k) (hPQ : ∀ k, P k → Q k)
    (hgrow : ∀ mm, k.mms.get? id = some mm → P (k.setMm id (mm.expandStackForFault addr).2))
    (hfault : ∀ k1 mm vma, P k1 → k1.mms.get? id = some mm → vma ∈ mm.vmaTree →
      Q (k1.handleVmaFault recorded id vma addr error).2) :
    Q (k.handlePageFault recorded id addr error).2 := by
  rw [handlePageFault]
  split
  · exact hPQ _ h
  cases hid : k.mms.get? id with
  | none => exact hPQ _ h
  | some mm =>
    have hgrown := hgrow mm hid
    simp only
    cases hfind : mm.findVma addr with
    | some vma => exact hfault k mm vma h hid (IntervalMap.at?_eq_some.1 hfind).1
    | none =>
      rcases hstack : mm.expandStackForFault addr with ⟨_ | vma, mm'⟩
      all_goals rw [hstack] at hgrown
      · exact hPQ _ hgrown
      · obtain ⟨-, -, _, -, -, -, hmem⟩ := Mm.expandStackForFault_some hstack
        exact hfault _ mm' vma hgrown (OrdMap.get?_insert_self ..) ((hmem vma).2 (.inl rfl))

theorem handlePageFault_inv (h : k.Inv K) (recorded : List ExecMappedPage) (id : MmId) (addr : ℕ)
    (error : PageFaultError) : (k.handlePageFault recorded id addr error).2.Inv K := by
  refine handlePageFault_rule h (fun _ h => h) (fun mm hid => ?_) fun k1 mm vma h1 hid hvma => ?_
  · exact h.setMm hid (mm.expandStackForFault_extends addr)
  · exact (handleVmaFault_done h1.accounted hid ((h1.wf_mm hid).areas vma hvma).file).inv h1

/-- A page fault changes the entry of its page and may grow the stack; it leaves
the files alone. -/
structure Faulted (k : Kernel) (id : MmId) (addr : ℕ) (k' : Kernel) : Prop where
  fs : k'.fs = k.fs
  others : ∀ i n, ¬ (i = id ∧ n = pageNumber addr) → k'.pte i n = k.pte i n
  skeleton : k'.skeleton = k.skeleton ∨ ∃ mm, k.mms.get? id = some mm ∧
    k'.skeleton = (k.setMm id (mm.expandStackForFault addr).2).skeleton

theorem handlePageFault_enters (k : Kernel) (recorded : List ExecMappedPage) (id : MmId) (addr : ℕ)
    (error : PageFaultError) : Faulted k id addr (k.handlePageFault recorded id addr error).2 := by
  refine handlePageFault_rule (P := Faulted k id addr) ⟨rfl, fun _ _ _ => rfl, .inl rfl⟩
    (fun _ h => h) (fun mm hid => ?_) ?_
  · have hpte := pte_setMm hid (mm.expandStackForFault_extends addr).pageTable
    exact ⟨rfl, fun i n _ => congrFun (congrFun hpte i) n, .inr ⟨mm, hid, rfl⟩⟩
  · rintro k1 mm vma ⟨hfs, hothers, hsk⟩ - -
    have h := handleVmaFault_enters k1 recorded id vma addr error
    refine ⟨h.fs.trans hfs, fun i n hn => (h.others i n hn).trans (hothers i n hn), ?_⟩
    rwa [h.skeleton]

/-! ### Cutting a range out -/

theorem mem_pagesIn (hlo : pageSize ∣ lo) :
    n ∈ (pagesIn lo hi).map pageNumber ↔ lo ≤ n * pageSize ∧ n * pageSize < hi := by
  obtain ⟨a, rfl⟩ := hlo
  simp only [pagesIn, map_map, mem_map, mem_range, comp_apply, pageNumber,
    pageSize]
  constructor
  · rintro ⟨i, hi, rfl⟩
    omega
  · intro h
    exact ⟨n - a, by omega, by omega⟩

theorem unmapRanges_eq (k : Kernel) (id : MmId) (ranges : List (ℕ × ℕ)) :
    k.unmapRanges id ranges = (ranges.flatMap fun r => pagesIn r.1 r.2).foldl
      (fun k addr => k.unmapAndReleasePage id addr) k :=
  (foldl_flatMap ..).symm

/-- The pages that `munmap` visits: those of the range that lie in an area. -/
theorem mem_unmapPages (hal : mm.Aligned) (hlo : pageSize ∣ lo) (hhi : pageSize ∣ hi) :
    n ∈ ((((mm.vmaTree.meeting lo hi).map (unmapEditOf lo hi)).map Prod.snd).flatMap
        fun r => pagesIn r.1 r.2).map pageNumber ↔
      (∃ a ∈ mm.vmaTree, a.Contains (n * pageSize)) ∧ lo ≤ n * pageSize ∧ n * pageSize < hi := by
  have hpages : ∀ a ∈ mm.vmaTree, n ∈ (pagesIn (max a.start lo) (min a.stop hi)).map pageNumber ↔
      a.Contains (n * pageSize) ∧ lo ≤ n * pageSize ∧ n * pageSize < hi := fun a ha => by
    rw [mem_pagesIn (dvd_cut hlo hhi (hal a ha)).1]
    unfold Interval.Contains
    omega
  rw [map_flatMap, map_map, flatMap_map]
  simp only [mem_flatMap, IntervalMap.mem_meeting, comp_apply, unmapEditOf]
  constructor
  · rintro ⟨a, ⟨ha, -⟩, hn⟩
    obtain ⟨hcontains, hrange⟩ := (hpages a ha).1 hn
    exact ⟨⟨a, ha, hcontains⟩, hrange⟩
  · rintro ⟨⟨a, ha, hcontains⟩, hrange⟩
    refine ⟨a, ⟨ha, ?_⟩, (hpages a ha).2 ⟨hcontains, hrange⟩⟩
    unfold Interval.Meets Interval.Contains at *
    omega

/-- `munmap` of a range exchanges the areas and then releases the pages of the
range that lie in one of them, unless a backing is gone. -/
theorem unmapRange_eq (k : Kernel) (id : MmId) (mm : Mm) (hlt : lo < hi) :
    ∃ mm', mm.replaceSegments (mm.unmapEdits lo hi) = (true, mm') ∧
      mm.Exchanged mm' ((mm.unmapEdits lo hi).map VmaEdit.original)
        ((mm.unmapEdits lo hi).flatMap VmaEdit.kept) ∧
      k.unmapRange id mm lo hi = match applyBackingRetains (mm.unmapEdits lo hi) k.fs with
        | (.error e, fs) => (.error e, { k with fs := fs })
        | (.ok _, fs) => (.ok (), ((((mm.vmaTree.meeting lo hi).map (unmapEditOf lo hi)).map
            Prod.snd).flatMap fun r => pagesIn r.1 r.2).foldl
              (fun k addr => k.unmapAndReleasePage id addr)
              ({ k with fs := applyBackingReleases (mm.unmapEdits lo hi) fs }.setMm id mm')) := by
  have hedits : EditsOk mm.vmaTree (mm.unmapEdits lo hi) := unmap_editsOk hlt
  obtain ⟨mm', hreplaced, hex, hcommit⟩ := commitVmaEdits_eq hedits k id
  refine ⟨mm', hreplaced, hex, ?_⟩
  unfold unmapRange collectUnmapRangesForMm
  simp only [planUnmapChanges_eq hlt, ← unmapRanges_eq]
  rw [← Mm.unmapEdits, hcommit]
  rcases applyBackingRetains _ k.fs with ⟨_ | _, fs⟩ <;> rfl

/-- What `munmap` of `[lo, hi)` leaves behind. -/
structure RangeCut (K : Pfn → Prop) (k : Kernel) (id : MmId) (mm : Mm) (lo hi : ℕ) (mm' : Mm)
    (k' : Kernel) : Prop where
  accounted : k'.Accounted K
  replaced : mm.replaceSegments (mm.unmapEdits lo hi) = (true, mm')
  exchanged : mm.Exchanged mm' ((mm.unmapEdits lo hi).map VmaEdit.original)
    ((mm.unmapEdits lo hi).flatMap VmaEdit.kept)
  skeleton : k'.skeleton = (k.setMm id mm').skeleton
  pte : ∀ i m p, k'.pte i m = some p ↔ k.pte i m = some p ∧
    ¬ (i = id ∧ (∃ a ∈ mm.vmaTree, a.Contains (m * pageSize)) ∧
      lo ≤ m * pageSize ∧ m * pageSize < hi)

/-- `munmap` of a range fails on a backing that is gone, or cuts the range out. -/
theorem unmapRange_cases (h : k.Accounted K) (hid : k.mms.get? id = some mm) (hwf : mm.Wf)
    (hlo : pageSize ∣ lo) (hhi : pageSize ∣ hi) (hlt : lo < hi) :
    (∃ e fs, applyBackingRetains (mm.unmapEdits lo hi) k.fs = (.error e, fs) ∧
      k.unmapRange id mm lo hi = (.error e, { k with fs := fs })) ∨
    ∃ fs mm' k', applyBackingRetains (mm.unmapEdits lo hi) k.fs = (.ok (), fs) ∧
      k.unmapRange id mm lo hi = (.ok (), k') ∧ RangeCut K k id mm lo hi mm' k' ∧
      k'.fs = applyBackingReleases (mm.unmapEdits lo hi) fs := by
  obtain ⟨mm', hreplaced, hex, hunmap⟩ := unmapRange_eq k id mm hlt
  rcases hret : applyBackingRetains (mm.unmapEdits lo hi) k.fs with ⟨e | _, fs⟩
  · rw [hret] at hunmap
    exact .inl ⟨e, fs, rfl, hunmap⟩
  rw [hret] at hunmap
  simp only at hunmap
  generalize hpages : flatMap _ _ = pages at hunmap
  generalize hrel : applyBackingReleases (mm.unmapEdits lo hi) fs = fs' at hunmap
  have ha : ({ k with fs := fs' }.setMm id mm').Accounted K :=
    h.congr rfl (maps_setMm hid hex.pageTable)
  have hpte : ({ k with fs := fs' }.setMm id mm').pte = k.pte := pte_setMm hid hex.pageTable
  have ha' := foldl_unmapAndReleasePage_accounted ha id pages
  obtain ⟨hfs', hsk', hpte'⟩ := foldl_unmapAndReleasePage_eq ({ k with fs := fs' }.setMm id mm') id
    pages
  refine .inr ⟨fs, mm', _, rfl, hunmap, ⟨ha', hreplaced, hex, hsk', fun i m p => ?_⟩,
    hfs'.trans hrel.symm⟩
  have hvisited := mem_unmapPages (n := m) hwf.aligned hlo hhi
  rw [hpages] at hvisited
  rw [hpte', hpte, ← hvisited]
  split
  · rename_i hgone
    constructor
    · intro hp
      cases hp
    · rintro ⟨-, hstays⟩
      exact absurd hgone hstays
  · rename_i hstays
    exact ⟨fun hp => ⟨hp, hstays⟩, And.left⟩

/-- `munmap` of a range: the areas go before their pages, but no page of a
shared area is left over. -/
theorem RangeCut.inv (h : k.Inv K) (hid : k.mms.get? id = some mm) (hlo : pageSize ∣ lo)
    (hhi : pageSize ∣ hi) (hcut : RangeCut K k id mm lo hi mm' k') : k'.Inv K := by
  have hwf := Mm.unmapEdits_wf hlo hhi (h.wf_mm hid) hcut.exchanged
  refine h.of_skeleton_at hcut.accounted hcut.skeleton hwf
    (fun i m p hp => ((hcut.pte i m p).1 hp).1) fun m p hp hs => ?_
  have hleft := ((hcut.pte id m p).1 hp).2
  rw [sharedAt_iff hid] at hs
  have ⟨a, ha, hm, _⟩ := hs
  exact Mm.unmapEdits_shared hcut.exchanged hs fun hin => hleft ⟨rfl, ⟨a, ha, hm⟩, hin⟩

theorem unmapRange_inv (h : k.Inv K) (hid : k.mms.get? id = some mm)
    (hlo : pageSize ∣ lo) (hhi : pageSize ∣ hi) (hlt : lo < hi) :
    (k.unmapRange id mm lo hi).2.Inv K := by
  rcases unmapRange_cases h.accounted hid (h.wf_mm hid) hlo hhi hlt with
    ⟨e, fs, -, heq⟩ | ⟨fs, mm', k', -, heq, hcut, -⟩
  · rw [heq]
    exact h.congr rfl rfl
  · rw [heq]
    exact hcut.inv h hid hlo hhi

/-! ### `mmap` and `munmap` -/

theorem pageAlignUpUsize_aligned {value : ℕ} (h : pageAlignUpUsize value = .ok len) :
    pageSize ∣ len := by
  unfold pageAlignUpUsize at h
  split at h
  · cases h
  · cases h
    exact Nat.dvd_mul_left ..

theorem checkMmapArgs_ok {args : MmapArgs} (h : checkMmapArgs args = .ok len) :
    pageSize ∣ len ∧ 0 < len := by
  unfold checkMmapArgs at h
  -- seven refusals, then the length
  repeat' (split at h; · cases h)
  rename_i len' halign hpos
  cases h
  exact ⟨pageAlignUpUsize_aligned halign, Nat.pos_of_ne_zero hpos⟩

theorem checkRange_ok {addr length stop : ℕ} {outside : Errno} (haddr : addr % pageSize = 0)
    (h : checkRange addr length outside = .ok stop) :
    pageSize ∣ addr ∧ pageSize ∣ stop ∧ addr < stop := by
  unfold checkRange at h
  split at h
  · cases h
  rename_i len halign
  split at h
  · cases h
  split at h
  · cases h
  rename_i hrange
  cases h
  have haddr := Nat.dvd_of_mod_eq_zero haddr
  exact ⟨haddr, Nat.dvd_add haddr (pageAlignUpUsize_aligned halign), by omega⟩

/-- A backing is looked for in the table of files only, and a mapping that is
not anonymous gets one. -/
theorem createBacking_cases (k : Kernel) (pid : ProcessId) (flags : UInt32) (fd : ℕ) :
    ∃ fs r, k.createBacking pid flags fd = (r, { k with fs := fs }) ∧
      ∀ backing, r = .ok backing → hasBit flags mapAnonymous = false → backing ≠ none := by
  unfold createBacking
  split
  · rename_i hanon
    exact ⟨k.fs, .ok none, rfl, fun _ _ h => by rw [hanon] at h; cases h⟩
  cases parseFd fd with
  | error e => exact ⟨k.fs, .error e, rfl, nofun⟩
  | ok fd =>
    simp only
    rcases k.fs.createMmapBackingForPid pid fd with ⟨e | backing, fs⟩
    · exact ⟨fs, .error e, rfl, nofun⟩
    · refine ⟨fs, .ok (some backing), rfl, fun b hb _ => ?_⟩
      cases hb
      exact nofun

theorem insertMapping_inv (h : k.Inv K) (id : MmId) {start stop : ℕ} {info : VmaInfo}
    (hok : VmaOk ⟨start, stop, info⟩) : (k.insertMapping id start stop info).2.Inv K := by
  unfold insertMapping
  cases hid : k.mms.get? id with
  | none => exact h
  | some mm =>
    simp only
    split
    · exact h.congr rfl rfl
    have hext := mm.insertVma_extends hok
    rcases hins : mm.insertVma start stop info with ⟨_ | _, mm'⟩
    · rw [hins] at hext
      exact (h.setMm hid hext).congr rfl rfl
    · rw [hins] at hext
      exact h.setMm hid hext

theorem mapCleared_inv (h : k.Inv K) (id : MmId) (pid : ProcessId) (args : MmapArgs)
    {start len : ℕ} (hstart : pageSize ∣ start) (hlen : pageSize ∣ len) :
    (k.mapCleared id pid args start len).2.Inv K := by
  obtain ⟨fs, r, hcreate, hbacking⟩ := k.createBacking_cases pid args.flags args.fd
  unfold mapCleared
  rw [hcreate]
  cases r with
  | error e => exact h.congr rfl rfl
  | ok backing =>
    have hok : VmaOk ⟨start, start + len,
        ⟨mmapFlagsToVmFlags args.prot args.flags, args.offset / pageSize, backing⟩⟩ :=
      ⟨hstart, Nat.dvd_add hstart hlen, fun hw => hw, (fun hheap => by cases hheap),
        hbacking backing rfl⟩
    have hfs : ({ k with fs := fs } : Kernel).Inv K := h.congr rfl rfl
    exact insertMapping_inv hfs id hok

theorem sysMmap_inv (h : k.Inv K) (id : MmId) (pid : ProcessId) (args : MmapArgs) :
    (k.sysMmap id pid args).2.Inv K := by
  rw [sysMmap]
  cases hid : k.mms.get? id with
  | none => exact h
  | some mm =>
    simp only
    cases hcheck : checkMmapArgs args with
    | error e => exact h
    | ok len =>
      obtain ⟨hlen, hpos⟩ := checkMmapArgs_ok hcheck
      simp only
      cases hselect : mm.mmapSelectAddr args.addr len args.flags with
      | error e => exact h
      | ok start =>
        have hstart := Mm.mmapSelectAddr_aligned (h.wf_mm hid) hselect
        simp only
        split
        · have hunmap := unmapRange_inv h hid hstart (Nat.dvd_add hstart hlen)
            (by omega : start < start + len)
          rcases hcut : k.unmapRange id mm start (start + len) with ⟨e | _, k'⟩
          · rw [hcut] at hunmap
            exact hunmap
          · rw [hcut] at hunmap
            exact mapCleared_inv hunmap id pid args hstart hlen
        · exact mapCleared_inv h id pid args hstart hlen

theorem sysMunmap_cases (k : Kernel) (id : MmId) (addr length : ℕ) :
    (∃ e, k.sysMunmap id addr length = (.error e, k)) ∨
    ∃ mm stop, k.mms.get? id = some mm ∧ checkRange addr length .EINVAL = .ok stop ∧
      pageSize ∣ addr ∧ pageSize ∣ stop ∧ addr < stop ∧
      k.sysMunmap id addr length = k.unmapRange id mm addr stop := by
  rw [sysMunmap]
  split
  · exact .inl ⟨_, rfl⟩
  split
  · exact .inl ⟨_, rfl⟩
  rename_i haddr
  cases hrange : checkRange addr length .EINVAL with
  | error e => exact .inl ⟨e, rfl⟩
  | ok stop =>
    obtain ⟨hlo, hhi, hlt⟩ := checkRange_ok (not_not.1 haddr) hrange
    cases hid : k.mms.get? id with
    | none => exact .inl ⟨_, rfl⟩
    | some mm => exact .inr ⟨mm, stop, rfl, rfl, hlo, hhi, hlt, rfl⟩

theorem sysMunmap_inv (h : k.Inv K) (id : MmId) (addr length : ℕ) :
    (k.sysMunmap id addr length).2.Inv K := by
  rcases k.sysMunmap_cases id addr length with ⟨e, heq⟩ | ⟨mm, stop, hid, -, hlo, hhi, hlt, heq⟩
  · rw [heq]
    exact h
  · rw [heq]
    exact unmapRange_inv h hid hlo hhi hlt

/-! ### `brk` and `mm_release` -/

theorem sysBrk_inv (h : k.Inv K) (id : MmId) (req : ℕ) : (k.sysBrk id req).2.Inv K := by
  rw [sysBrk]
  cases hid : k.mms.get? id with
  | none => exact h
  | some mm =>
    have hplace : mm.Extends mm.placeHeap := Mm.placeHeap_extends
    simp only
    split
    · exact h.setMm hid hplace
    · have hbrk := hplace.trans (Mm.doBrk_extends req (hplace.wf (h.wf_mm hid)).brk)
      rcases hdo : mm.placeHeap.doBrk req with ⟨_ | _, mm'⟩ <;> rw [hdo] at hbrk <;>
        exact h.setMm hid hbrk

theorem teardownPrivateMm_inv (h : k.Inv K) (id : MmId) : (k.teardownPrivateMm id).Inv K := by
  have ha := teardownPrivateMm_accounted h.accounted id
  have hsk : ∀ i mm, (k.teardownPrivateMm id).skeleton i = some mm → k.skeleton i = some mm := by
    intro i mm hi
    obtain ⟨mm', hmm', rfl⟩ := Option.map_eq_some_iff.1 hi
    exact Option.map_eq_some_iff.2 ⟨mm', get?_teardownPrivateMm hmm', rfl⟩
  have hpte : ∀ i m p, (k.teardownPrivateMm id).pte i m = some p → k.pte i m = some p := by
    intro i m p hp
    obtain ⟨mm, hmm, hp⟩ := Option.bind_eq_some_iff.1 hp
    exact Option.bind_eq_some_iff.2 ⟨mm, get?_teardownPrivateMm hmm, hp⟩
  refine ⟨ha, fun i mm hi => h.wf i mm (hsk i mm hi), h.isolated.mono hpte fun i m p hp hs => ?_⟩
  -- an address space with a page is one that is left
  obtain ⟨mm, hmm, -⟩ := Option.bind_eq_some_iff.1 hp
  rw [sharedAt_iff (get?_teardownPrivateMm hmm)] at hs
  exact (sharedAt_iff hmm).2 hs

theorem mmRelease_inv (h : k.Inv K) (id : MmId) : (k.mmRelease id).Inv K := by
  unfold mmRelease
  split
  · exact h
  cases hid : k.mms.get? id with
  | none => exact h
  | some mm =>
    simp only
    split
    · have hfs : ({ k with fs := releaseMmVmaBackings mm k.fs } : Kernel).Inv K :=
        h.congr rfl rfl
      exact teardownPrivateMm_inv hfs id
    · exact h.setMm hid (.of_eq rfl rfl rfl)

end Kernel

end JanuaryOs.Virt

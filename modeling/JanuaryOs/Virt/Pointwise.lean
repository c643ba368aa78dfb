import JanuaryOs.Virt.CopyOnWrite

/-!
# `mprotect` and `munmap`, address by address

An address space is read as a function of addresses: `Mm.view` is what the area
around an address says about it. A piece of an area says the same about its
addresses as the area did, because the place in the file moves with the cut
(`fileOffset_slice`). So the calls, which cut areas into pieces and exchange
them, are described by what happens to each address.
-/

namespace JanuaryOs.Virt

open Lib Libs.Mptree Fs IntervalMap List

/-! ### Views -/

/-- What an area says about one of its addresses; `offset` is where its page is
in the file. -/
structure AreaView where
  flags : VmFlags
  file : Option ℕ
  offset : Option ℕ
  deriving DecidableEq

/-- An area seen at an address. -/
def areaView (a : Vma) (x : ℕ) : AreaView := ⟨a.value.flags, a.value.file, Kernel.fileOffset a x⟩

/-- An address space seen at an address, nothing where there is no area. -/
def Mm.view (mm : Mm) (x : ℕ) : Option AreaView := (mm.findVma x).map (areaView · x)

variable {a vma : Vma} {mm mm' : Mm} {lo hi x : ℕ} {prot : UInt32} {edits : List VmaEdit}

namespace Mm

theorem view_of_mem (ha : a ∈ mm.vmaTree) (hx : a.Contains x) : mm.view x = some (areaView a x) :=
  congrArg (Option.map (areaView · x)) (at?_eq_some.2 ⟨ha, hx⟩)

theorem view_eq_none : mm.view x = none ↔ ∀ a ∈ mm.vmaTree, ¬ a.Contains x :=
  Option.map_eq_none_iff.trans at?_eq_none

theorem view_congr (h : mm'.skeleton = mm.skeleton) : mm'.view x = mm.view x := by
  have htree : mm'.skeleton.vmaTree = mm.skeleton.vmaTree := by rw [h]
  exact congrArg (fun t : MapleTree VmaInfo => (t.find x).map (areaView · x)) htree

theorem Exchanged.view_eq_none
    (h : Exchanged mm mm' (edits.map VmaEdit.original) (edits.flatMap VmaEdit.kept))
    (hok : EditsOk mm.vmaTree edits) (hnone : mm.view x = none) : mm'.view x = none := by
  rw [Mm.view_eq_none] at hnone ⊢
  intro a ha hx
  rcases (h.mem a).1 ha with hpiece | ⟨hold, -⟩
  · obtain ⟨e, he, ha⟩ := mem_flatMap.1 hpiece
    obtain ⟨-, hlo, hhi⟩ := (hok.ok e he).piece a ha
    exact hnone e.original (hok.mem e he) ⟨hlo.trans hx.1, hx.2.trans_le hhi⟩
  · exact hnone a hold hx

end Mm

/-! ### Pieces -/

/-- The place in the file moves with the cut. Where it overflows it does so
before and after. -/
theorem fileOffset_slice {cut stop : ℕ} (hstart : pageSize ∣ vma.start) (hcut : pageSize ∣ cut)
    (hle : vma.start ≤ cut) (hx : cut ≤ x) :
    Kernel.fileOffset (cloneVmaSlice vma cut stop) x = Kernel.fileOffset vma x := by
  obtain ⟨s, hs⟩ := hstart
  obtain ⟨c, rfl⟩ := hcut
  have hpages : (x - vma.start) / pageSize =
      (pageSize * c - vma.start) / pageSize + (x - pageSize * c) / pageSize := by
    simp only [pageSize] at *
    omega
  unfold Kernel.fileOffset
  dsimp only [cloneVmaSlice]
  rw [hpages]
  generalize (pageSize * c - vma.start) / pageSize = d
  generalize (x - pageSize * c) / pageSize = e
  have hnot : ¬ x < vma.start := by omega
  have hnot' : ¬ x < pageSize * c := by omega
  by_cases hfit : vma.value.pgoff + d ≤ u64Max
  · have hpage : satAdd u64Max vma.value.pgoff d + e = vma.value.pgoff + (d + e) := by
      rw [satAdd, min_eq_right hfit, Nat.add_assoc]
    simp only [hpage, hnot, hnot', false_or]
  have hpage : satAdd u64Max vma.value.pgoff d = u64Max := min_eq_left (by omega)
  have hover : u64Max < (u64Max + e) * pageSize := by
    simp only [u64Max, pageSize]
    omega
  have hover' : u64Max < vma.value.pgoff + (d + e) := by omega
  simp only [hpage, hover, hover', or_true, true_or, if_true]

theorem areaView_slice {cut stop : ℕ} (hstart : pageSize ∣ vma.start) (hcut : pageSize ∣ cut)
    (hle : vma.start ≤ cut) (hx : cut ≤ x) :
    areaView (cloneVmaSlice vma cut stop) x = areaView vma x := by
  rw [areaView, fileOffset_slice hstart hcut hle hx]
  rfl

theorem unmap_piece_outside (ha : a ∈ (unmapEditOf lo hi vma).1.kept) (hvma : vma.Contains x)
    (hx : a.Contains x) : ¬ (lo ≤ x ∧ x < hi) := by
  have hvma : vma.start ≤ x ∧ x < vma.stop := hvma
  rcases mem_append.1 ha with ha | ha
  · obtain ⟨-, rfl⟩ := mem_headSlice.1 ha
    have hx : x < max vma.start lo := hx.2
    omega
  · obtain ⟨-, rfl⟩ := mem_tailSlice.1 ha
    have hx : min vma.stop hi ≤ x := hx.1
    omega

theorem unmap_piece_view (hal : pageSize ∣ vma.start ∧ pageSize ∣ vma.stop) (hlo : pageSize ∣ lo)
    (hhi : pageSize ∣ hi) (hmeets : vma.Meets lo hi) (hx : vma.Contains x)
    (hout : ¬ (lo ≤ x ∧ x < hi)) :
    ∃ a ∈ (unmapEditOf lo hi vma).1.kept, a.Contains x ∧ areaView a x = areaView vma x := by
  obtain ⟨a, ha, hax, -⟩ := unmap_piece_contains hx hout
  refine ⟨a, ha, hax, ?_⟩
  rcases mem_append.1 ha with ha | ha
  · obtain ⟨-, rfl⟩ := mem_headSlice.1 ha
    exact areaView_slice hal.1 hal.1 le_rfl hx.1
  obtain ⟨-, rfl⟩ := mem_tailSlice.1 ha
  refine areaView_slice hal.1 (dvd_cut hlo hhi hal).2 ?_ hax.1
  unfold Interval.Meets Interval.Contains at *
  omega

/-- The view of an address of `[lo, hi)` gets other permissions, the others
stay. -/
def AreaView.protect (lo hi : ℕ) (prot : UInt32) (x : ℕ) (v : AreaView) : AreaView :=
  if lo ≤ x ∧ x < hi then { v with flags := { v.flags with
      read := hasBit prot protRead
      write := hasBit prot protWrite
      exec := hasBit prot protExec
      mayWrite := hasBit prot protWrite || v.flags.mayWrite } }
  else v

/-- An address of an area is in one of the pieces that `mprotect` makes of it. -/
theorem mprotect_piece_view (hal : pageSize ∣ vma.start ∧ pageSize ∣ vma.stop) (hlo : pageSize ∣ lo)
    (hhi : pageSize ∣ hi) (hlt : lo < hi) (hmeets : vma.Meets lo hi) (hx : vma.Contains x) :
    ∃ a ∈ (mprotectEditOf lo hi prot vma).1.kept, a.Contains x ∧
      areaView a x = (areaView vma x).protect lo hi prot x := by
  obtain ⟨hcut, hcut'⟩ := dvd_cut hlo hhi hal
  have hx : vma.start ≤ x ∧ x < vma.stop := hx
  have hle : max vma.start lo < min vma.stop hi := by
    unfold Interval.Meets at hmeets
    omega
  unfold AreaView.protect
  by_cases hhead : x < max vma.start lo
  · refine ⟨_, mem_append_left _ (mem_headSlice.2 ⟨by omega, rfl⟩), ⟨hx.1, hhead⟩, ?_⟩
    rw [if_neg (by omega)]
    exact areaView_slice hal.1 hal.1 le_rfl hx.1
  by_cases hmid : x < min vma.stop hi
  · refine ⟨_, mem_append_right _ mem_cons_self, ⟨not_lt.1 hhead, hmid⟩, ?_⟩
    have hoff := @fileOffset_slice vma x _ (min vma.stop hi) hal.1 hcut (le_max_left _ lo)
      (not_lt.1 hhead)
    rw [if_pos (by omega), areaView]
    exact congrArg (AreaView.mk _ _) hoff
  · refine ⟨_, mem_append_right _ (mem_cons_of_mem _ (mem_tailSlice.2
      ⟨by omega, rfl⟩)), ⟨not_lt.1 hmid, hx.2⟩, ?_⟩
    rw [if_neg (by omega)]
    exact areaView_slice hal.1 hcut' (by omega) (not_lt.1 hmid)

namespace Mm

theorem unmapEdits_view (hal : mm.Aligned) (hlo : pageSize ∣ lo) (hhi : pageSize ∣ hi)
    (hlt : lo < hi) (h : Exchanged mm mm' ((mm.unmapEdits lo hi).map VmaEdit.original)
      ((mm.unmapEdits lo hi).flatMap VmaEdit.kept)) (x : ℕ) :
    mm'.view x = if lo ≤ x ∧ x < hi then none else mm.view x := by
  have hmem := h.mem_edits (map_map ..) (fun _ => rfl)
  cases hview : mm.view x with
  | none =>
    rw [h.view_eq_none (unmap_editsOk hlt) hview]
    exact (ite_self _).symm
  | some v =>
    obtain ⟨vma, hfind, rfl⟩ := Option.map_eq_some_iff.1 hview
    obtain ⟨hvma, hx⟩ := at?_eq_some.1 hfind
    split
    · -- a piece with the address would be one of this area, and outside the range
      rename_i hin
      refine Mm.view_eq_none.2 fun a ha hax => ?_
      rcases (hmem a).1 ha with ⟨vma', hvma', hmeets, hpiece⟩ | ⟨hold, hnot⟩
      · obtain ⟨-, hlo', hhi'⟩ := ((unmap_editsOk hlt).ok (unmapEditOf lo hi vma').1
          (mem_map_of_mem (mem_map_of_mem
            (mem_meeting.2 ⟨hvma', hmeets⟩)))).piece a hpiece
        have hx' : vma'.Contains x := ⟨hlo'.trans hax.1, hax.2.trans_le hhi'⟩
        exact unmap_piece_outside hpiece hx' hax hin
      · refine hnot ?_
        unfold Interval.Meets Interval.Contains at *
        omega
    · rename_i hout
      by_cases hmeets : vma.Meets lo hi
      · obtain ⟨a, ha, hax, heq⟩ := unmap_piece_view (hal vma hvma) hlo hhi hmeets hx hout
        rw [view_of_mem ((hmem a).2 (.inl ⟨vma, hvma, hmeets, ha⟩)) hax, heq]
      · rw [view_of_mem ((hmem vma).2 (.inr ⟨hvma, hmeets⟩)) hx]

theorem mprotectEdits_view (hal : mm.Aligned) (hlo : pageSize ∣ lo) (hhi : pageSize ∣ hi)
    (hlt : lo < hi) (h : Exchanged mm mm' ((mm.mprotectEdits lo hi prot).map VmaEdit.original)
      ((mm.mprotectEdits lo hi prot).flatMap VmaEdit.kept)) (x : ℕ) :
    mm'.view x = (mm.view x).map (AreaView.protect lo hi prot x) := by
  have hmem := h.mem_edits (map_map ..) (fun _ => rfl)
  cases hview : mm.view x with
  | none => exact h.view_eq_none (mprotect_editsOk hlt prot) hview
  | some v =>
    obtain ⟨vma, hfind, rfl⟩ := Option.map_eq_some_iff.1 hview
    obtain ⟨hvma, hx⟩ := at?_eq_some.1 hfind
    by_cases hmeets : vma.Meets lo hi
    · obtain ⟨a, ha, hax, heq⟩ := mprotect_piece_view (hal vma hvma) hlo hhi hlt hmeets hx
      rw [view_of_mem ((hmem a).2 (.inl ⟨vma, hvma, hmeets, ha⟩)) hax, heq]
      rfl
    have hout : ¬ (lo ≤ x ∧ x < hi) := by
      unfold Interval.Meets Interval.Contains at *
      omega
    rw [view_of_mem ((hmem vma).2 (.inr ⟨hvma, hmeets⟩)) hx, Option.map_some,
      AreaView.protect, if_neg hout]

end Mm

/-! ### `munmap` -/

/-- The present pages lie in areas. -/
def Mm.PagesInside (mm : Mm) : Prop := ∀ e ∈ mm.pageTable.entries, mm.view (e.1 * pageSize) ≠ none
deriving Decidable

namespace Kernel

variable {k k' : Kernel} {id : MmId}

/-- After `munmap` nothing is left of the range, everything else is as before,
and a frame has lost as many references as mappings. -/
theorem munmap_pointwise {addr length : ℕ} (hid : k.mms.get? id = some mm) (hal : mm.Aligned)
    (hpages : mm.PagesInside) (hok : k.sysMunmap id addr length = (.ok (), k')) :
    ∃ stop mm', checkRange addr length .EINVAL = .ok stop ∧ k'.mms.get? id = some mm' ∧
      (∀ x, mm'.view x = if addr ≤ x ∧ x < stop then none else mm.view x) ∧
      (∀ x, k'.translate id x = if addr ≤ x ∧ x < stop then none else k.translate id x) ∧
      (∀ i, i ≠ id → k'.mms.get? i = k.mms.get? i) ∧
      ∀ f, (k.frames f).reserved = false → k.maps f ≤ (k.frames f).refcount →
        (k'.frames f).refcount + k.maps f = (k.frames f).refcount + k'.maps f := by
  rcases k.sysMunmap_cases id addr length with ⟨e, hcut⟩ |
    ⟨_, stop, hmm, hrange, hlo, hhi, hlt, hcut⟩
  · cases hcut.symm.trans hok
  cases hmm.symm.trans hid
  rw [hok] at hcut
  obtain ⟨mm1, -, hex, hunmap⟩ := unmapRange_eq k id mm hlt
  rw [hunmap] at hcut
  rcases hret : applyBackingRetains (mm.unmapEdits addr stop) k.fs with ⟨e | _, fs⟩
  · rw [hret] at hcut
    cases hcut
  rw [hret] at hcut
  simp only at hcut
  generalize hlist : List.flatMap _ _ = pages at hcut
  generalize hk1 : ({ k with fs := applyBackingReleases _ fs } : Kernel).setMm id mm1 = k1 at hcut
  cases hcut
  obtain ⟨-, hsk, hpte⟩ := foldl_unmapAndReleasePage_eq k1 id pages
  have hpte1 : k1.pte = k.pte := by
    rw [← hk1]
    exact pte_setMm (k := { k with fs := _ }) hid hex.pageTable
  have hmaps1 : k1.maps = k.maps := by
    rw [← hk1]
    exact maps_setMm (k := { k with fs := _ }) hid hex.pageTable
  have hframes1 : k1.frames = k.frames := by rw [← hk1]; rfl
  have hid1 : k1.mms.get? id = some mm1 := by rw [← hk1]; exact OrdMap.get?_insert_self ..
  have hvisited : ∀ n, n ∈ pages.map pageNumber ↔
      mm.view (n * pageSize) ≠ none ∧ addr ≤ n * pageSize ∧ n * pageSize < stop := by
    intro n
    rw [← hlist, mem_unmapPages hal hlo hhi, Ne, Mm.view_eq_none]
    push Not
    exact Iff.rfl
  obtain ⟨mm', hid', hmm'⟩ := exists_mm_of_skeleton hid1 hsk
  refine ⟨stop, mm', hrange, hid', fun x => ?_, fun x => ?_, fun i hi => ?_, fun f hres hle => ?_⟩
  · rw [Mm.view_congr hmm']
    exact Mm.unmapEdits_view hal hlo hhi hlt hex x
  · have hpage : (addr ≤ pageNumber x * pageSize ∧ pageNumber x * pageSize < stop) ↔
        addr ≤ x ∧ x < stop := by
      simp only [pageNumber, pageSize] at *
      omega
    rw [translate_eq_pte, translate_eq_pte, hpte, hpte1]
    cases hp : k.pte id (pageNumber x) with
    | none => simp only [ite_self]
    | some p =>
      have hin : mm.view (pageNumber x * pageSize) ≠ none := by
        rw [pte, hid] at hp
        exact hpages (pageNumber x, p) (OrdMap.mem_entries_iff.2 hp)
      simp only [hvisited, hin, hpage, ne_eq, not_false_eq_true, true_and]
  · refine space_eq_iff.2 ⟨?_, fun n => ?_⟩
    · rw [hsk, ← hk1, skeleton_setMm, if_neg hi]
      rfl
    · rw [hpte, hpte1, if_neg fun h => hi h.1]
  · rw [← hframes1] at hres hle ⊢
    rw [← hmaps1] at hle ⊢
    exact foldl_unmapAndReleasePage_refs id pages hres hle

/-- A private mapping of two pages, the first of them present. -/
def twoPages : Kernel :=
  memStep (memStep oneMm ({}, .mmap 1 1 ⟨userSpaceStart, 2 * pageSize, protRead,
    mapPrivate ||| mapAnonymous ||| mapFixed, 0, 0⟩))
    ({ frames := [some 5] }, .fault [] 1 userSpaceStart ⟨false, false, false⟩)

/-- The first page is taken out of the mapping, and its frame loses the
reference. -/
theorem munmap_pointwise_twoPages : ∃ mm k' stop mm', twoPages.mms.get? 1 = some mm ∧
    twoPages.sysMunmap 1 userSpaceStart 1 = (.ok (), k') ∧
    checkRange userSpaceStart 1 .EINVAL = .ok stop ∧ k'.mms.get? 1 = some mm' ∧
    (mm.view userSpaceStart).isSome ∧ (twoPages.translate 1 userSpaceStart).isSome ∧
    (∀ x, mm'.view x = if userSpaceStart ≤ x ∧ x < stop then none else mm.view x) ∧
    (∀ x, k'.translate 1 x =
      if userSpaceStart ≤ x ∧ x < stop then none else twoPages.translate 1 x) ∧
    twoPages.maps 5 = 1 ∧
    (k'.frames 5).refcount + twoPages.maps 5 = (twoPages.frames 5).refcount + k'.maps 5 := by
  have hexec : (twoPages.mms.get? 1).map (fun mm => decide (mm.Aligned ∧ mm.PagesInside ∧
      (mm.view userSpaceStart).isSome)) = some true := by decide
  have hcall : (twoPages.sysMunmap 1 userSpaceStart 1).1.toOption = some () := by decide
  obtain ⟨mm, hid, hcheck⟩ := Option.map_eq_some_iff.1 hexec
  obtain ⟨hal, hpages, hview⟩ := of_decide_eq_true hcheck
  rcases hok : twoPages.sysMunmap 1 userSpaceStart 1 with ⟨e | _, k'⟩
  · rw [hok] at hcall
    cases hcall
  · obtain ⟨stop, mm', hrange, hid', hviews, hentries, -, hrefs⟩ :=
      munmap_pointwise hid hal hpages hok
    exact ⟨mm, k', stop, mm', hid, rfl, hrange, hid', hview, by decide, hviews, hentries,
      by decide, hrefs 5 (by decide) (by decide)⟩

/-! ### `mprotect` -/

/-- The plan of `mprotect` fails at an address without an area. -/
theorem planMprotectLoop_error {tree : MapleTree VmaInfo} {fuel cursor : ℕ} {e : Errno}
    (h : planMprotectLoop tree hi prot fuel cursor = .error e) :
    e = .ENOMEM ∧ ∃ x, cursor ≤ x ∧ x < hi ∧ tree.find x = none := by
  induction fuel generalizing cursor with
  | zero => cases h
  | succ fuel ih =>
    rw [planMprotectLoop] at h
    split at h
    · rename_i hlt
      cases hfind : tree.find cursor with
      | none =>
        rw [hfind] at h
        cases h
        exact ⟨rfl, cursor, le_rfl, hlt, hfind⟩
      | some vma =>
        have hin : vma.start ≤ cursor ∧ cursor < vma.stop := (at?_eq_some.1 hfind).2
        simp only [hfind] at h
        cases hrest : planMprotectLoop tree hi prot fuel (min vma.stop hi) with
        | error e' =>
          rw [hrest] at h
          cases h
          obtain ⟨he, x, hx, hxhi, hnone⟩ := ih hrest
          exact ⟨he, x, by omega, hxhi, hnone⟩
        | ok rest => rw [hrest] at h; cases h
    · cases h

theorem retainLoop_ok {ids retained : List ℕ} {fs : FsState}
    (h : ∀ b ∈ ids, fs.mmapBackings.get? b ≠ none) :
    ∃ fs', retainLoop ids retained fs = (.ok (), fs') := by
  induction ids generalizing retained fs with
  | nil => exact ⟨fs, rfl⟩
  | cons b ids ih =>
    obtain ⟨backing, hb⟩ := Option.ne_none_iff_exists'.1 (h b mem_cons_self)
    simp only [retainLoop, FsState.retainMmapBacking, hb]
    refine ih fun c hc => ?_
    rw [OrdMap.get?_insert]
    split
    · exact Option.some_ne_none _
    · exact h c (mem_cons_of_mem b hc)

theorem mem_retainedBy {b : ℕ} (h : b ∈ retainedBy edits) :
    ∃ e ∈ edits, e.original.value.file = some b := by
  obtain ⟨adj, hadj, hb⟩ := mem_flatMap.1 h
  obtain ⟨e, he, hadj⟩ := mem_filterMap.1 hadj
  obtain ⟨c, hc, rfl⟩ := Option.map_eq_some_iff.1 hadj
  exact ⟨e, he, hc.trans (congrArg some (eq_of_mem_replicate hb).symm)⟩

/-- Two pages of a file without a backing. -/
def unbacked : Mm :=
  (Mm.init.insertVma userSpaceStart (userSpaceStart + 2 * pageSize)
    { flags := {}, file := some 1 }).2

end Kernel

end JanuaryOs.Virt

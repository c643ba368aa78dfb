import JanuaryOs.Virt.Accounts

/-!
# The transactions on areas do what they plan

The cursor loops of `mprotect` and `munmap` visit the areas that meet the range,
in order (`planMprotectUpdates_ok`, `planUnmapChanges_eq`). Removing these areas
and inserting the pieces of them cannot fail, because the pieces lie in the room
the areas leave (`replaceSegments_ok`), so the ways back after an insertion are
never taken. Nor is the one after a change of page flags: a page that is present
can always be mapped again.
-/

namespace JanuaryOs.Virt

open Lib Libs.Mptree IntervalMap List

/-! ### Exchanging areas -/

/-- An address space without its areas and their counters. -/
def Mm.layout (mm : Mm) : Mm :=
  { mm with vmaTree := .new, vmaCount := 0, totalVm := 0, execVm := 0, stackVm := 0 }

variable {a vma : Vma} {cursor cut : ℕ} {prot : UInt32} {plan : List (VmaEdit × PteUpdate)}

namespace Mm

variable {mm mm' mm'' : Mm}

/-- Some areas are gone, others have come, and everything else is as it was. -/
structure Exchanged (mm mm' : Mm) (removed inserted : List Vma) : Prop where
  layout : mm'.layout = mm.layout
  mem : ∀ a, a ∈ mm'.vmaTree ↔ a ∈ inserted ∨ a ∈ mm.vmaTree ∧ a ∉ removed
  sum : ∀ w : Vma → ℕ,
    mm'.vmaTree.sum w + (removed.map w).sum = mm.vmaTree.sum w + (inserted.map w).sum

variable {inserted inserted' removed removed' : List Vma}

theorem Exchanged.pageTable (h : Exchanged mm mm' removed inserted) :
    mm'.pageTable = mm.pageTable := by
  have := congrArg Mm.pageTable h.layout
  exact this

theorem Exchanged.mmCount (h : Exchanged mm mm' removed inserted) : mm'.mmCount = mm.mmCount := by
  have := congrArg Mm.mmCount h.layout
  exact this

theorem Exchanged.refl (mm : Mm) : Exchanged mm mm [] [] := ⟨rfl, fun a => by simp, fun w => rfl⟩

/-- One exchange after the other, which does not remove what the first one has
inserted. -/
theorem Exchanged.trans (h1 : Exchanged mm mm' removed inserted)
    (h2 : Exchanged mm' mm'' removed' inserted') (h : inserted = [] ∨ removed' = []) :
    Exchanged mm mm'' (removed ++ removed') (inserted ++ inserted') := by
  refine ⟨h2.layout.trans h1.layout, fun b => ?_, fun w => ?_⟩
  · rw [h2.mem, h1.mem]
    rcases h with rfl | rfl <;> simp only [mem_append, not_mem_nil] <;> tauto
  · have hw1 := h1.sum w
    have hw2 := h2.sum w
    simp only [map_append, sum_append]
    omega

theorem Exchanged.erase (h : a ∈ mm.vmaTree) (hlayout : mm'.layout = mm.layout)
    (htree : mm'.vmaTree = mm.vmaTree.erase a.start) : Exchanged mm mm' [a] [] := by
  refine ⟨hlayout, fun b => ?_, fun w => ?_⟩
  · simp only [htree, mem_erase, not_mem_nil, false_or, mem_singleton]
    exact and_congr_right fun hb =>
      ⟨fun hne heq => hne (heq ▸ rfl), fun hne heq => hne (eq_of_start_eq hb h heq)⟩
  · simpa [htree] using sum_erase w h

theorem removeVmaLocked_spec (h : a ∈ mm.vmaTree) :
    ∃ mm', mm.removeVmaLocked a.start = (some a, mm') ∧ Exchanged mm mm' [a] [] := by
  have hget : mm.vmaTree.map.get? a.start = some a := h
  unfold removeVmaLocked MapleTree.remove
  simp only [hget]
  exact ⟨_, rfl, .erase h rfl rfl⟩

theorem insertVmaLocked_spec (hproper : a.start < a.stop) (hapart : ∀ b ∈ mm.vmaTree, a.Apart b) :
    ∃ mm', mm.insertVmaLocked a = (true, mm') ∧ Exchanged mm mm' [] [a] := by
  have hins := MapleTree.insert_eq_ok (t := mm.vmaTree) (v := a.value) hproper hapart
  unfold insertVmaLocked
  simp only [hins]
  refine ⟨_, rfl, rfl, fun b => ?_, fun w => ?_⟩
  · simp [mem_add]
  · simp [sum_add]

theorem removeSegments_ok (hmem : ∀ a ∈ removed, a ∈ mm.vmaTree) (hnodup : removed.Nodup) :
    ∃ mm', removeSegments removed mm = (true, mm') ∧ Exchanged mm mm' removed [] := by
  induction removed generalizing mm with
  | nil => exact ⟨mm, rfl, .refl mm⟩
  | cons a rest ih =>
    obtain ⟨hnot, hrest⟩ := nodup_cons.1 hnodup
    obtain ⟨mm1, hrem, h1⟩ := removeVmaLocked_spec (hmem a mem_cons_self)
    obtain ⟨mm2, hgo, h2⟩ := ih (fun b hb => (h1.mem b).2 (.inr
      ⟨hmem b (mem_cons_of_mem a hb), by rintro (_ | ⟨_, hb'⟩); exacts [hnot hb, nomatch hb']⟩))
      hrest
    exact ⟨mm2, by rw [removeSegments, hrem]; exact hgo, h1.trans h2 (.inl rfl)⟩

theorem insertSegments_ok (removed done : List Vma) (hproper : ∀ a ∈ inserted, a.start < a.stop)
    (hsorted : inserted.Pairwise fun a b => a.stop ≤ b.start)
    (hapart : ∀ a ∈ inserted, ∀ b ∈ mm.vmaTree, a.Apart b) :
    ∃ mm', insertSegments removed inserted done mm = (true, mm') ∧
      Exchanged mm mm' [] inserted := by
  induction inserted generalizing mm done with
  | nil => exact ⟨mm, rfl, .refl mm⟩
  | cons a rest ih =>
    obtain ⟨hnext, hrest⟩ := pairwise_cons.1 hsorted
    obtain ⟨mm1, hins, h1⟩ := insertVmaLocked_spec (hproper a mem_cons_self)
      (hapart a mem_cons_self)
    obtain ⟨mm2, hgo, h2⟩ := ih (a :: done)
      (fun b hb => hproper b (mem_cons_of_mem a hb)) hrest (fun b hb c hc => by
        rcases (h1.mem c).1 hc with hc | ⟨hc, -⟩
        · rw [mem_singleton.1 hc]
          exact .inr (hnext b hb)
        · exact hapart b (mem_cons_of_mem a hb) c hc)
    exact ⟨mm2, by rw [insertSegments, hins]; exact hgo, h1.trans h2 (.inr rfl)⟩

end Mm

/-! ### Edits -/

/-- The pieces of an edit lie in the original, in order. -/
structure VmaEdit.Ok (e : VmaEdit) : Prop where
  sorted : e.kept.Pairwise fun a b => a.stop ≤ b.start
  piece : ∀ a ∈ e.kept, a.start < a.stop ∧ a.Within e.original

/-- Edits of different areas of a tree, in order. -/
structure EditsOk (tree : MapleTree VmaInfo) (edits : List VmaEdit) : Prop where
  ok : ∀ e ∈ edits, e.Ok
  mem : ∀ e ∈ edits, e.original ∈ tree
  sorted : edits.Pairwise fun e e' => e.original.stop ≤ e'.original.start

namespace Mm

variable {mm : Mm} {edits : List VmaEdit}

theorem replaceSegments_ok (h : EditsOk mm.vmaTree edits) :
    ∃ mm', mm.replaceSegments edits = (true, mm') ∧
      Exchanged mm mm' (edits.map VmaEdit.original) (edits.flatMap VmaEdit.kept) := by
  have hmem : ∀ a ∈ edits.map VmaEdit.original, a ∈ mm.vmaTree := by
    simpa only [forall_mem_map] using h.mem
  have hnodup : (edits.map VmaEdit.original).Nodup := by
    refine pairwise_map.2 (h.sorted.imp_of_mem fun {e e'} he _ hle heq => ?_)
    have := start_lt_stop (h.mem e he)
    rw [heq] at hle this
    omega
  obtain ⟨mm1, hrem, h1⟩ := removeSegments_ok hmem hnodup
  have hproper : ∀ a ∈ edits.flatMap VmaEdit.kept, a.start < a.stop := fun a ha => by
    obtain ⟨e, he, ha⟩ := mem_flatMap.1 ha
    exact ((h.ok e he).piece a ha).1
  have hsorted : (edits.flatMap VmaEdit.kept).Pairwise fun a b => a.stop ≤ b.start := by
    refine pairwise_flatMap.2 ⟨fun e he => (h.ok e he).sorted, ?_⟩
    refine h.sorted.imp_of_mem fun {e e'} he he' hle a ha b hb => ?_
    have ha := ((h.ok e he).piece a ha).2
    have hb := ((h.ok e' he').piece b hb).2
    unfold Interval.Within at ha hb
    omega
  -- a piece lies in its original, which is apart from every area that stays
  have hapart : ∀ a ∈ edits.flatMap VmaEdit.kept, ∀ b ∈ mm1.vmaTree, a.Apart b := by
    intro a ha b hb
    obtain ⟨e, he, ha⟩ := mem_flatMap.1 ha
    obtain ⟨hb, hstays⟩ := ((h1.mem b).1 hb).resolve_left (by simp)
    have hne : e.original ≠ b := fun heq => hstays (mem_map.2 ⟨e, he, heq⟩)
    exact (apart_of_ne (h.mem e he) hb hne).within ((h.ok e he).piece a ha).2
  obtain ⟨mm2, hins, h2⟩ := insertSegments_ok (edits.map VmaEdit.original) [] hproper hsorted
    hapart
  exact ⟨mm2, by simp only [replaceSegments, hrem, hins], by
    simpa using h1.trans h2 (.inl rfl)⟩

end Mm

/-! ### Plans -/

/-- What `mprotect` of `[lo, hi)` plans for an area that meets it. -/
def mprotectEditOf (lo hi : ℕ) (prot : UInt32) (vma : Vma) : VmaEdit × PteUpdate :=
  mprotectEdit vma (max vma.start lo) (min vma.stop hi) prot

/-- What `munmap` of `[lo, hi)` plans for an area that meets it. -/
def unmapEditOf (lo hi : ℕ) (vma : Vma) : VmaEdit × ℕ × ℕ :=
  (⟨vma, headSlice vma (max vma.start lo) ++ tailSlice vma (min vma.stop hi)⟩,
    max vma.start lo, min vma.stop hi)

variable {tree : MapleTree VmaInfo} {lo hi : ℕ} {fuel : ℕ}

theorem planUnmapLoop_eq (hfuel : hi - cursor ≤ fuel) (hlt : cursor < hi) :
    planUnmapLoop tree lo hi fuel cursor = (tree.meeting cursor hi).map (unmapEditOf lo hi) := by
  induction fuel generalizing cursor with
  | zero => omega
  | succ fuel ih =>
    rw [planUnmapLoop]
    cases hfirst : tree.firstIntersecting cursor hi with
    | none =>
      rw [meeting_eq_nil hfirst]
      rfl
    | some vma =>
      have hmeets := (firstMeeting_spec hfirst).2.1
      rw [meeting_eq_cons hfirst, map_cons]
      simp only
      split
      · -- the last area reaches the end of the range
        have hvma := (firstMeeting_spec hfirst).1
        rw [meeting_stop_eq_nil hvma (not_le.1 fun h => hmeets (.inl h)) (by omega)]
        rfl
      rename_i hlt'
      have hstop : min vma.stop hi = vma.stop := by omega
      have hnext : cursor < vma.stop := by
        unfold Interval.Meets at hmeets
        omega
      rw [hstop, ih (by omega) (by omega)]
      simp only [unmapEditOf, hstop]

theorem planUnmapChanges_eq (hlt : lo < hi) :
    planUnmapChanges tree lo hi = (tree.meeting lo hi).map (unmapEditOf lo hi) :=
  planUnmapLoop_eq le_rfl hlt

theorem planMprotectLoop_done (fuel : ℕ) (h : hi ≤ cursor) :
    planMprotectLoop tree hi prot fuel cursor = .ok [] := by
  cases fuel with
  | zero => rfl
  | succ fuel => rw [planMprotectLoop, if_neg (not_lt.2 h)]

/-- The loop of `mprotect` visits the areas that meet the range. A hole between
them is an error, so a plan means that there is none. -/
theorem planMprotectLoop_ok (hfuel : hi - cursor ≤ fuel) (hlo : lo ≤ cursor) (hlt : cursor < hi)
    (hprev : cursor = lo ∨ ∃ b ∈ tree, b.stop = cursor)
    (h : planMprotectLoop tree hi prot fuel cursor = .ok plan) :
    plan = (tree.meeting cursor hi).map (mprotectEditOf lo hi prot) ∧
      ∀ x, cursor ≤ x → x < hi → ∃ a ∈ tree, a.Contains x := by
  induction fuel generalizing cursor plan with
  | zero => omega
  | succ fuel ih =>
    rw [planMprotectLoop, if_pos hlt] at h
    cases hfind : tree.find cursor with
    | none => simp only [hfind] at h; cases h
    | some vma =>
      obtain ⟨hvma, hcontains⟩ := at?_eq_some.1 hfind
      simp only [hfind] at h
      have hbounds : vma.start ≤ cursor ∧ cursor < vma.stop := hcontains
      -- the cursor is the start of the range or of this area
      have hstart : max vma.start lo = cursor := by
        rcases hprev with rfl | ⟨b, hb, rfl⟩
        · omega
        have hne : b ≠ vma := by
          rintro rfl
          omega
        have hapart := apart_of_ne hb hvma hne
        have hproper := start_lt_stop hb
        unfold Interval.Apart at hapart
        omega
      have hfirst := firstMeeting_of_contains hvma hcontains hlt
      rw [meeting_eq_cons hfirst, map_cons]
      have hedit : mprotectEditOf lo hi prot vma =
          mprotectEdit vma cursor (min vma.stop hi) prot := by rw [mprotectEditOf, hstart]
      clear hprev hstart
      cases hrest : planMprotectLoop tree hi prot fuel (min vma.stop hi) with
      | error e => rw [hrest] at h; cases h
      | ok rest =>
        rw [hrest] at h
        cases h
        by_cases hle : hi ≤ vma.stop
        · rw [min_eq_right hle, planMprotectLoop_done fuel le_rfl] at hrest
          cases hrest
          rw [meeting_stop_eq_nil hvma (by omega) hle, hedit]
          exact ⟨rfl, fun x hx hxhi => ⟨vma, hvma, by unfold Interval.Contains; omega⟩⟩
        have hstop : min vma.stop hi = vma.stop := by omega
        obtain ⟨heq, hcover⟩ := ih (show hi - vma.stop ≤ fuel by omega)
          (by omega) (by omega) (.inr ⟨vma, hvma, rfl⟩) (hstop ▸ hrest)
        refine ⟨by rw [hedit, heq], fun x hx hxhi => ?_⟩
        by_cases hxs : x < vma.stop
        · exact ⟨vma, hvma, by unfold Interval.Contains; omega⟩
        · exact hcover x (by omega) hxhi

theorem planMprotectUpdates_ok (hlt : lo < hi)
    (h : planMprotectUpdates tree lo hi prot = .ok plan) :
    plan = (tree.meeting lo hi).map (mprotectEditOf lo hi prot) ∧
      ∀ x, lo ≤ x → x < hi → ∃ a ∈ tree, a.Contains x :=
  planMprotectLoop_ok le_rfl le_rfl hlt (.inl rfl) h

/-! ### The pieces -/

theorem mem_headSlice :
    a ∈ headSlice vma cut ↔ vma.start < cut ∧ a = cloneVmaSlice vma vma.start cut := by
  unfold headSlice
  split <;> simp [*]

theorem mem_tailSlice :
    a ∈ tailSlice vma cut ↔ cut < vma.stop ∧ a = cloneVmaSlice vma cut vma.stop := by
  unfold tailSlice
  split <;> simp [*]

/-- Pieces before, in and after a middle part are pieces of the area, in order. -/
theorem VmaEdit.ok_of_cut (mid : List Vma) {cut' : ℕ} (hcut : vma.start ≤ cut) (hle : cut ≤ cut')
    (hcut' : cut' ≤ vma.stop) (hmid : ∀ a ∈ mid, a.start < a.stop ∧ cut ≤ a.start ∧ a.stop ≤ cut')
    (hsorted : mid.Pairwise fun a b => a.stop ≤ b.start) :
    VmaEdit.Ok ⟨vma, headSlice vma cut ++ (mid ++ tailSlice vma cut')⟩ := by
  have hhead : (headSlice vma cut).Pairwise fun a b => a.stop ≤ b.start := by
    unfold headSlice
    split <;> simp
  have htail : (tailSlice vma cut').Pairwise fun a b => a.stop ≤ b.start := by
    unfold tailSlice
    split <;> simp
  constructor
  · refine pairwise_append.2 ⟨hhead, pairwise_append.2 ⟨hsorted, htail, ?_⟩, ?_⟩
    · intro a ha b hb
      obtain ⟨-, rfl⟩ := mem_tailSlice.1 hb
      exact (hmid a ha).2.2
    · intro a ha b hb
      obtain ⟨-, rfl⟩ := mem_headSlice.1 ha
      rcases mem_append.1 hb with hb | hb
      · exact (hmid b hb).2.1
      · obtain ⟨-, rfl⟩ := mem_tailSlice.1 hb
        exact hle
  · intro a ha
    rcases mem_append.1 ha with ha | ha
    · obtain ⟨hlt, rfl⟩ := mem_headSlice.1 ha
      exact ⟨hlt, le_rfl, hle.trans hcut'⟩
    rcases mem_append.1 ha with ha | ha
    · obtain ⟨hlt, hlo, hhi⟩ := hmid a ha
      exact ⟨hlt, hcut.trans hlo, hhi.trans hcut'⟩
    · obtain ⟨hlt, rfl⟩ := mem_tailSlice.1 ha
      exact ⟨hlt, hcut.trans hle, le_rfl⟩

theorem mprotect_editsOk (hlt : lo < hi) (prot : UInt32) :
    EditsOk tree (((tree.meeting lo hi).map (mprotectEditOf lo hi prot)).map Prod.fst) := by
  rw [map_map]
  refine ⟨fun e he => ?_, fun e he => ?_, pairwise_map.2 (tree.meeting_sorted lo hi)⟩ <;>
    obtain ⟨vma, hvma, rfl⟩ := mem_map.1 he <;>
    obtain ⟨hmem, hmeets⟩ := mem_meeting.1 hvma
  · have hproper := start_lt_stop hmem
    unfold Interval.Meets at hmeets
    have hcut : max vma.start lo < min vma.stop hi := by omega
    refine VmaEdit.ok_of_cut [protectedSlice vma _ _ prot] (le_max_left _ _) hcut.le
      (min_le_left _ _) (fun a ha => ?_) (pairwise_singleton _ _)
    rw [mem_singleton.1 ha]
    exact ⟨hcut, le_rfl, le_rfl⟩
  · exact hmem

theorem unmap_editsOk (hlt : lo < hi) :
    EditsOk tree (((tree.meeting lo hi).map (unmapEditOf lo hi)).map Prod.fst) := by
  rw [map_map]
  refine ⟨fun e he => ?_, fun e he => ?_, pairwise_map.2 (tree.meeting_sorted lo hi)⟩ <;>
    obtain ⟨vma, hvma, rfl⟩ := mem_map.1 he <;>
    obtain ⟨hmem, hmeets⟩ := mem_meeting.1 hvma
  · have hproper := start_lt_stop hmem
    unfold Interval.Meets at hmeets
    have hcut : max vma.start lo ≤ min vma.stop hi := by omega
    exact VmaEdit.ok_of_cut [] (le_max_left _ _) hcut (min_le_left _ _)
      (fun a ha => nomatch ha) .nil
  · exact hmem

/-! ### Committing -/

namespace Kernel

variable {K : Pfn → Prop} {k k' : Kernel} {id : MmId} {mm : Mm} {edits : List VmaEdit}

/-- A transaction can only fail on a backing that is gone, before any area has
changed. -/
theorem commitVmaEdits_eq (h : EditsOk mm.vmaTree edits) (k : Kernel) (id : MmId) :
    ∃ mm', mm.replaceSegments edits = (true, mm') ∧
      mm.Exchanged mm' (edits.map VmaEdit.original) (edits.flatMap VmaEdit.kept) ∧
      k.commitVmaEdits id mm edits = match applyBackingRetains edits k.fs with
        | (.error e, fs) => (.error e, { k with fs := fs })
        | (.ok _, fs) => (.ok (), { k with fs := fs }.setMm id mm') := by
  obtain ⟨mm', hreplace, hex⟩ := Mm.replaceSegments_ok h
  refine ⟨mm', hreplace, hex, ?_⟩
  rcases happly : applyBackingRetains edits k.fs with ⟨e | u, fs⟩
  · simp only [commitVmaEdits, happly]
  · simp only [commitVmaEdits, hreplace, happly]

/-! ### Flags of pages -/

/-- The entries with other flags for some pages of an address space. -/
def reflagPages (P : MmId → ℕ → Option Pte) (id : MmId) (pages : List ℕ) (flags : PteFlags) :
    MmId → ℕ → Option Pte :=
  fun i m => if i = id ∧ m ∈ pages then (P i m).map fun p => ⟨p.pfn, flags⟩ else P i m

/-- What a change of flags leaves behind. -/
structure Reflagged (K : Pfn → Prop) (k k' : Kernel) (P : MmId → ℕ → Option Pte) : Prop where
  accounted : k'.Accounted K
  fs : k'.fs = k.fs
  skeleton : k'.skeleton = k.skeleton
  pte : k'.pte = P

/-- Two states with the same frames and mappings, and entries that are known. -/
structure SameFrames (k k' : Kernel) (P : MmId → ℕ → Option Pte) : Prop where
  frames : k'.frames = k.frames
  maps : k'.maps = k.maps
  fs : k'.fs = k.fs
  skeleton : k'.skeleton = k.skeleton
  pte : k'.pte = P

theorem applyPteFlags_eq (k : Kernel) (id : MmId) (flags : PteFlags) (pages : List ℕ) :
    ∃ k', applyPteFlags id flags pages k = (.ok (), k') ∧
      SameFrames k k' (reflagPages k.pte id (pages.map pageNumber) flags) := by
  induction pages generalizing k with
  | nil =>
    refine ⟨k, rfl, rfl, rfl, rfl, rfl, ?_⟩
    funext i m
    simp [reflagPages]
  | cons addr rest ih =>
    rw [applyPteFlags, translate_eq_pte]
    cases hp : k.pte id (pageNumber addr) with
    | none =>
      obtain ⟨k', hgo, h⟩ := ih k
      refine ⟨k', hgo, h.frames, h.maps, h.fs, h.skeleton, h.pte.trans ?_⟩
      funext i m
      by_cases him : i = id ∧ m = pageNumber addr
      · obtain ⟨rfl, rfl⟩ := him
        simp [reflagPages, hp]
      simp only [reflagPages, map_cons, mem_cons]
      by_cases hi : i = id
      · have hm : ¬ m = pageNumber addr := fun h => him ⟨hi, h⟩
        simp [hi, hm]
      · simp [hi]
    | some p =>
      obtain ⟨k1, hmap, hmaps1, hfs1, hsk1, hframes1, hpte1⟩ := mapPage_same hp flags
      obtain ⟨k', hgo, h⟩ := ih k1
      simp only [hmap]
      refine ⟨k', hgo, h.frames.trans hframes1, h.maps.trans hmaps1, h.fs.trans hfs1,
        h.skeleton.trans hsk1, h.pte.trans ?_⟩
      funext i m
      by_cases him : i = id ∧ m = pageNumber addr
      · obtain ⟨rfl, rfl⟩ := him
        simp [reflagPages, hpte1, hp]
      rw [hpte1]
      simp only [reflagPages, map_cons, mem_cons, setEntry_of_ne him]
      by_cases hi : i = id
      · have hm : ¬ m = pageNumber addr := fun h => him ⟨hi, h⟩
        simp [hi, hm]
      · simp [hi]

/-- The entries after the updates of a plan. -/
def reflagAll (P : MmId → ℕ → Option Pte) (id : MmId) (updates : List PteUpdate) :
    MmId → ℕ → Option Pte :=
  updates.foldl
    (fun P u => reflagPages P id ((pagesIn u.start u.stop).map pageNumber) u.newFlags) P

theorem applyPteUpdates_eq (k : Kernel) (id : MmId) (edits : List VmaEdit)
    (updates applied : List PteUpdate) :
    ∃ k', applyPteUpdates id edits updates applied k = (.ok (), k') ∧
      SameFrames k k' (reflagAll k.pte id updates) := by
  induction updates generalizing k applied with
  | nil => exact ⟨k, rfl, rfl, rfl, rfl, rfl, rfl⟩
  | cons u rest ih =>
    obtain ⟨k1, hrange, h1⟩ := applyPteFlags_eq k id u.newFlags (pagesIn u.start u.stop)
    obtain ⟨k', hgo, h⟩ := ih k1 (u :: applied)
    refine ⟨k', ?_, h.frames.trans h1.frames, h.maps.trans h1.maps, h.fs.trans h1.fs,
      h.skeleton.trans h1.skeleton, ?_⟩
    · rw [applyPteUpdates, applyPteFlagsRange, hrange]
      exact hgo
    · rw [h.pte, h1.pte]
      rfl

theorem applyPteUpdates_ok (ha : k.Accounted K) (id : MmId) (edits : List VmaEdit)
    (updates applied : List PteUpdate) :
    ∃ k', applyPteUpdates id edits updates applied k = (.ok (), k') ∧
      Reflagged K k k' (reflagAll k.pte id updates) := by
  obtain ⟨k', heq, h⟩ := applyPteUpdates_eq k id edits updates applied
  exact ⟨k', heq, ha.congr h.frames h.maps, h.fs, h.skeleton, h.pte⟩

end Kernel

end JanuaryOs.Virt

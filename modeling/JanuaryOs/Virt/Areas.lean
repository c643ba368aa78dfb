import JanuaryOs.Virt.Syscall
import JanuaryOs.Virt.TxnSpec

/-!
# What every area of a reachable address space satisfies, and which pages lie in shared ones

Areas are made of whole pages, a writable area may be written, a heap is
private, and an area that is not anonymous has a file. Growing the stack, moving
the break and inserting a mapping keep this and never take a page out of a
shared area (`Mm.Extends`). Protecting a range leaves the shared pages as they
are; cutting a range out takes exactly the pages of that range out of their
areas.
-/

namespace JanuaryOs.Virt

open Lib Libs.Mptree IntervalMap MapleTree List

/-! ### Invariant -/

/-- An area as the calls make it. -/
structure VmaOk (a : Vma) : Prop where
  start : pageSize ∣ a.start
  stop : pageSize ∣ a.stop
  mayWrite : a.value.flags.write = true → a.value.flags.mayWrite = true
  heap : a.value.flags.heap = true → a.value.flags.shared = false
  file : a.value.flags.anonymous = false → a.value.file ≠ none

variable {start stop : ℕ}

namespace Mm

/-- An address space as the calls make it. -/
structure Wf (mm : Mm) : Prop where
  areas : ∀ a ∈ mm.vmaTree, VmaOk a
  brk : pageSize ∣ mm.brk

def Aligned (mm : Mm) : Prop := ∀ a ∈ mm.vmaTree, pageSize ∣ a.start ∧ pageSize ∣ a.stop

instance (mm : Mm) : Decidable mm.Aligned :=
  decidable_of_iff (∀ a ∈ mm.vmaTree.toList, pageSize ∣ a.start ∧ pageSize ∣ a.stop)
    (by simp only [Aligned, mem_toList])

theorem Wf.aligned {mm : Mm} (h : mm.Wf) : mm.Aligned :=
  fun a ha => ⟨(h.areas a ha).start, (h.areas a ha).stop⟩

/-- The page lies in a shared area. -/
def SharedAt (mm : Mm) (n : ℕ) : Prop :=
  ∃ a ∈ mm.vmaTree, a.Contains (n * pageSize) ∧ a.value.flags.shared = true

/-- A change of the areas that keeps shared pages shared. -/
structure Extends (mm mm' : Mm) : Prop where
  wf : mm.Wf → mm'.Wf
  shared : mm.Wf → ∀ n, mm.SharedAt n → mm'.SharedAt n
  pageTable : mm'.pageTable = mm.pageTable

variable {mm mm' mm'' : Mm} {newBrk : ℕ} {vma : Vma}

theorem Extends.refl (mm : Mm) : mm.Extends mm := ⟨id, fun _ _ h => h, rfl⟩

theorem Extends.trans (h : mm.Extends mm') (h' : mm'.Extends mm'') : mm.Extends mm'' :=
  ⟨fun hwf => h'.wf (h.wf hwf), fun hwf n hs => h'.shared (h.wf hwf) n (h.shared hwf n hs),
    h'.pageTable.trans h.pageTable⟩

theorem Extends.of_eq (htree : mm'.vmaTree = mm.vmaTree) (hbrk : mm'.brk = mm.brk)
    (hpages : mm'.pageTable = mm.pageTable) : mm.Extends mm' :=
  ⟨fun h => ⟨htree ▸ h.areas, hbrk ▸ h.brk⟩, fun _ n hs => by unfold SharedAt; rwa [htree], hpages⟩

/-- One area is exchanged for another, or added if there was none. -/
theorem Extends.of_replace {a : Vma} (old : Vma → Prop)
    (hmem : ∀ b, b ∈ mm'.vmaTree ↔ b = a ∨ b ∈ mm.vmaTree ∧ ¬ old b)
    (hok : mm.Wf → VmaOk a)
    (hold : mm.Wf → ∀ b ∈ mm.vmaTree, old b → b.value.flags.shared = true →
      a.value.flags.shared = true ∧ a.start ≤ b.start ∧ b.stop ≤ a.stop)
    (hbrk : mm.Wf → pageSize ∣ mm'.brk) (hpages : mm'.pageTable = mm.pageTable) :
    mm.Extends mm' := by
  refine ⟨fun hwf => ⟨fun b hb => ?_, hbrk hwf⟩, fun hwf n ⟨b, hb, hn, hs⟩ => ?_, hpages⟩
  · rcases (hmem b).1 hb with rfl | ⟨hb, -⟩
    · exact hok hwf
    · exact hwf.areas b hb
  · by_cases hob : old b
    · obtain ⟨has, hstart, hstop⟩ := hold hwf b hb hob hs
      refine ⟨a, (hmem a).2 (.inl rfl), ?_, has⟩
      unfold Interval.Contains at *
      omega
    · exact ⟨b, (hmem b).2 (.inr ⟨hb, hob⟩), hn, hs⟩

/-! ### Inserting, growing the stack, moving the break -/

theorem insertVma_extends (mm : Mm) {info : VmaInfo} (hok : VmaOk ⟨start, stop, info⟩) :
    mm.Extends (mm.insertVma start stop info).2 := by
  unfold insertVma
  cases hins : mm.vmaTree.insert start stop info with
  | error e => exact .refl mm
  | ok tree =>
    obtain ⟨-, -, hmem, -⟩ := insert_ok hins
    exact .of_replace (fun _ => False) (fun b => by simpa using hmem b) (fun _ => hok)
      (fun _ b _ hold => hold.elim) (fun hwf => hwf.brk) rfl

theorem expandStack_extends {vmaStart newStart : ℕ} (hnew : pageSize ∣ newStart) :
    mm.Extends (mm.expandStack vmaStart newStart).2 := by
  unfold expandStack
  split
  · exact .refl mm
  rename_i hlt
  cases hmove : mm.vmaTree.moveStart vmaStart newStart with
  | mk r tree =>
    have htree : (mm.vmaTree.moveStart vmaStart newStart).2 = tree := by rw [hmove]
    cases r with
    | error e =>
      rw [moveStart_error (e := e) (by rw [hmove])] at htree
      exact .of_eq htree.symm rfl rfl
    | ok u =>
      have hok : (mm.vmaTree.moveStart vmaStart newStart).1 = .ok () := by rw [hmove]
      obtain ⟨a, ha, hstart, hstop, hmem⟩ := moveStart_ok hok
      rw [htree] at hmem
      refine .of_replace (fun b => b.start = vmaStart) hmem (fun hwf => ?_)
        (fun hwf b hb hold hs => ?_) (fun hwf => hwf.brk) rfl
      · obtain ⟨-, h2, h3, h4, h5⟩ := hwf.areas a ha
        exact ⟨hnew, h2, h3, h4, h5⟩
      · rw [eq_of_start_eq hb ha (hold.trans hstart.symm)] at hs ⊢
        exact ⟨hs, by simp only; omega, le_rfl⟩

/-- A fault below the stack leaves the areas alone or grows one of them. -/
theorem expandStackForFault_cases (mm : Mm) (addr : ℕ) :
    (mm.expandStackForFault addr).2 = mm ∨
      ∃ start, (mm.expandStackForFault addr).2 = (mm.expandStack start (pageAlignDown addr)).2 := by
  rw [expandStackForFault]
  split
  · exact .inl rfl
  split
  · rename_i vma _
    split
    · refine .inr ⟨vma.start, ?_⟩
      split <;> rename_i heq <;> rw [heq]
    · exact .inl rfl
  · exact .inl rfl

theorem expandStackForFault_extends (addr : ℕ) : mm.Extends (mm.expandStackForFault addr).2 := by
  rcases expandStackForFault_cases mm addr with h | ⟨start, h⟩
  · rw [h]
    exact .refl mm
  · rw [h]
    exact expandStack_extends (pageSize_dvd_pageAlignDown addr)

/-- A fault below the stack is answered with an area that grew down to its page. -/
theorem expandStackForFault_some {addr : ℕ} (h : mm.expandStackForFault addr = (some vma, mm')) :
    mm.stackExpandMinAddr ≤ pageAlignDown addr ∧
      pageAlignDown addr < mm.stackTopAddr - mm.stackVm * pageSize % 2 ^ 64 ∧
      ∃ old ∈ mm.vmaTree, pageAlignDown addr < old.start ∧
        vma = ⟨pageAlignDown addr, old.stop, old.value⟩ ∧
        ∀ b, b ∈ mm'.vmaTree ↔ b = vma ∨ b ∈ mm.vmaTree ∧ b.start ≠ old.start := by
  unfold expandStackForFault expandStack at h
  generalize pageAlignDown addr = page at *
  simp only at h
  split at h
  · cases h
  rename_i hwindow
  split at h
  · rename_i old _
    split at h
    · rename_i hbelow
      rw [if_neg (not_le.2 hbelow.2)] at h
      rcases hmove : mm.vmaTree.moveStart old.start page with ⟨_ | _, tree⟩
      · rw [hmove] at h
        cases h
      obtain ⟨a, ha, hstart, hstop, hmem⟩ := moveStart_ok (congrArg Prod.fst hmove)
      rw [hmove] at h hmem
      obtain ⟨hfind, rfl⟩ := Prod.mk.inj h
      obtain ⟨hvma, hpage⟩ := at?_eq_some.1 hfind
      have hnew : (⟨page, a.stop, a.value⟩ : Vma) ∈ tree := (hmem _).2 (.inl rfl)
      obtain rfl := eq_of_contains hvma hnew hpage ⟨le_rfl, hstop⟩
      exact ⟨by omega, by omega, a, ha, hstart ▸ hbelow.2, rfl, hstart ▸ hmem⟩
    · cases h
  · cases h

theorem replace_heap_extends (hvma : vma ∈ mm.vmaTree) (hheap : vma.value.flags.heap = true)
    (hstop : pageSize ∣ stop)
    (htree : mm'.vmaTree = (mm.vmaTree.replace vma.start stop vma.value).2)
    (hbrk : mm'.brk = mm.brk) (hpages : mm'.pageTable = mm.pageTable) : mm.Extends mm' := by
  cases hrepl : (mm.vmaTree.replace vma.start stop vma.value).1 with
  | error e =>
    rw [replace_error hrepl] at htree
    exact .of_eq htree hbrk hpages
  | ok u =>
    obtain ⟨-, hmem⟩ := replace_ok hrepl
    rw [← htree] at hmem
    refine .of_replace (fun b => b.start = vma.start) hmem (fun hwf => ?_)
      (fun hwf b hb hold hs => ?_) (fun hwf => hbrk ▸ hwf.brk) hpages
    · obtain ⟨h1, -, h3, h4, h5⟩ := hwf.areas vma hvma
      exact ⟨h1, hstop, h3, h4, h5⟩
    · rw [eq_of_start_eq hb hvma hold, (hwf.areas vma hvma).heap hheap] at hs
      cases hs

theorem setBrk_extends {b : ℕ} (hb : pageSize ∣ b) : mm.Extends { mm with brk := b } :=
  ⟨fun h => ⟨h.areas, hb⟩, fun _ _ hs => hs, rfl⟩

theorem growBrk_extends (hnew : pageSize ∣ newBrk) (hbrk : pageSize ∣ mm.brk) :
    mm.Extends (mm.growBrk mm.brk newBrk).2 := by
  unfold growBrk
  split
  · exact .refl mm
  split
  · rename_i vma hfind
    obtain ⟨hfind, hheap⟩ := Option.filter_eq_some_iff.1 hfind
    obtain ⟨hvma, -⟩ := at?_eq_some.1 hfind
    split <;> rename_i heq <;>
      exact replace_heap_extends hvma hheap hnew (by rw [heq]) rfl rfl
  · have hok : VmaOk ⟨mm.brk, newBrk, { flags := heapFlags }⟩ :=
      ⟨hbrk, hnew, fun _ => rfl, fun _ => rfl, fun h => nomatch h⟩
    have hins := insertVma_extends mm hok
    split <;> rename_i heq <;> rw [heq] at hins <;> exact hins

theorem shrinkBrk_extends (hnew : pageSize ∣ newBrk) (oldBrk : ℕ) :
    mm.Extends (mm.shrinkBrk oldBrk newBrk).2 := by
  unfold shrinkBrk
  split
  · rename_i vma hfind
    obtain ⟨hfind, hcond⟩ := Option.filter_eq_some_iff.1 hfind
    obtain ⟨hvma, -⟩ := at?_eq_some.1 hfind
    have hheap : vma.value.flags.heap = true := by simp_all
    split <;> rename_i heq <;>
      exact replace_heap_extends hvma hheap hnew (by rw [heq]) rfl rfl
  · exact .refl mm

theorem doBrk_extends (newBrk : ℕ) (hbrk : pageSize ∣ mm.brk) : mm.Extends (mm.doBrk newBrk).2 := by
  have hnew := pageSize_dvd_pageAlignUp newBrk
  have hmove : mm.Extends (if mm.brk < pageAlignUp newBrk
      then mm.growBrk mm.brk (pageAlignUp newBrk)
      else mm.shrinkBrk mm.brk (pageAlignUp newBrk)).2 := by
    split
    · exact growBrk_extends hnew hbrk
    · exact shrinkBrk_extends hnew mm.brk
  rw [doBrk]
  split
  · exact .refl mm
  split
  · exact .refl mm
  · split <;> rename_i heq <;> rw [heq] at hmove
    · exact hmove
    · exact hmove.trans (setBrk_extends hnew)

/-! ### Choosing an address -/

theorem findFreeArea_aligned {hint size : ℕ} (hwf : mm.Wf)
    (h : mm.findFreeArea hint size = some start) : pageSize ∣ start := by
  have hhint : pageSize ∣ if pageAlignUp hint < userSpaceStart then userSpaceStart
      else pageAlignUp hint := by
    split
    · decide
    · exact pageSize_dvd_pageAlignUp hint
  unfold findFreeArea at h
  dsimp only at h
  generalize (if pageAlignUp hint < userSpaceStart then userSpaceStart else pageAlignUp hint)
    = first at h hhint
  rcases findGap_cases h with rfl | ⟨a, ha, rfl⟩
  · exact hhint
  rw [Nat.max_def]
  split
  · exact hhint
  · exact (hwf.areas a ha).stop

theorem placeHeap_extends : mm.Extends mm.placeHeap := by
  unfold placeHeap
  split
  · refine ⟨fun h => ⟨h.areas, ?_⟩, fun _ _ hs => hs, rfl⟩
    cases hfind : mm.findFreeArea (userSpaceStart + 0x1000000) pageSize with
    | none => simp only [hfind]; decide
    | some base => simp only [hfind, Option.getD_some]; exact findFreeArea_aligned h hfind
  · exact .refl mm

theorem selectLoop_aligned {len rounds hint : ℕ} (hwf : mm.Wf)
    (h : mm.selectLoop len rounds hint = .ok (.found start)) : pageSize ∣ start := by
  induction rounds generalizing hint with
  | zero => cases h
  | succ rounds ih =>
    rw [selectLoop] at h
    split at h
    · cases h
    rename_i found hfind
    split at h
    · cases h
    split at h
    · cases h
      exact findFreeArea_aligned hwf hfind
    · split at h
      · cases h
      · exact ih h

theorem mmapSelectAddr_aligned {addr len : ℕ} {flags : UInt32} (hwf : mm.Wf)
    (h : mm.mmapSelectAddr addr len flags = .ok start) : pageSize ∣ start := by
  rw [mmapSelectAddr] at h
  split at h
  · split at h
    · cases h
    rename_i haligned
    cases hval : validateUserMmapRange addr len with
    | error e => rw [hval] at h; cases h
    | ok u =>
      rw [hval] at h
      cases h
      exact Nat.dvd_of_mod_eq_zero (not_not.1 haligned)
  · dsimp only at h
    generalize max (if addr = 0 then mm.mmapBase else pageAlignUp addr) userSpaceStart = hint at h
    split at h
    · cases h
    · rename_i found hloop
      cases h
      exact selectLoop_aligned hwf hloop
    · split at h
      · cases h
      split at h
      · cases h
      · rename_i found hloop
        cases h
        exact selectLoop_aligned hwf hloop
      · cases h

end Mm

/-! ### Pieces of areas -/

variable {vma a : Vma} {lo hi : ℕ} {prot : UInt32}

theorem cloneVmaSlice_ok (h : VmaOk vma) (hstart : pageSize ∣ start) (hstop : pageSize ∣ stop) :
    VmaOk (cloneVmaSlice vma start stop) :=
  ⟨hstart, hstop, h.mayWrite, h.heap, h.file⟩

theorem dvd_cut (hlo : pageSize ∣ lo) (hhi : pageSize ∣ hi)
    (h : pageSize ∣ vma.start ∧ pageSize ∣ vma.stop) :
    pageSize ∣ max vma.start lo ∧ pageSize ∣ min vma.stop hi := by
  rw [Nat.max_def, Nat.min_def]
  exact ⟨by split; exacts [hlo, h.1], by split; exacts [h.2, hhi]⟩

theorem unmap_piece_ok (h : VmaOk vma) (hlo : pageSize ∣ lo) (hhi : pageSize ∣ hi)
    (ha : a ∈ (unmapEditOf lo hi vma).1.kept) : VmaOk a := by
  obtain ⟨hcut, hcut'⟩ := dvd_cut hlo hhi ⟨h.start, h.stop⟩
  rcases mem_append.1 ha with ha | ha
  · obtain ⟨-, rfl⟩ := mem_headSlice.1 ha
    exact cloneVmaSlice_ok h h.start hcut
  · obtain ⟨-, rfl⟩ := mem_tailSlice.1 ha
    exact cloneVmaSlice_ok h hcut' h.stop

theorem unmap_piece_contains {x : ℕ} (hx : vma.Contains x) (hout : ¬ (lo ≤ x ∧ x < hi)) :
    ∃ a ∈ (unmapEditOf lo hi vma).1.kept, a.Contains x ∧ a.value.flags = vma.value.flags := by
  have hx : vma.start ≤ x ∧ x < vma.stop := hx
  by_cases hlt : x < lo
  · refine ⟨_, mem_append_left _ (mem_headSlice.2 ⟨by omega, rfl⟩), ⟨hx.1, ?_⟩, rfl⟩
    show x < max vma.start lo
    omega
  · refine ⟨_, mem_append_right _ (mem_tailSlice.2 ⟨by omega, rfl⟩), ⟨?_, hx.2⟩, rfl⟩
    show min vma.stop hi ≤ x
    omega

theorem mprotect_piece_ok (h : VmaOk vma) (hlo : pageSize ∣ lo) (hhi : pageSize ∣ hi)
    (ha : a ∈ (mprotectEditOf lo hi prot vma).1.kept) : VmaOk a := by
  obtain ⟨hcut, hcut'⟩ := dvd_cut hlo hhi ⟨h.start, h.stop⟩
  rcases mem_append.1 ha with ha | ha
  · obtain ⟨-, rfl⟩ := mem_headSlice.1 ha
    exact cloneVmaSlice_ok h h.start hcut
  rcases mem_cons.1 ha with rfl | ha
  · refine ⟨hcut, hcut', fun hw => ?_, h.heap, h.file⟩
    have hw : hasBit prot protWrite = true := hw
    simp [protectedSlice, mprotectFlagsFromProt, hw]
  · obtain ⟨-, rfl⟩ := mem_tailSlice.1 ha
    exact cloneVmaSlice_ok h hcut' h.stop

/-- Every point of the original lies in a piece that is shared if the original
is. -/
theorem mprotect_piece_contains (lo hi : ℕ) (prot : UInt32) {x : ℕ} (hx : vma.Contains x) :
    ∃ a ∈ (mprotectEditOf lo hi prot vma).1.kept,
      a.Contains x ∧ a.value.flags.shared = vma.value.flags.shared := by
  have hx : vma.start ≤ x ∧ x < vma.stop := hx
  by_cases hhead : x < max vma.start lo
  · exact ⟨_, mem_append_left _ (mem_headSlice.2 ⟨by omega, rfl⟩), ⟨hx.1, hhead⟩, rfl⟩
  by_cases hmid : x < min vma.stop hi
  · exact ⟨_, mem_append_right _ mem_cons_self, ⟨not_lt.1 hhead, hmid⟩, rfl⟩
  · exact ⟨_, mem_append_right _ (mem_cons_of_mem _ (mem_tailSlice.2 ⟨by omega, rfl⟩)),
      ⟨not_lt.1 hmid, hx.2⟩, rfl⟩

namespace Mm

variable {mm mm' : Mm}

/-- An area after a transaction is a piece of an area that met the range, or one
that did not meet it. -/
theorem Exchanged.mem_edits {edits : List VmaEdit} {E : Vma → VmaEdit}
    (h : Exchanged mm mm' (edits.map VmaEdit.original) (edits.flatMap VmaEdit.kept))
    (hedits : edits = (mm.vmaTree.meeting lo hi).map E) (hE : ∀ vma, (E vma).original = vma)
    (a : Vma) :
    a ∈ mm'.vmaTree ↔ (∃ vma ∈ mm.vmaTree, vma.Meets lo hi ∧ a ∈ (E vma).kept) ∨
      a ∈ mm.vmaTree ∧ ¬ a.Meets lo hi := by
  subst hedits
  rw [h.mem]
  simp only [map_map, mem_map, mem_flatMap, Function.comp_apply, hE,
    mem_meeting]
  constructor
  · rintro (⟨e, ⟨vma, hvma, rfl⟩, ha⟩ | ⟨ha, hnot⟩)
    · exact .inl ⟨vma, hvma.1, hvma.2, ha⟩
    · exact .inr ⟨ha, fun hm => hnot ⟨a, ⟨ha, hm⟩, rfl⟩⟩
  · rintro (⟨vma, hvma, hmeets, ha⟩ | ⟨ha, hnot⟩)
    · exact .inl ⟨_, ⟨vma, ⟨hvma, hmeets⟩, rfl⟩, ha⟩
    · refine .inr ⟨ha, ?_⟩
      rintro ⟨vma, ⟨-, hm⟩, rfl⟩
      exact hnot hm

/-- The edits of `munmap`. -/
def unmapEdits (mm : Mm) (lo hi : ℕ) : List VmaEdit :=
  ((mm.vmaTree.meeting lo hi).map (unmapEditOf lo hi)).map Prod.fst

/-- The edits of `mprotect`. -/
def mprotectEdits (mm : Mm) (lo hi : ℕ) (prot : UInt32) : List VmaEdit :=
  ((mm.vmaTree.meeting lo hi).map (mprotectEditOf lo hi prot)).map Prod.fst

theorem Exchanged.brk {removed inserted : List Vma} (h : Exchanged mm mm' removed inserted) :
    mm'.brk = mm.brk := by
  have := congrArg Mm.brk h.layout
  exact this

theorem unmapEdits_wf (hlo : pageSize ∣ lo) (hhi : pageSize ∣ hi) (hwf : mm.Wf)
    (h : Exchanged mm mm' ((mm.unmapEdits lo hi).map VmaEdit.original)
      ((mm.unmapEdits lo hi).flatMap VmaEdit.kept)) : mm'.Wf := by
  refine ⟨fun a ha => ?_, h.brk ▸ hwf.brk⟩
  rcases (h.mem_edits (map_map ..) (fun _ => rfl) a).1 ha with ⟨vma, hvma, -, ha⟩ | ⟨ha, -⟩
  · exact unmap_piece_ok (hwf.areas vma hvma) hlo hhi ha
  · exact hwf.areas a ha

theorem unmapEdits_shared {n : ℕ}
    (h : Exchanged mm mm' ((mm.unmapEdits lo hi).map VmaEdit.original)
      ((mm.unmapEdits lo hi).flatMap VmaEdit.kept)) (hs : mm.SharedAt n)
    (hout : ¬ (lo ≤ n * pageSize ∧ n * pageSize < hi)) : mm'.SharedAt n := by
  obtain ⟨vma, hvma, hn, hs⟩ := hs
  have hmem := h.mem_edits (map_map ..) (fun _ => rfl)
  by_cases hmeets : vma.Meets lo hi
  · obtain ⟨a, ha, han, hflags⟩ := unmap_piece_contains hn hout
    exact ⟨a, (hmem a).2 (.inl ⟨vma, hvma, hmeets, ha⟩), han, hflags ▸ hs⟩
  · exact ⟨vma, (hmem vma).2 (.inr ⟨hvma, hmeets⟩), hn, hs⟩

theorem mprotectEdits_extends (hlo : pageSize ∣ lo) (hhi : pageSize ∣ hi)
    (h : Exchanged mm mm' ((mm.mprotectEdits lo hi prot).map VmaEdit.original)
      ((mm.mprotectEdits lo hi prot).flatMap VmaEdit.kept)) : mm.Extends mm' := by
  have hmem := h.mem_edits (map_map ..) (fun _ => rfl)
  refine ⟨fun hwf => ⟨fun a ha => ?_, h.brk ▸ hwf.brk⟩, fun _ n ⟨vma, hvma, hn, hs⟩ => ?_,
    h.pageTable⟩
  · rcases (hmem a).1 ha with ⟨vma, hvma, -, ha⟩ | ⟨ha, -⟩
    · exact mprotect_piece_ok (hwf.areas vma hvma) hlo hhi ha
    · exact hwf.areas a ha
  · by_cases hmeets : vma.Meets lo hi
    · obtain ⟨a, ha, han, hflags⟩ := mprotect_piece_contains lo hi prot hn
      exact ⟨a, (hmem a).2 (.inl ⟨vma, hvma, hmeets, ha⟩), han, hflags.trans hs⟩
    · exact ⟨vma, (hmem vma).2 (.inr ⟨hvma, hmeets⟩), hn, hs⟩

end Mm

end JanuaryOs.Virt

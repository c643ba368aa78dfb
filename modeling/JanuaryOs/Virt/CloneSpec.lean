import JanuaryOs.Virt.Invariant

/-!
# `mprotect` and `mm_clone` keep the invariant of the memory state, each under a condition

Both rewrite the flags of pages that other address spaces may have mapped.
`mprotect` gives a page the flags of its area and does not look whether the
frame is shared. `mm_clone` takes the writable bit only from pages of areas that
are writable themselves; a page that is writable in an area that is not keeps
its bit.

The loops of `mm_clone` over areas and pages are one loop over a list of pages
with the flags of their areas (`cloneTodo`). What it needs for the pages that
are left is `Cloning`.
-/

namespace JanuaryOs.Virt

open Lib Libs.Mptree IntervalMap List
open Fs (FsState)

/-! ### Flags of many pages -/

variable {S : MmId → ℕ → Prop} {P : MmId → ℕ → Option Pte} {id : MmId}

theorem Exclusive.reflag {f : Pfn} (h : Exclusive S P id f) (pages : List ℕ) (flags : PteFlags) :
    Exclusive S (Kernel.reflagPages P id pages flags) id f := by
  intro i m q hi hq hpfn
  rw [Kernel.reflagPages, if_neg fun hc => hi hc.1] at hq
  exact h i m q hi hq hpfn

/-- The updates of a plan keep private frames with two owners read-only. -/
theorem Isolated.reflagAll {updates : List PteUpdate} (h : Isolated S P)
    (hw : ∀ u ∈ updates, u.newFlags.writable = true →
      ∀ m ∈ (Kernel.pagesIn u.start u.stop).map pageNumber, ∀ p, P id m = some p →
        S id m ∨ Exclusive S P id p.pfn) :
    Isolated S (Kernel.reflagAll P id updates) := by
  induction updates generalizing P with
  | nil => exact h
  | cons u rest ih =>
    refine ih (h.reflag (hw u mem_cons_self)) fun u' hu' hwr m hm p hp => ?_
    -- the page had the same frame before
    obtain ⟨p0, hp0, hpfn⟩ : ∃ p0, P id m = some p0 ∧ p0.pfn = p.pfn := by
      simp only [Kernel.reflagPages] at hp
      split at hp
      · obtain ⟨p0, hp0, rfl⟩ := Option.map_eq_some_iff.1 hp
        exact ⟨p0, hp0, rfl⟩
      · exact ⟨p, hp, rfl⟩
    rcases hw u' (mem_cons_of_mem _ hu') hwr m hm p0 hp0 with hs | hex
    · exact .inl hs
    · rw [hpfn] at hex
      exact .inr (hex.reflag _ _)

namespace Kernel

variable {K : Pfn → Prop} {k k' : Kernel} {src dst : MmId} {mm mm' : Mm} {addr n : ℕ}
  {flags : VmFlags} {p : Pte}

/-! ### `mprotect` -/

/-- Nobody else maps the private pages of the range. -/
def RangeExclusive (k : Kernel) (id : MmId) (lo hi : ℕ) : Prop :=
  ∀ n p, lo ≤ n * pageSize → n * pageSize < hi → k.pte id n = some p →
    k.SharedAt id n ∨ Exclusive k.SharedAt k.pte id p.pfn

theorem mprotectRangeForMm_inv (h : k.Inv K) (hid : k.mms.get? id = some mm) {lo hi : ℕ}
    {prot : UInt32} (hlo : pageSize ∣ lo) (hhi : pageSize ∣ hi) (hlt : lo < hi)
    (hsafe : hasBit prot protWrite = true →
      (∀ x, lo ≤ x → x < hi → ∃ a ∈ mm.vmaTree, a.Contains x) → k.RangeExclusive id lo hi) :
    (k.mprotectRangeForMm id mm lo hi prot).2.Inv K := by
  have hwf := h.wf_mm hid
  unfold mprotectRangeForMm
  cases hplan : planMprotectUpdates mm.vmaTree lo hi prot with
  | error e => exact h
  | ok plan =>
    obtain ⟨rfl, hcover⟩ := planMprotectUpdates_ok hlt hplan
    have hedits : EditsOk mm.vmaTree (mm.mprotectEdits lo hi prot) :=
      mprotect_editsOk hlt prot
    obtain ⟨mm', -, hex, hcommit⟩ := commitVmaEdits_eq hedits k id
    simp only
    rw [← Mm.mprotectEdits, hcommit]
    rcases applyBackingRetains (mm.mprotectEdits lo hi prot) k.fs with ⟨e | _, fs⟩
    · exact h.congr rfl rfl
    have hext : mm.Extends mm' := Mm.mprotectEdits_extends hlo hhi hex
    have hfs : ({ k with fs := fs } : Kernel).Inv K := h.congr rfl rfl
    have hid' : ({ k with fs := fs } : Kernel).mms.get? id = some mm := hid
    have h1 := hfs.setMm hid' hext
    simp only
    generalize hk1 : ({ k with fs := fs } : Kernel).setMm id mm' = k1 at h1
    have hpte1 : k1.pte = k.pte := by
      rw [← hk1]
      exact pte_setMm (k := { k with fs := fs }) hid hext.pageTable
    have hshared1 : ∀ i m, k1.SharedAt i m ↔ if i = id then mm'.SharedAt m
        else k.SharedAt i m := fun i m => by
      rw [← hk1]
      exact sharedAt_setMm { k with fs := fs } id mm' i m
    obtain ⟨k', hgo, hk'⟩ := applyPteUpdates_ok h1.accounted id
      (mm.mprotectEdits lo hi prot)
      (((mm.vmaTree.meeting lo hi).map (mprotectEditOf lo hi prot)).map Prod.snd) []
    rw [hgo]
    have hshared' : k'.SharedAt = k1.SharedAt := by unfold SharedAt; rw [hk'.skeleton]
    refine ⟨hk'.accounted, hk'.skeleton ▸ h1.wf, ?_⟩
    rw [hshared', hk'.pte]
    refine h1.isolated.reflagAll fun u hu hwr m hm p hp => ?_
    obtain ⟨e, he, rfl⟩ := mem_map.1 hu
    obtain ⟨vma, hvma, rfl⟩ := mem_map.1 he
    obtain ⟨hvma, -⟩ := mem_meeting.1 hvma
    have hcut := (dvd_cut hlo hhi (hwf.aligned vma hvma)).1
    have hrange : max vma.start lo ≤ m * pageSize ∧ m * pageSize < min vma.stop hi :=
      (mem_pagesIn hcut).1 hm
    rw [hpte1] at hp ⊢
    rcases hsafe hwr hcover m p (by omega) (by omega) hp with hs | hexcl
    · refine .inl ((hshared1 id m).2 ?_)
      rw [if_pos rfl]
      exact hext.shared hwf m ((sharedAt_iff hid).1 hs)
    · refine .inr fun i m' q hi hq hpfn => (hshared1 i m').2 ?_
      rw [if_neg hi]
      exact hexcl i m' q hi hq hpfn

theorem sysMprotect_inv (h : k.Inv K) (id : MmId) (addr length : ℕ) (prot : UInt32)
    (hsafe : length ≠ 0 → addr % pageSize = 0 → (prot &&& ~~~mmapProtAllowed != 0) = false →
      hasBit prot protWrite = true → ∀ stop, checkRange addr length .ENOMEM = .ok stop →
      ∀ mm, k.mms.get? id = some mm →
      (∀ x, addr ≤ x → x < stop → ∃ a ∈ mm.vmaTree, a.Contains x) →
      k.RangeExclusive id addr stop) :
    (k.sysMprotect id addr length prot).2.Inv K := by
  rw [sysMprotect]
  split
  · exact h
  rename_i hlength
  split
  · exact h
  rename_i haddr
  split
  · exact h
  rename_i hprot
  cases hrange : checkRange addr length .ENOMEM with
  | error e => exact h
  | ok stop =>
    obtain ⟨hlo, hhi, hlt⟩ := checkRange_ok (not_not.1 haddr) hrange
    simp only
    cases hid : k.mms.get? id with
    | none => exact h
    | some mm =>
      exact mprotectRangeForMm_inv h hid hlo hhi hlt fun hwrite hcover =>
        hsafe hlength (not_not.1 haddr) (eq_false_of_ne_true hprot) hwrite stop hrange mm
          hid hcover

/-! ### Copying the areas -/

/-- `a` is the part of `vma` in user space. -/
def UserPart (vma a : Vma) : Prop :=
  userVmaIntersection vma.start vma.stop = some (a.start, a.stop) ∧ a.value = vma.value

/-- The part of an area in user space. -/
def userPart? (vma : Vma) : Option Vma :=
  (userVmaIntersection vma.start vma.stop).map fun range => ⟨range.1, range.2, vma.value⟩

variable {a vma : Vma} {tree : MapleTree VmaInfo} {todo : List (VmFlags × ℕ)} {x : VmFlags × ℕ}

theorem userPart?_eq_some : userPart? vma = some a ↔ UserPart vma a := by
  obtain ⟨start, stop, value⟩ := a
  simp only [userPart?, Option.map_eq_some_iff, UserPart, Interval.mk.injEq, Prod.exists]
  constructor
  · rintro ⟨lo, hi, h, rfl, rfl, rfl⟩
    exact ⟨h, rfl⟩
  · rintro ⟨h, rfl⟩
    exact ⟨start, stop, h, rfl, rfl, rfl⟩

/-- An address space after `mm_clone` has inserted areas and taken their
references. The totals stay as they are. -/
structure Filled (mm : Mm) (fs : FsState) (inserted : List Vma) (mm' : Mm) (fs' : FsState) :
    Prop where
  exchanged : Mm.Exchanged mm mm' [] inserted
  counters : mm' = { mm with
    vmaTree := mm'.vmaTree
    vmaCount := inserted.foldl (fun n _ => satAdd u32Max n 1) mm.vmaCount }
  retained : retainLoop (inserted.filterMap fun a => a.value.file) [] fs = (.ok (), fs')

theorem Filled.refl (mm : Mm) (fs : FsState) : Filled mm fs [] mm fs := ⟨.refl mm, rfl, rfl⟩

/-- What has been retained before does not matter unless a retain fails. -/
theorem retainLoop_ok_congr {ids : List ℕ} {fs fs' : FsState} (retained retained' : List ℕ)
    (h : retainLoop ids retained fs = (.ok (), fs')) :
    retainLoop ids retained' fs = (.ok (), fs') := by
  induction ids generalizing fs retained retained' with
  | nil => exact h
  | cons id rest ih =>
    rw [retainLoop] at h ⊢
    rcases hret : fs.retainMmapBacking id with ⟨e | _, fs1⟩
    · rw [hret] at h
      cases h
    · rw [hret] at h
      exact ih _ _ h

theorem Filled.cons {mm mm' : Mm} {fs fs1 fs' : FsState} {rest : List Vma}
    (hins : mm.vmaTree.insert a.start a.stop a.value = .ok tree)
    (hfs : a.value.file = none ∧ fs1 = fs ∨
      ∃ id, a.value.file = some id ∧ fs.retainMmapBacking id = (.ok (), fs1))
    (h : Filled { mm with
      vmaTree := tree, vmaCount := satAdd u32Max mm.vmaCount 1 } fs1 rest mm' fs') :
    Filled mm fs (a :: rest) mm' fs' := by
  obtain ⟨-, -, hmem, hsum⟩ := MapleTree.insert_ok hins
  have hone : Mm.Exchanged mm { mm with vmaTree := tree, vmaCount := satAdd u32Max mm.vmaCount 1 }
      [] [a] := by
    refine ⟨rfl, fun b => ?_, fun w => ?_⟩
    · rw [hmem]
      simp
    · simpa using hsum w
  refine ⟨hone.trans h.exchanged (.inr rfl), h.counters, ?_⟩
  rcases hfs with ⟨hfile, rfl⟩ | ⟨id, hfile, hret⟩
  · rw [filterMap_cons_none (by exact hfile)]
    exact h.retained
  · rw [filterMap_cons_some (by exact hfile), retainLoop, hret]
    exact retainLoop_ok_congr _ _ h.retained

/-- The loop over the areas fills the new address space with their user parts.
It may stop early, but then it says so. -/
theorem cloneVmas_filled (dst : MmId) (areas : List Vma) (mm : Mm) (k : Kernel) :
    ∃ mm' fs r inserted, cloneVmas dst areas mm k = (r, { k with fs := fs }.setMm dst mm') ∧
      Filled mm k.fs inserted mm' fs ∧ inserted <+: areas.filterMap userPart? ∧
      (r = true → inserted = areas.filterMap userPart?) := by
  induction areas generalizing mm k with
  | nil => exact ⟨mm, k.fs, true, [], rfl, .refl mm k.fs, nil_prefix, fun _ => rfl⟩
  | cons vma rest ih =>
    rw [cloneVmas]
    rcases hpart : userVmaIntersection vma.start vma.stop with _ | ⟨lo, hi⟩
    · have hnone : userPart? vma = none := by rw [userPart?, hpart]; rfl
      rw [filterMap_cons_none hnone]
      exact ih mm k
    have hsome : userPart? vma = some ⟨lo, hi, vma.value⟩ := by rw [userPart?, hpart]; rfl
    rw [filterMap_cons_some hsome]
    -- the ways out before the area is in
    have hstop : ∀ areas : List Vma, ([] : List Vma) <+: areas ∧ (false = true → [] = areas) :=
      fun areas => ⟨List.nil_prefix, nofun⟩
    simp only
    cases hins : mm.vmaTree.insert lo hi vma.value with
    | error e => exact ⟨mm, k.fs, false, [], rfl, .refl mm k.fs, hstop _⟩
    | ok tree =>
      simp only
      cases hfile : vma.value.file with
      | none =>
        obtain ⟨mm', fs, r, inserted, heq, hfilled, hinit, hall⟩ := ih
          { mm with vmaTree := tree, vmaCount := satAdd u32Max mm.vmaCount 1 } k
        exact ⟨mm', fs, r, ⟨lo, hi, vma.value⟩ :: inserted, heq,
          hfilled.cons hins (.inl ⟨hfile, rfl⟩), cons_prefix_cons.2 ⟨rfl, hinit⟩,
          fun hr => congrArg _ (hall hr)⟩
      | some backing =>
        simp only
        rcases hret : k.fs.retainMmapBacking backing with ⟨e | _, fs1⟩
        · have hsame : fs1 = k.fs := by
            unfold FsState.retainMmapBacking at hret
            split at hret
            · cases hret
              rfl
            · cases hret
          exact ⟨mm, fs1, false, [], rfl, hsame ▸ .refl mm k.fs, hstop _⟩
        · obtain ⟨mm', fs, r, inserted, heq, hfilled, hinit, hall⟩ := ih
            { mm with vmaTree := tree, vmaCount := satAdd u32Max mm.vmaCount 1 }
            { k with fs := fs1 }
          exact ⟨mm', fs, r, ⟨lo, hi, vma.value⟩ :: inserted, heq,
            hfilled.cons hins (.inr ⟨backing, hfile, hret⟩),
            cons_prefix_cons.2 ⟨rfl, hinit⟩, fun hr => congrArg _ (hall hr)⟩

theorem maps_addMm (hid : k.mms.get? id = none) (hpages : mm.pageTable = .empty) :
    (k.setMm id mm).maps = k.maps := by
  funext f
  have hsum := k.mms.sum_insert (fun _ mm => mm.maps f) id mm
  have hzero : mm.maps f = 0 := by unfold Mm.maps; rw [hpages]; rfl
  rw [hid, Option.elim_none, hzero] at hsum
  exact hsum

theorem Inv.addMm (h : k.Inv K) (hid : k.mms.get? id = none) (hwf : mm.Wf)
    (hpages : mm.pageTable = .empty) : (k.setMm id mm).Inv K := by
  have hnone : ∀ m, k.pte id m = none := fun m => by rw [pte, hid]; rfl
  have hpte : (k.setMm id mm).pte = k.pte := by
    funext i m
    simp only [pte, Kernel.setMm, OrdMap.get?_insert]
    split
    · rename_i hi
      rw [hi, hid, Option.bind_some, hpages]
      rfl
    · rfl
  refine h.of_skeleton_at (h.accounted.congr rfl (maps_addMm hid hpages)) rfl hwf
    (fun i m p hp => hpte ▸ hp) fun m p hp => ?_
  rw [hpte, hnone] at hp
  cases hp

/-! ### Copying the pages -/

/-- The pages of the areas in user space, in order, with the flags of their
areas. -/
def cloneTodo (areas : List Vma) : List (VmFlags × ℕ) :=
  areas.flatMap fun vma => (userVmaIntersection vma.start vma.stop).toList.flatMap fun r =>
    (pagesIn r.1 r.2).map fun addr => (vma.value.flags, addr)

/-- The loops of `clone_user_present_pages` as one. -/
def cloneAll (src dst : MmId) : List (VmFlags × ℕ) → Kernel → Bool × Kernel
  | [], k => (true, k)
  | x :: rest, k =>
    match k.clonePage src dst x.1 x.2 with
    | (false, k) => (false, k)
    | (true, k) => cloneAll src dst rest k

/-- A rule for the loop, with what is known before each page and after the end. -/
theorem cloneAll_rule {I : List (VmFlags × ℕ) → Kernel → Prop} {Q : Kernel → Prop}
    (hpage : ∀ x todo k, I (x :: todo) k →
      (∃ k', k.clonePage src dst x.1 x.2 = (false, k') ∧ Q k') ∨
      ∃ k', k.clonePage src dst x.1 x.2 = (true, k') ∧ I todo k')
    (hend : ∀ k, I [] k → Q k) (h : I todo k) : Q (cloneAll src dst todo k).2 := by
  induction todo generalizing k with
  | nil => exact hend k h
  | cons x rest ih =>
    rw [cloneAll]
    rcases hpage x rest k h with ⟨k', heq, hstop⟩ | ⟨k', heq, hrest⟩ <;> rw [heq]
    · exact hstop
    · exact ih hrest

theorem cloneAll_append (src dst : MmId) (l l' : List (VmFlags × ℕ)) (k : Kernel) :
    cloneAll src dst (l ++ l') k = match cloneAll src dst l k with
      | (false, k) => (false, k)
      | (true, k) => cloneAll src dst l' k := by
  induction l generalizing k with
  | nil => rfl
  | cons x rest ih =>
    simp only [cons_append, cloneAll]
    rcases k.clonePage src dst x.1 x.2 with ⟨_ | _, k1⟩
    · rfl
    · exact ih k1

theorem clonePages_eq (src dst : MmId) (flags : VmFlags) (pages : List ℕ) (k : Kernel) :
    clonePages src dst flags pages k
      = cloneAll src dst (pages.map fun addr => (flags, addr)) k := by
  induction pages generalizing k with
  | nil => rfl
  | cons addr rest ih =>
    simp only [clonePages, map_cons, cloneAll]
    rcases k.clonePage src dst flags addr with ⟨_ | _, k1⟩
    · rfl
    · exact ih k1

theorem cloneUserPresentPages_eq (src dst : MmId) (areas : List Vma) (k : Kernel) :
    cloneUserPresentPages src dst areas k = cloneAll src dst (cloneTodo areas) k := by
  induction areas generalizing k with
  | nil => rfl
  | cons vma rest ih =>
    rw [cloneUserPresentPages, cloneTodo, flatMap_cons, cloneAll_append, ← cloneTodo]
    rcases userVmaIntersection vma.start vma.stop with _ | ⟨lo, hi⟩
    · exact ih k
    simp only [Option.toList_some, flatMap_singleton, clonePages_eq]
    rcases cloneAll src dst _ k with ⟨_ | _, k1⟩
    · rfl
    · exact ih k1

theorem mem_cloneTodo {areas : List Vma} :
    x ∈ cloneTodo areas ↔ ∃ vma ∈ areas, ∃ a, UserPart vma a ∧ x.1 = vma.value.flags ∧
      x.2 ∈ pagesIn a.start a.stop := by
  obtain ⟨flags, addr⟩ := x
  simp only [cloneTodo, mem_flatMap, Option.mem_toList, mem_map, Prod.mk.injEq]
  constructor
  · rintro ⟨vma, hvma, ⟨lo, hi⟩, hpart, addr', haddr, hflags, rfl⟩
    exact ⟨vma, hvma, ⟨lo, hi, vma.value⟩, ⟨hpart, rfl⟩, hflags.symm, haddr⟩
  · rintro ⟨vma, hvma, a, ⟨hpart, -⟩, hflags, haddr⟩
    exact ⟨vma, hvma, (a.start, a.stop), hpart, addr, haddr, hflags.symm, rfl⟩

/-- The user part of an area is made of whole pages of the area. -/
theorem UserPart.spec (h : UserPart vma a) (hok : VmaOk vma) : VmaOk a ∧ a.Within vma := by
  obtain ⟨hbounds, hvalue⟩ := h
  unfold userVmaIntersection at hbounds
  dsimp only at hbounds
  split at hbounds
  · obtain ⟨start, stop, value⟩ := a
    cases hbounds
    cases hvalue
    have hlo : pageSize ∣ userSpaceStart := by decide
    have hhi : pageSize ∣ userSpaceEnd := by decide
    obtain ⟨hstart, hstop⟩ := dvd_cut hlo hhi ⟨hok.start, hok.stop⟩
    exact ⟨⟨hstart, hstop, hok.mayWrite, hok.heap, hok.file⟩, Nat.le_max_left ..,
      Nat.min_le_left ..⟩
  · cases hbounds

theorem UserPart.contains (h : UserPart vma a) (hok : VmaOk vma)
    (haddr : addr ∈ pagesIn a.start a.stop) :
    a.Contains (pageNumber addr * pageSize) ∧ vma.Contains (pageNumber addr * pageSize) := by
  obtain ⟨haok, hwithin⟩ := h.spec hok
  have hin : a.Contains (pageNumber addr * pageSize) :=
    (mem_pagesIn haok.start).1 (mem_map_of_mem haddr)
  refine ⟨hin, ?_⟩
  unfold Interval.Contains Interval.Within at *
  omega

theorem pagesIn_nodup {lo hi : ℕ} (hlo : pageSize ∣ lo) :
    ((pagesIn lo hi).map pageNumber).Nodup := by
  obtain ⟨a, rfl⟩ := hlo
  have heq : (pagesIn (pageSize * a) hi).map pageNumber
      = (List.range ((hi - pageSize * a + (pageSize - 1)) / pageSize)).map (a + ·) := by
    simp only [pagesIn, map_map]
    refine map_congr_left fun i _ => ?_
    simp only [Function.comp_apply, pageNumber, pageSize]
    omega
  rw [heq]
  exact nodup_range.map fun i j hij => Nat.add_left_cancel hij

theorem cloneTodo_nodup (hok : ∀ a ∈ tree, VmaOk a) :
    ((cloneTodo tree.toList).map fun x => pageNumber x.2).Nodup := by
  have hmap : (cloneTodo tree.toList).map (fun x => pageNumber x.2) =
      tree.toList.flatMap fun vma => (userVmaIntersection vma.start vma.stop).toList.flatMap
        fun r => (pagesIn r.1 r.2).map pageNumber := by
    simp only [cloneTodo, map_flatMap, map_map]
    rfl
  rw [hmap, nodup_flatMap]
  constructor
  · intro vma hvma
    rcases hpart : userVmaIntersection vma.start vma.stop with _ | ⟨lo, hi⟩
    · exact nodup_nil
    · have hpart : UserPart vma ⟨lo, hi, vma.value⟩ := ⟨hpart, rfl⟩
      rw [Option.toList_some, flatMap_singleton]
      exact pagesIn_nodup (hpart.spec (hok vma (mem_toList.1 hvma))).1.start
  · -- a page in two areas would lie in both
    refine (tree.toList_sorted.imp_of_mem fun {a b} ha hb hab => ?_)
    have hinside : ∀ {v : Vma} {n : ℕ}, v ∈ tree.toList →
        n ∈ (userVmaIntersection v.start v.stop).toList.flatMap
          (fun r => (pagesIn r.1 r.2).map pageNumber) → v.Contains (n * pageSize) := by
      intro v n hv hn
      obtain ⟨⟨lo, hi⟩, hpart, hn⟩ := mem_flatMap.1 hn
      obtain ⟨addr, haddr, rfl⟩ := mem_map.1 hn
      have hpart : UserPart v ⟨lo, hi, v.value⟩ := ⟨Option.mem_toList.1 hpart, rfl⟩
      exact (hpart.contains (hok v (mem_toList.1 hv)) haddr).2
    intro n hna hnb
    have hina := hinside ha hna
    have hinb := hinside hb hnb
    unfold Interval.Contains at hina hinb
    omega

/-- What the loop over the pages needs for the pages that are left. -/
structure Cloning (K : Pfn → Prop) (k : Kernel) (src dst : MmId) (todo : List (VmFlags × ℕ)) :
    Prop where
  inv : k.Inv K
  ne : src ≠ dst
  target : ∃ mm, k.mms.get? dst = some mm
  nodup : (todo.map fun x => pageNumber x.2).Nodup
  /-- The pages of the copy are those of the source that were visited. -/
  copied : ∀ m q, k.pte dst m = some q →
    (∃ p, k.pte src m = some p ∧ p.pfn = q.pfn) ∧ m ∉ todo.map fun x => pageNumber x.2
  mayWrite : ∀ x ∈ todo, x.1.write = true → x.1.mayWrite = true
  shared : ∀ x ∈ todo, x.1.shared = true → k.SharedAt dst (pageNumber x.2)
  priv : ∀ x ∈ todo, x.1.shared = false → ¬ k.SharedAt src (pageNumber x.2)
  /-- A page of a private area that is not writable is not writable itself. -/
  readOnly : ∀ x ∈ todo, ∀ p, k.pte src (pageNumber x.2) = some p → x.1.shared = false →
    x.1.write = false → p.flags.writable = false
  room : ∀ x ∈ todo, ∀ p, k.pte src (pageNumber x.2) = some p →
    (k.frames p.pfn).mapcount < 2147483647

/-- Copying one present page. The source page loses its writable bit if its area
is private and writable. -/
theorem clonePage_cases (ha : k.Accounted K) (hne : src ≠ dst) (hdst : k.mms.get? dst = some mm)
    (hp : k.pte src (pageNumber addr) = some p) (habs : k.pte dst (pageNumber addr) = none)
    (hlt : (k.frames p.pfn).mapcount < 2147483647) (flags : VmFlags) :
    (∃ k', k.clonePage src dst flags addr = (false, k') ∧ SameBooks k k') ∨
    ∃ k' P, k.clonePage src dst flags addr = (true, k') ∧ k'.Accounted K ∧ k'.fs = k.fs ∧
      k'.skeleton = k.skeleton ∧ (∀ g, k'.maps g = k.maps g + if g = p.pfn then 1 else 0) ∧
      (∀ g, g ≠ p.pfn → k'.frames g = k.frames g) ∧
      k'.pte = setEntry P dst (pageNumber addr) (some ⟨p.pfn, cowPteFlags flags⟩) ∧
      (P = k.pte ∧ cowPteFlags flags = flags.toUserPteFlags ∨
        P = setEntry k.pte src (pageNumber addr) (some ⟨p.pfn, cowPteFlags flags⟩) ∧
          cowPteFlags flags ≠ flags.toUserPteFlags) := by
  obtain ⟨k1, hsame, hmap⟩ := mapPage_absent (f := p.pfn) hdst habs (cowPteFlags flags)
  have hpte1 : k1.pte = k.pte := hsame.pte
  rcases hmap with hmap | hmap
  · refine .inl ⟨k1, ?_, hsame⟩
    simp only [clonePage, translate_eq_pte, hp, hmap]
  right
  have hdst1 : k1.mms.get? dst = some mm := by rw [hsame.mms]; exact hdst
  generalize hk2 : k1.setPte dst addr ⟨p.pfn, cowPteFlags flags⟩ = k2 at hmap
  have hpte2 : k2.pte = setEntry k.pte dst (pageNumber addr) (some ⟨p.pfn, cowPteFlags flags⟩) := by
    rw [← hk2, pte_setPte hdst1, hpte1]
  have hsk2 : k2.skeleton = k.skeleton := by
    rw [← hk2, skeleton_setPte, hsame.skeleton]
  have hframes2 : k2.frames = k.frames := by
    rw [← hk2]
    exact hsame.frames
  have hfs2 : k2.fs = k.fs := by
    rw [← hk2]
    exact hsame.fs
  have hmaps2 : ∀ g, k2.maps g = k.maps g + if g = p.pfn then 1 else 0 := by
    intro g
    have hcount := maps_setPte addr hdst1 ⟨p.pfn, cowPteFlags flags⟩ g
    rw [hk2, hpte1, habs, Option.elim_none, hsame.maps_eq, Pte.maps] at hcount
    simp only [Nat.add_zero, eq_comm (a := p.pfn)] at hcount
    exact hcount
  have hshared : ∀ k3 : Kernel, k3.frames = k2.frames → k3.maps = k2.maps →
      (k3.countShared p.pfn).Accounted K ∧
        ∀ g, g ≠ p.pfn → (k3.countShared p.pfn).frames g = k.frames g := by
    intro k3 hframes hmaps
    refine ⟨countShared_accounted ha (maps_pos hp) hlt (hframes.trans hframes2) fun g => by
      rw [hmaps]; exact hmaps2 g, fun g hg => ?_⟩
    rw [countShared, frames_modifyFrame, if_neg hg, frames_modifyFrame, if_neg hg, hframes,
      hframes2]
  by_cases hcow : cowPteFlags flags = flags.toUserPteFlags
  · obtain ⟨hacc, hframes⟩ := hshared k2 rfl rfl
    refine ⟨k2.countShared p.pfn, k.pte, ?_, hacc, hfs2, hsk2, hmaps2, hframes, hpte2,
      .inl ⟨rfl, hcow⟩⟩
    simp only [clonePage, translate_eq_pte, hp, hmap, if_pos hcow]
  · have hsrc2 : k2.pte src (pageNumber addr) = some p := by
      rw [hpte2, setEntry_of_ne fun hc => hne hc.1]
      exact hp
    obtain ⟨k3, hmap3, hmaps3, hfs3, hsk3, hframes3, hpte3⟩ :=
      mapPage_same hsrc2 (cowPteFlags flags)
    obtain ⟨hacc, hframes⟩ := hshared k3 hframes3 hmaps3
    refine ⟨k3.countShared p.pfn, _, ?_, hacc, hfs3.trans hfs2, hsk3.trans hsk2,
      fun g => (congrFun hmaps3 g).trans (hmaps2 g), hframes, ?_, .inr ⟨rfl, hcow⟩⟩
    · simp only [clonePage, translate_eq_pte, hp, hmap, if_neg hcow, hmap3]
    · refine hpte3.trans ?_
      rw [hpte2]
      -- the two entries belong to different address spaces
      funext i m
      by_cases hdst : i = dst ∧ m = pageNumber addr
      · obtain ⟨rfl, rfl⟩ := hdst
        rw [setEntry_of_ne fun hc => hne hc.1.symm, setEntry_self, setEntry_self]
      rw [setEntry_of_ne hdst]
      by_cases hsrc : i = src ∧ m = pageNumber addr
      · obtain ⟨rfl, rfl⟩ := hsrc
        rw [setEntry_self, setEntry_self]
      · rw [setEntry_of_ne hsrc, setEntry_of_ne hsrc, setEntry_of_ne hdst]

theorem cowPteFlags_private (hshared : flags.shared = false)
    (hmay : flags.write = true → flags.mayWrite = true) : (cowPteFlags flags).writable = false := by
  unfold cowPteFlags
  rw [hshared]
  cases hm : flags.mayWrite with
  | true => rfl
  | false =>
    cases hw : flags.write with
    | true => rw [hm] at hmay; cases hmay hw
    | false => exact hw

theorem private_of_cow (h : cowPteFlags flags ≠ flags.toUserPteFlags) : flags.shared = false := by
  cases hs : flags.shared with
  | false => rfl
  | true => exact absurd (by simp [cowPteFlags, hs]) h

theorem Cloning.tail (h : Cloning K k src dst (x :: todo)) : Cloning K k src dst todo where
  inv := h.inv
  ne := h.ne
  target := h.target
  nodup := (nodup_cons.1 h.nodup).2
  copied := fun m q hq => ⟨(h.copied m q hq).1, fun hm =>
    (h.copied m q hq).2 (mem_cons_of_mem _ hm)⟩
  mayWrite := fun y hy => h.mayWrite y (mem_cons_of_mem _ hy)
  shared := fun y hy => h.shared y (mem_cons_of_mem _ hy)
  priv := fun y hy => h.priv y (mem_cons_of_mem _ hy)
  readOnly := fun y hy => h.readOnly y (mem_cons_of_mem _ hy)
  room := fun y hy => h.room y (mem_cons_of_mem _ hy)

/-- One round of the loop: it stops with the books in order, or goes on. -/
theorem clonePage_step (h : Cloning K k src dst ((flags, addr) :: todo)) :
    (∃ k', k.clonePage src dst flags addr = (false, k') ∧ k'.Inv K) ∨
    ∃ k', k.clonePage src dst flags addr = (true, k') ∧ Cloning K k' src dst todo := by
  have hself : (flags, addr) ∈ (flags, addr) :: todo := mem_cons_self
  cases hp : k.pte src (pageNumber addr) with
  | none => exact .inr ⟨k, by simp only [clonePage, translate_eq_pte, hp], h.tail⟩
  | some p =>
    obtain ⟨mm, hdst⟩ := h.target
    have habs : k.pte dst (pageNumber addr) = none := by
      cases hq : k.pte dst (pageNumber addr) with
      | none => rfl
      | some q => exact absurd mem_cons_self (h.copied _ q hq).2
    rcases clonePage_cases h.inv.accounted h.ne hdst hp habs (h.room _ hself p hp) flags with
      ⟨k', heq, hsame⟩ | ⟨k', P, heq, hacc, hfs, hsk, -, hframes, hpte, hP⟩
    · exact .inl ⟨k', heq, h.inv.congr hsame.frames hsame.mms⟩
    refine .inr ⟨k', heq, ?_⟩
    have hshared : k'.SharedAt = k.SharedAt := by unfold SharedAt; rw [hsk]
    -- the source has the same frames, with other flags at this page at most
    have hPsrc : ∃ p', P src (pageNumber addr) = some p' ∧ p'.pfn = p.pfn ∧
        (flags.shared = false → p'.flags.writable = false) := by
      rcases hP with ⟨rfl, hcow⟩ | ⟨rfl, -⟩
      · refine ⟨p, hp, rfl, fun hpriv => h.readOnly _ hself p hp hpriv ?_⟩
        have hw := cowPteFlags_private hpriv (h.mayWrite _ hself)
        rw [hcow] at hw
        exact hw
      · exact ⟨_, setEntry_self .., rfl, fun hpriv =>
          cowPteFlags_private hpriv (h.mayWrite _ hself)⟩
    have hPother : ∀ i m, ¬ (i = src ∧ m = pageNumber addr) → P i m = k.pte i m := by
      intro i m him
      rcases hP with ⟨rfl, -⟩ | ⟨rfl, -⟩
      · rfl
      · exact setEntry_of_ne him
    have hPisolated : Isolated k.SharedAt P := by
      rcases hP with ⟨rfl, -⟩ | ⟨rfl, hcow⟩
      · exact h.inv.isolated
      rw [Isolated.setEntry_eq_reflagPages hp]
      refine h.inv.isolated.reflag fun hwr => ?_
      rw [cowPteFlags_private (private_of_cow hcow) (h.mayWrite _ hself)] at hwr
      cases hwr
    obtain ⟨p', hp', hpfn, hro⟩ := hPsrc
    have hne' : ∀ m, ¬ (dst = src ∧ m = pageNumber addr) := fun m hc => h.ne hc.1.symm
    -- the source page by page: this one, or one that did not change
    have hsrc : ∀ m, m ≠ pageNumber addr → k'.pte src m = k.pte src m := by
      intro m hm
      rw [hpte, setEntry_of_ne fun hc => hm hc.2, hPother src m fun hc => hm hc.2]
    have htail := h.tail
    have hfresh : pageNumber addr ∉ todo.map fun x => pageNumber x.2 :=
      (nodup_cons.1 h.nodup).1
    have hnot : ∀ x ∈ todo, pageNumber x.2 ≠ pageNumber addr := fun x hx heq =>
      hfresh (mem_map.2 ⟨x, hx, heq⟩)
    refine ⟨⟨hacc, hsk ▸ h.inv.wf, ?_⟩, h.ne, ?_, htail.nodup, fun m q hq => ?_,
      htail.mayWrite, hshared ▸ htail.shared, hshared ▸ htail.priv, fun x hx r hr => ?_,
      fun x hx r hr => ?_⟩
    · rw [hshared, hpte, ← hpfn]
      refine hPisolated.share hp' h.ne (fun m q hq hqf => ?_) (fun hs => ?_) fun hs => ?_
      · -- a copy of this frame would be a copy of this page
        rw [hPother dst m (hne' m)] at hq
        obtain ⟨⟨r, hr, hrf⟩, -⟩ := h.copied m q hq
        have hm := h.inv.isolated.once src m (pageNumber addr) r p hr hp
          (hrf.trans (hqf.trans hpfn))
        rw [hm, habs] at hq
        cases hq
      · cases hflag : flags.shared with
        | true => exact h.shared (flags, addr) hself hflag
        | false => exact absurd hs (h.priv (flags, addr) hself hflag)
      · have hpriv : flags.shared = false := by
          cases hflag : flags.shared with
          | true => exact absurd (h.shared (flags, addr) hself hflag) hs
          | false => rfl
        exact ⟨cowPteFlags_private hpriv (h.mayWrite _ hself), hro hpriv⟩
    · obtain ⟨mm', hmm', -⟩ := exists_mm_of_skeleton hdst hsk
      exact ⟨mm', hmm'⟩
    · by_cases hm : m = pageNumber addr
      · subst hm
        rw [hpte, setEntry_self] at hq
        cases hq
        refine ⟨⟨p', ?_, hpfn⟩, hfresh⟩
        rw [hpte, setEntry_of_ne fun hc => h.ne hc.1]
        exact hp'
      · rw [hpte, setEntry_of_ne fun hc => hm hc.2, hPother dst m (hne' m)] at hq
        rw [hsrc m hm]
        exact htail.copied m q hq
    · rw [hsrc _ (hnot x hx)] at hr
      exact htail.readOnly x hx r hr
    · rw [hsrc _ (hnot x hx)] at hr
      rw [hframes r.pfn fun hrf => hnot x hx (h.inv.isolated.once src _ _ r p hr hp hrf)]
      exact htail.room x hx r hr

theorem cloneAll_inv (h : Cloning K k src dst todo) : (cloneAll src dst todo k).2.Inv K :=
  cloneAll_rule (I := fun todo k => Cloning K k src dst todo) (fun _ _ _ => clonePage_step)
    (fun _ h => h.inv) h

/-! ### `mm_clone` -/

/-- The pages of the source can be shared: a page of a private area that is not
writable is not writable itself, and the frame can be counted once more. -/
def CloneSafe (k : Kernel) (src : MmId) (mm : Mm) : Prop :=
  ∀ vma ∈ mm.vmaTree, ∀ n p, vma.Contains (n * pageSize) → k.pte src n = some p →
    (vma.value.flags.shared = false → vma.value.flags.write = false → p.flags.writable = false) ∧
      (k.frames p.pfn).mapcount < 2147483647

theorem abandonClone_inv (h : k.Inv K) (id : MmId) : (k.abandonClone id).Inv K := by
  unfold abandonClone
  split
  · exact h
  · rename_i mm _
    have hfs : ({ k with fs := releaseMmVmaBackings mm k.fs } : Kernel).Inv K := h.congr rfl rfl
    exact teardownPrivateMm_inv hfs id

theorem cloning_start (h : k.Inv K) (hsrc : k.mms.get? src = some mm) (hsafe : k.CloneSafe src mm)
    (hdst : k.mms.get? dst = none) (hne : src ≠ dst) (hpages : mm'.pageTable = .empty)
    (hwf : mm'.Wf) (hparts : ∀ vma ∈ mm.vmaTree.toList, ∀ a, UserPart vma a → a ∈ mm'.vmaTree) :
    Cloning K (k.setMm dst mm') src dst (cloneTodo mm.vmaTree.toList) := by
  have hok := (h.wf_mm hsrc).areas
  have hpte : ∀ i m q, (k.setMm dst mm').pte i m = some q → i ≠ dst ∧ k.pte i m = some q := by
    intro i m q hq
    simp only [pte, setMm, OrdMap.get?_insert] at hq
    split at hq
    · rw [Option.bind_some, hpages] at hq
      cases hq
    · rename_i hi
      exact ⟨hi, hq⟩
  have hsrc' : (k.setMm dst mm').mms.get? src = some mm := by
    simp only [setMm, OrdMap.get?_insert, if_neg hne]
    exact hsrc
  -- the area of a page of the list
  have harea : ∀ x ∈ cloneTodo mm.vmaTree.toList, ∃ vma ∈ mm.vmaTree, ∃ a, UserPart vma a ∧
      x.1 = vma.value.flags ∧ a.Contains (pageNumber x.2 * pageSize) ∧
      vma.Contains (pageNumber x.2 * pageSize) ∧ a ∈ mm'.vmaTree := by
    intro x hx
    obtain ⟨vma, hvma, a, hpart, hflags, haddr⟩ := mem_cloneTodo.1 hx
    have hmem := mem_toList.1 hvma
    obtain ⟨hina, hinv⟩ := hpart.contains (hok vma hmem) haddr
    exact ⟨vma, hmem, a, hpart, hflags, hina, hinv, hparts vma hvma a hpart⟩
  refine ⟨h.addMm hdst hwf hpages, hne, ⟨mm', OrdMap.get?_insert_self ..⟩, cloneTodo_nodup hok,
    fun m q hq => absurd rfl (hpte dst m q hq).1, fun x hx hw => ?_, fun x hx hs => ?_,
    fun x hx hs hshared => ?_, fun x hx p hp hs hw => ?_, fun x hx p hp => ?_⟩
  · obtain ⟨vma, hvma, -, -, hflags, -⟩ := harea x hx
    rw [hflags] at hw ⊢
    exact (hok vma hvma).mayWrite hw
  · obtain ⟨vma, hvma, a, hpart, hflags, hina, -, ha⟩ := harea x hx
    rw [sharedAt_setMm, if_pos rfl]
    refine ⟨a, ha, hina, ?_⟩
    rw [hpart.2, ← hflags]
    exact hs
  · obtain ⟨vma, hvma, -, -, hflags, -, hinv, -⟩ := harea x hx
    rw [sharedAt_iff hsrc'] at hshared
    obtain ⟨b, hb, hinb, hbs⟩ := hshared
    rw [eq_of_contains hb hvma hinb hinv, ← hflags, hs] at hbs
    cases hbs
  · obtain ⟨vma, hvma, -, -, hflags, -, hinv, -⟩ := harea x hx
    rw [hflags] at hs hw
    exact (hsafe vma hvma _ p hinv (hpte src _ p hp).2).1 hs hw
  · obtain ⟨vma, hvma, -, -, -, -, hinv, -⟩ := harea x hx
    exact (hsafe vma hvma _ p hinv (hpte src _ p hp).2).2

/-- What a clone does: nothing, or it fills a new address space with areas and
then with pages, and gives up after either. -/
theorem mmClone_rule {P : Option MmId × Kernel → Prop} (hnone : P (none, k))
    (hclone : ∀ mm dst mm' fs inserted k1, k.mms.get? src = some mm → k.mms.get? dst = none →
      src ≠ dst → Filled mm.cloneLayout k.fs inserted mm' fs →
      inserted <+: mm.vmaTree.toList.filterMap userPart? →
      k1 = ({ k with fs := fs } : Kernel).setMm dst mm' →
      P (none, k1.abandonClone dst) ∧
        (inserted = mm.vmaTree.toList.filterMap userPart? →
          P (none, (cloneAll src dst (cloneTodo mm.vmaTree.toList) k1).2.abandonClone dst) ∧
            P (some dst, (cloneAll src dst (cloneTodo mm.vmaTree.toList) k1).2))) :
    P (k.mmClone src) := by
  unfold mmClone
  split
  · rename_i mm dst hsrc _
    split
    · exact hnone
    rename_i hnew
    have hdst : k.mms.get? dst = none := by simpa using (not_or.1 hnew).1
    have hne : src ≠ dst := by
      rintro rfl
      cases hsrc.symm.trans hdst
    obtain ⟨mm', fs, r, inserted, hvmas, hfilled, hinit, hall⟩ :=
      cloneVmas_filled dst mm.vmaTree.toList mm.cloneLayout k
    obtain ⟨hareas, hpages⟩ := hclone mm dst mm' fs inserted _ hsrc hdst hne hfilled hinit rfl
    rw [hvmas]
    cases r with
    | false => exact hareas
    | true =>
      obtain ⟨hfail, hdone⟩ := hpages (hall rfl)
      simp only [cloneUserPresentPages_eq]
      generalize cloneAll src dst (cloneTodo mm.vmaTree.toList) _ = res at hfail hdone ⊢
      obtain ⟨_ | _, k'⟩ := res
      · exact hfail
      · exact hdone
  · exact hnone

theorem Filled.wf {fs fs' : FsState} {inserted : List Vma}
    (h : Filled mm.cloneLayout fs inserted mm' fs') (hwf : mm.Wf)
    (hinit : inserted <+: mm.vmaTree.toList.filterMap userPart?) : mm'.Wf := by
  have hbrk := congrArg Mm.brk h.counters
  refine ⟨fun a ha => ?_, hbrk ▸ hwf.brk⟩
  rcases (h.exchanged.mem a).1 ha with ha | ⟨ha, -⟩
  · obtain ⟨vma, hvma, hpart⟩ := mem_filterMap.1 (List.IsPrefix.subset hinit ha)
    exact ((userPart?_eq_some.1 hpart).spec (hwf.areas vma (mem_toList.1 hvma))).1
  · exact absurd ha (not_mem_empty a)

theorem mmClone_inv (h : k.Inv K) (src : MmId)
    (hsafe : ∀ mm, k.mms.get? src = some mm → k.CloneSafe src mm) : (k.mmClone src).2.Inv K := by
  refine mmClone_rule (P := fun r => r.2.Inv K) h ?_
  rintro mm dst mm' fs inserted _ hsrc hdst hne hfilled hinit rfl
  have hpages := congrArg Mm.pageTable hfilled.counters
  have hwf := hfilled.wf (h.wf_mm hsrc) hinit
  have hk : ({ k with fs := fs } : Kernel).Inv K := h.congr rfl rfl
  refine ⟨abandonClone_inv (hk.addMm hdst hwf hpages) dst, fun hall => ?_⟩
  have hparts : ∀ vma ∈ mm.vmaTree.toList, ∀ a, UserPart vma a → a ∈ mm'.vmaTree := by
    intro vma hvma a ha
    refine (hfilled.exchanged.mem a).2 (.inl ?_)
    rw [hall]
    exact mem_filterMap.2 ⟨vma, hvma, userPart?_eq_some.2 ha⟩
  have hdone := cloneAll_inv
    (cloning_start hk (k := { k with fs := fs }) hsrc (hsafe mm hsrc) hdst hne hpages hwf hparts)
  exact ⟨abandonClone_inv hdone dst, hdone⟩

end Kernel

end JanuaryOs.Virt

import JanuaryOs.Virt.Fault
import JanuaryOs.Virt.Clone

/-!
# The books of the user frames

A frame that the mappings use is determined by how often it is mapped: its
descriptor is `Frame.mapped n` for `n` entries over all address spaces.
`Accounted K k` says so for every frame outside a set `K` of frames that the
kernel holds for itself and no entry maps. The calls keep it; in the middle of
one, a single frame may be in the hands of the caller.

The other half of the module describes each primitive by what it does to the
entries (`Kernel.pte`), while `Kernel.skeleton`, which is everything of an
address space but its page table, stays as it is.
-/

namespace JanuaryOs.Virt

open Lib OrdMap List Function

/-! ### Entries and counts -/

/-- One if the entry maps the frame. -/
def Pte.maps (pte : Pte) (f : Pfn) : ℕ := if pte.pfn = f then 1 else 0

/-- How many pages of an address space are mapped to the frame. -/
def Mm.maps (mm : Mm) (f : Pfn) : ℕ := mm.pageTable.sum fun _ pte => pte.maps f

/-- An address space without its page table. -/
def Mm.skeleton (mm : Mm) : Mm := { mm with pageTable := .empty }

/-- One entry of a family of page tables changed. -/
def setEntry (P : MmId → ℕ → Option Pte) (id : MmId) (n : ℕ) (v : Option Pte) :
    MmId → ℕ → Option Pte :=
  fun i m => if i = id ∧ m = n then v else P i m

@[simp] theorem setEntry_self (P : MmId → ℕ → Option Pte) (id : MmId) (n : ℕ) (v : Option Pte) :
    setEntry P id n v id n = v := if_pos ⟨rfl, rfl⟩

variable {P : MmId → ℕ → Option Pte} {n : ℕ}

theorem setEntry_of_ne {id i : MmId} {m : ℕ} {v : Option Pte} (h : ¬ (i = id ∧ m = n)) :
    setEntry P id n v i m = P i m := if_neg h

theorem setEntry_cases {id i : MmId} {m : ℕ} {v : Option Pte} {q : Pte}
    (h : setEntry P id n v i m = some q) : (i = id ∧ m = n ∧ v = some q) ∨ P i m = some q := by
  unfold setEntry at h
  split at h
  · rename_i him
    exact .inl ⟨him.1, him.2, h⟩
  · exact .inr h

variable {k1 : Kernel}

namespace Kernel

/-- The entry of a page number. -/
def pte (k : Kernel) (id : MmId) (n : ℕ) : Option Pte :=
  (k.mms.get? id).bind fun mm => mm.pageTable.get? n

/-- How many pages of all address spaces are mapped to the frame. -/
def maps (k : Kernel) (f : Pfn) : ℕ := k.mms.sum fun _ mm => mm.maps f

/-- The address spaces without their page tables. -/
def skeleton (k : Kernel) (id : MmId) : Option Mm := (k.mms.get? id).map Mm.skeleton

variable {k k' : Kernel} {id : MmId} {mm : Mm} {addr : ℕ} {f : Pfn} {p : Pte}

theorem translate_eq_pte : k.translate id addr = k.pte id (pageNumber addr) := rfl

theorem exists_mm_of_skeleton (hid : k.mms.get? id = some mm) (h : k1.skeleton = k.skeleton) :
    ∃ mm1, k1.mms.get? id = some mm1 ∧ mm1.skeleton = mm.skeleton := by
  have hid1 : k1.skeleton id = some mm.skeleton := by rw [h, skeleton, hid]; rfl
  exact Option.map_eq_some_iff.1 hid1

theorem maps_pos (h : k.pte id n = some p) : 0 < k.maps p.pfn := by
  obtain ⟨mm, hmm, hp⟩ := Option.bind_eq_some_iff.1 h
  refine sum_pos_iff.2 ⟨id, mm, hmm, sum_pos_iff.2 ⟨n, p, hp, ?_⟩⟩
  simp [Pte.maps]

theorem pfn_ne_of_maps_eq_zero (hf : k.maps f = 0) (h : k.pte id n = some p) : p.pfn ≠ f := by
  rintro rfl
  exact (maps_pos h).ne' hf

theorem eq_of_maps_eq_one {q : Pte} {id' : MmId} {m : ℕ} (hf : k.maps p.pfn = 1)
    (hp : k.pte id n = some p) (hq : k.pte id' m = some q) (hpfn : q.pfn = p.pfn) : id' = id := by
  obtain ⟨mm, hmm, hp⟩ := Option.bind_eq_some_iff.1 hp
  obtain ⟨mm', hmm', hq⟩ := Option.bind_eq_some_iff.1 hq
  by_contra hne
  have hone : 1 ≤ mm.maps p.pfn := sum_pos_iff.2 ⟨n, p, hp, by simp [Pte.maps]⟩
  have hother : 1 ≤ mm'.maps p.pfn := sum_pos_iff.2 ⟨m, q, hq, by simp [Pte.maps, hpfn]⟩
  have hle := add_le_sum (f := fun _ (mm : Mm) => mm.maps p.pfn) hmm' hmm hne
  unfold maps at hf
  omega

/-! ### Changing an entry -/

theorem pte_setPte (hid : k.mms.get? id = some mm) (pte : Pte) :
    (k.setPte id addr pte).pte = setEntry k.pte id (pageNumber addr) (some pte) := by
  funext i m
  simp only [Kernel.pte, setPte, setEntry, get?_modify]
  by_cases hi : i = id
  · subst hi
    simp only [if_true, hid, Option.map_some, Option.bind_some, get?_insert, true_and]
  · simp [hi]

theorem maps_setPte (addr : ℕ) (hid : k.mms.get? id = some mm) (pte : Pte) (f : Pfn) :
    (k.setPte id addr pte).maps f + ((k.pte id (pageNumber addr)).elim 0 fun p => p.maps f)
      = k.maps f + pte.maps f := by
  have houter := k.mms.sum_modify (fun _ mm => mm.maps f) id fun mm =>
    { mm with pageTable := mm.pageTable.insert (pageNumber addr) pte }
  have hinner := mm.pageTable.sum_insert (fun _ pte => pte.maps f) (pageNumber addr) pte
  simp only [hid, Option.elim_some, Mm.maps] at houter
  simp only [Kernel.pte, hid, Option.bind_some, maps, setPte, Mm.maps]
  omega

theorem skeleton_modify (k : Kernel) (id : MmId) {g : Mm → Mm}
    (hg : ∀ mm, (g mm).skeleton = mm.skeleton) :
    ({ k with mms := k.mms.modify id g } : Kernel).skeleton = k.skeleton := by
  funext i
  simp only [skeleton, get?_modify]
  split
  · rename_i hi
    rw [hi, Option.map_map]
    exact congrArg (Option.map · _) (funext hg)
  · rfl

theorem skeleton_setPte (k : Kernel) (id : MmId) (addr : ℕ) (pte : Pte) :
    (k.setPte id addr pte).skeleton = k.skeleton := skeleton_modify k id fun _ => rfl

theorem pte_unmapPage (k : Kernel) (id : MmId) (addr : ℕ) :
    (k.unmapPage id addr).pte = setEntry k.pte id (pageNumber addr) none := by
  funext i m
  simp only [Kernel.pte, unmapPage, setEntry, get?_modify]
  by_cases hi : i = id
  · subst hi
    cases hid : k.mms.get? i with
    | none => simp
    | some mm => simp [get?_erase]
  · simp [hi]

theorem maps_unmapPage (k : Kernel) (id : MmId) (addr : ℕ) (f : Pfn) :
    (k.unmapPage id addr).maps f + ((k.pte id (pageNumber addr)).elim 0 fun p => p.maps f)
      = k.maps f := by
  have houter := k.mms.sum_modify (fun _ mm => mm.maps f) id fun mm =>
    { mm with pageTable := mm.pageTable.erase (pageNumber addr) }
  cases hid : k.mms.get? id with
  | none =>
    simp only [hid, Option.elim_none, Nat.add_zero] at houter
    simpa [Kernel.pte, hid, maps, unmapPage] using houter
  | some mm =>
    have hinner := mm.pageTable.sum_erase (fun _ pte => pte.maps f) (pageNumber addr)
    simp only [hid, Option.elim_some, Mm.maps] at houter
    simp only [Kernel.pte, hid, Option.bind_some, maps, unmapPage, Mm.maps]
    omega

theorem skeleton_unmapPage (k : Kernel) (id : MmId) (addr : ℕ) :
    (k.unmapPage id addr).skeleton = k.skeleton := skeleton_modify k id fun _ => rfl

theorem space_eq_iff : k'.mms.get? id = k.mms.get? id ↔
    k'.skeleton id = k.skeleton id ∧ ∀ n, k'.pte id n = k.pte id n := by
  constructor
  · intro h
    exact ⟨by rw [skeleton, h, skeleton], fun n => by rw [pte, h, pte]⟩
  · rintro ⟨hsk, hpte⟩
    unfold skeleton at hsk
    unfold pte at hpte
    cases h : k.mms.get? id with
    | none =>
      rw [h] at hsk
      exact Option.map_eq_none_iff.1 hsk
    | some mm =>
      rw [h] at hsk
      obtain ⟨mm', h', hmm⟩ := Option.map_eq_some_iff.1 hsk
      rw [h, h'] at hpte
      have hpages : mm'.pageTable = mm.pageTable := ext_get? hpte
      rw [h']
      cases mm
      cases mm'
      simp only [Mm.skeleton, Mm.mk.injEq] at hmm hpages ⊢
      simp only [Option.some.injEq, Mm.mk.injEq]
      tauto

end Kernel

/-! ### The books -/

/-- The descriptor of a frame that is mapped `n` times. -/
def Frame.mapped (n : ℕ) : Frame := ⟨n, n - 1, false⟩

namespace Frame

theorem mapped_free : (mapped n).Free ↔ n = 0 := by simp [mapped, Free]

theorem decMapcount_mapped (n : ℕ) :
    (mapped (n + 1)).decMapcount = ⟨n + 1, (n : ℤ) - 1, false⟩ := by
  have hge : ¬ ((n : ℤ) ≤ -1) := by omega
  simp [mapped, decMapcount, hge]

theorem releaseUserMapped_mapped (n : ℕ) : (mapped (n + 1)).releaseUserMapped = mapped n := by
  simp only [releaseUserMapped, decMapcount_mapped]
  rfl

theorem releaseUserMapped_refs {f : Frame} (h : f.reserved = false) :
    f.releaseUserMapped.reserved = false ∧ f.releaseUserMapped.refcount = f.refcount - 1 := by
  unfold releaseUserMapped decMapcount
  split <;> simp [put, h]

theorem refcount_iterate_releaseUserMapped {f : Frame} (h : f.reserved = false) (n : ℕ) :
    (releaseUserMapped^[n] f).refcount = f.refcount - n := by
  induction n generalizing f with
  | zero => rfl
  | succ n ih =>
    obtain ⟨hres, hcount⟩ := releaseUserMapped_refs h
    rw [iterate_succ_apply, ih hres, hcount, Nat.sub_sub, Nat.add_comm]

theorem iterate_releaseUserMapped (n c : ℕ) :
    releaseUserMapped^[c] (mapped (n + c)) = mapped n := by
  induction c with
  | zero => rfl
  | succ c ih =>
    rw [iterate_succ_apply, ← Nat.add_assoc, releaseUserMapped_mapped, ih]

theorem releaseReplaced_mapped (n : ℕ) : (mapped (n + 1)).releaseReplaced = mapped n := by
  have hge : ¬ ((mapped (n + 1)).mapcount < 0) := by simp [mapped]
  rw [releaseReplaced, if_neg hge, decMapcount_mapped]
  rfl

theorem get_incMapcount_mapped (h : (mapped n).mapcount < 2147483647) :
    (mapped n).get.incMapcount = mapped (n + 1) := by
  have hlt : (n : ℤ) - 1 < 2147483647 := h
  have hne : ¬ ((n : ℤ) - 1 = 2147483647) := by omega
  have hmod : (n + 1) % 2 ^ 32 = n + 1 := Nat.mod_eq_of_lt (by omega)
  simp only [mapped, get, incMapcount, u32Add, hne, if_false, hmod, Frame.mk.injEq, true_and,
    and_true]
  omega

end Frame

namespace Kernel

variable {K : Pfn → Prop} {k k' : Kernel} {id : MmId} {mm : Mm} {addr : ℕ} {f g : Pfn}
  {flags : PteFlags} {old : Pte}

/-- The descriptor of a frame is what its mappings say: a frame of the kernel is
neither mapped nor free, any other frame is counted exactly. -/
structure FrameOk (K : Pfn → Prop) (k : Kernel) (f : Pfn) : Prop where
  kernel : K f → k.maps f = 0 ∧ ¬ (k.frames f).Free
  user : ¬ K f → k.frames f = .mapped (k.maps f)

/-- Every frame is in order. -/
def Accounted (K : Pfn → Prop) (k : Kernel) : Prop := ∀ f, k.FrameOk K f

/-- Every frame is in order but one that was just allocated and is not mapped
yet. -/
structure InHand (K : Pfn → Prop) (k : Kernel) (f : Pfn) : Prop where
  user : ¬ K f
  frame : k.frames f = ⟨1, -1, false⟩
  unmapped : k.maps f = 0
  others : ∀ g, g ≠ f → k.FrameOk K g

theorem FrameOk.congr (h : k.FrameOk K f) (hframe : k'.frames f = k.frames f)
    (hmaps : k'.maps f = k.maps f) : k'.FrameOk K f :=
  ⟨fun hK => by rw [hmaps, hframe]; exact h.kernel hK,
    fun hK => by rw [hmaps, hframe]; exact h.user hK⟩

theorem Accounted.congr (h : k.Accounted K) (hframes : k'.frames = k.frames)
    (hmaps : k'.maps = k.maps) : k'.Accounted K :=
  fun f => (h f).congr (congrFun hframes f) (congrFun hmaps f)

theorem FrameOk.user_of_maps (h : k.FrameOk K f) (hpos : 0 < k.maps f) : ¬ K f :=
  fun hK => hpos.ne' (h.kernel hK).1

/-- A frame is released as often as mappings of it go. -/
theorem FrameOk.release {n : ℕ} (h : k.FrameOk K f)
    (hframe : k'.frames f = Frame.releaseUserMapped^[n] (k.frames f))
    (hmaps : k'.maps f + n = k.maps f) : k'.FrameOk K f := by
  constructor
  · intro hK
    obtain ⟨hzero, hused⟩ := h.kernel hK
    obtain ⟨hleft, rfl⟩ : k'.maps f = 0 ∧ n = 0 := by omega
    exact ⟨hleft, by rw [hframe]; exact hused⟩
  · intro hK
    rw [hframe, h.user hK, ← hmaps, Frame.iterate_releaseUserMapped]

theorem FrameOk.of_free (h : k.FrameOk K f) (hfree : (k.frames f).Free) :
    ¬ K f ∧ k.frames f = .mapped 0 ∧ k.maps f = 0 := by
  have hK : ¬ K f := fun hK => (h.kernel hK).2 hfree
  have hframe := h.user hK
  rw [hframe] at hfree
  have hmaps := Frame.mapped_free.1 hfree
  exact ⟨hK, hmaps ▸ hframe, hmaps⟩

@[simp] theorem frames_setPte (k : Kernel) (id : MmId) (addr : ℕ) (pte : Pte) :
    (k.setPte id addr pte).frames = k.frames := rfl

@[simp] theorem frames_unmapPage (k : Kernel) (id : MmId) (addr : ℕ) :
    (k.unmapPage id addr).frames = k.frames := rfl

theorem frames_modifyFrame (k : Kernel) (f g : Pfn) (h : Frame → Frame) :
    (k.modifyFrame f h).frames g = if g = f then h (k.frames f) else k.frames g := by
  simp [modifyFrame, update_apply]

/-! ### Allocating -/

/-- What two states have in common when they differ in the answers and the
contents of memory only. -/
structure SameBooks (k k' : Kernel) : Prop where
  frames : k'.frames = k.frames
  mms : k'.mms = k.mms
  fs : k'.fs = k.fs

theorem SameBooks.maps_eq (h : SameBooks k k') : k'.maps = k.maps := by
  unfold Kernel.maps
  rw [h.mms]

theorem SameBooks.accounted (h : SameBooks k k') (ha : k.Accounted K) : k'.Accounted K :=
  ha.congr h.frames h.maps_eq

theorem Accounted.free_mapcount (h : k.Accounted K) (f : Pfn) (hfree : (k.frames f).Free) :
    (k.frames f).mapcount = -1 := by
  rw [((h f).of_free hfree).2.1]
  rfl

theorem allocPage_spec {r : Option Pfn} (ha : k.Accounted K) (h : k.allocPage = (r, k')) :
    (r = none ∧ SameBooks k k') ∨
      ∃ f, r = some f ∧ k'.InHand K f ∧ k.maps f = 0 ∧ k'.mms = k.mms ∧ k'.fs = k.fs := by
  unfold allocPage at h
  split at h
  · cases h
    exact .inl ⟨rfl, rfl, rfl, rfl⟩
  split at h
  · cases h
    exact .inl ⟨rfl, rfl, rfl, rfl⟩
  rename_i rest _ f _
  simp only at h
  split at h
  · rename_i hfree
    cases h
    obtain ⟨hK, hframe, hmaps⟩ := (ha f).of_free hfree
    refine .inr ⟨f, rfl, ⟨hK, ?_, hmaps, fun g hg => (ha g).congr ?_ rfl⟩, hmaps, rfl, rfl⟩
    · rw [frames_modifyFrame, if_pos rfl, hframe]
      rfl
    · rw [frames_modifyFrame, if_neg hg]
  · cases h
    exact .inl ⟨rfl, rfl, rfl, rfl⟩

theorem InHand.freePage (h : k.InHand K f) : (k.freePage f).Accounted K := by
  intro g
  by_cases hg : g = f
  · subst hg
    refine ⟨fun hK => absurd hK h.user, fun _ => ?_⟩
    have hmaps : (k.freePage g).maps g = 0 := h.unmapped
    rw [hmaps, Kernel.freePage, frames_modifyFrame, if_pos rfl, h.frame]
    rfl
  · refine (h.others g hg).congr ?_ rfl
    rw [Kernel.freePage, frames_modifyFrame, if_neg hg]

/-! ### Mapping -/

/-- `map_page` on a page that is not present: a table may be missing. -/
theorem mapPage_absent (hid : k.mms.get? id = some mm) (habs : k.pte id (pageNumber addr) = none)
    (flags : PteFlags) :
    ∃ k1, SameBooks k k1 ∧
      (k.mapPage id addr f flags = (false, k1) ∨
        k.mapPage id addr f flags = (true, k1.setPte id addr ⟨f, flags⟩)) := by
  have habs : mm.translate addr = none := by
    rw [pte, hid] at habs
    exact habs
  unfold mapPage reachLeafTable
  simp only [hid, habs]
  by_cases hsib : mm.pageTable.entries.any
      fun e => e.1 / tableEntries == pageNumber addr / tableEntries
  · simp only [hsib, if_true]
    exact ⟨k, ⟨rfl, rfl, rfl⟩, .inr rfl⟩
  simp only [hsib, if_false, Bool.false_eq_true]
  cases htables : k.env.tables with
  | nil => exact ⟨k, ⟨rfl, rfl, rfl⟩, .inr rfl⟩
  | cons answer rest =>
    refine ⟨{ k with env := { k.env with tables := rest } }, ⟨rfl, rfl, rfl⟩, ?_⟩
    cases answer
    · exact .inl rfl
    · exact .inr rfl

theorem mapPage_present (hold : k.pte id (pageNumber addr) = some old) (flags : PteFlags) :
    k.mapPage id addr f flags = (true, ((if old.pfn = f then k
      else k.modifyFrame old.pfn .releaseReplaced).setPte id addr ⟨f, flags⟩)) := by
  obtain ⟨mm, hid, hpte⟩ := Option.bind_eq_some_iff.1 hold
  have hpte : mm.translate addr = some old := hpte
  unfold mapPage
  simp only [hid, hpte]

theorem mapPage_same (hold : k.pte id (pageNumber addr) = some old) (flags : PteFlags) :
    ∃ k', k.mapPage id addr old.pfn flags = (true, k') ∧ k'.maps = k.maps ∧ k'.fs = k.fs ∧
      k'.skeleton = k.skeleton ∧ k'.frames = k.frames ∧
      k'.pte = setEntry k.pte id (pageNumber addr) (some ⟨old.pfn, flags⟩) := by
  obtain ⟨mm, hid, -⟩ := Option.bind_eq_some_iff.1 hold
  refine ⟨k.setPte id addr ⟨old.pfn, flags⟩, ?_, ?_, rfl, skeleton_setPte _ _ _ _, rfl,
    pte_setPte hid _⟩
  · rw [mapPage_present hold, if_pos rfl]
  · funext x
    have hmaps := maps_setPte addr hid ⟨old.pfn, flags⟩ x
    rw [hold, Option.elim_some] at hmaps
    exact Nat.add_right_cancel hmaps

/-- Setting an entry to a frame in hand, with the replaced page released, and
counting the new mapping puts all frames in order. -/
theorem InHand.install (h : k.InHand K f) (hid : k.mms.get? id = some mm)
    (hmms : k1.mms = (k.setPte id addr ⟨f, flags⟩).mms) (hself : k1.frames f = k.frames f)
    (hrest : ∀ g, g ≠ f → k1.frames g =
      if (k.pte id (pageNumber addr)).map Pte.pfn = some g then (k.frames g).releaseReplaced
      else k.frames g) : (k1.modifyFrame f .incMapcount).Accounted K := by
  intro g
  have hmaps : (k1.modifyFrame f .incMapcount).maps g = (k.setPte id addr ⟨f, flags⟩).maps g := by
    unfold maps modifyFrame
    rw [hmms]
  have hcount := maps_setPte addr hid ⟨f, flags⟩ g
  by_cases hg : g = f
  · subst hg
    refine ⟨fun hK => absurd hK h.user, fun _ => ?_⟩
    have hold : ((k.pte id (pageNumber addr)).elim 0 fun p => p.maps g) = 0 := by
      cases hp : k.pte id (pageNumber addr) with
      | none => rfl
      | some p => exact if_neg (pfn_ne_of_maps_eq_zero h.unmapped hp)
    have hnew : Pte.maps ⟨g, flags⟩ g = 1 := if_pos rfl
    have hone : (k.setPte id addr ⟨g, flags⟩).maps g = 1 := by
      have := h.unmapped
      omega
    rw [hmaps, hone, frames_modifyFrame, if_pos rfl, hself, h.frame]
    rfl
  · have hok := h.others g hg
    have hnew : Pte.maps ⟨f, flags⟩ g = 0 := if_neg (Ne.symm hg)
    have hframe : (k1.modifyFrame f .incMapcount).frames g = k1.frames g := by
      rw [frames_modifyFrame, if_neg hg]
    by_cases hrepl : (k.pte id (pageNumber addr)).map Pte.pfn = some g
    · -- the replaced page: one mapping less, in the count and in the descriptor
      obtain ⟨p, hp, rfl⟩ := Option.map_eq_some_iff.1 hrepl
      have hpos := maps_pos hp
      have hone : Pte.maps p p.pfn = 1 := if_pos rfl
      rw [hp, Option.elim_some, hone, hnew] at hcount
      have hcount : k.maps p.pfn = (k.setPte id addr ⟨f, flags⟩).maps p.pfn + 1 := hcount.symm
      refine ⟨fun hK => absurd hK (hok.user_of_maps hpos), fun hK => ?_⟩
      rw [hmaps, hframe, hrest _ hg, if_pos hrepl, hok.user hK, hcount,
        Frame.releaseReplaced_mapped]
    · have hold : ((k.pte id (pageNumber addr)).elim 0 fun p => p.maps g) = 0 := by
        cases hp : k.pte id (pageNumber addr) with
        | none => rfl
        | some p =>
          rw [hp] at hrepl
          exact if_neg fun hpfn => hrepl (congrArg some hpfn)
      refine hok.congr (by rw [hframe, hrest g hg, if_neg hrepl]) ?_
      rw [hmaps]
      omega

theorem SameBooks.inHand (h : SameBooks k k') (ha : k.InHand K f) : k'.InHand K f :=
  ⟨ha.user, h.frames ▸ ha.frame, h.maps_eq ▸ ha.unmapped,
    fun g hg => (ha.others g hg).congr (congrFun h.frames g) (congrFun h.maps_eq g)⟩

theorem SameBooks.pte (h : SameBooks k k') : k'.pte = k.pte := by
  unfold Kernel.pte
  rw [h.mms]

theorem SameBooks.skeleton (h : SameBooks k k') : k'.skeleton = k.skeleton := by
  unfold Kernel.skeleton
  rw [h.mms]

/-- Mapping a frame in hand: it ends up mapped and counted, or given back. -/
theorem mapNewPage_spec {r : FaultResult} (h : k.InHand K f) (hid : k.mms.get? id = some mm)
    (hs : k.mapNewPage id addr f flags = (r, k')) :
    k'.Accounted K ∧ k'.fs = k.fs ∧ k'.skeleton = k.skeleton ∧
      (k'.pte = k.pte ∧ r = .oom ∨
        k'.pte = setEntry k.pte id (pageNumber addr) (some ⟨f, flags⟩) ∧ r = .retry) := by
  unfold mapNewPage at hs
  cases hold : k.pte id (pageNumber addr) with
  | none =>
    obtain ⟨k1, hsame, hmap | hmap⟩ := mapPage_absent (f := f) hid hold flags
    · rw [hmap] at hs
      cases hs
      exact ⟨(hsame.inHand h).freePage, hsame.fs, hsame.skeleton, .inl ⟨hsame.pte, rfl⟩⟩
    rw [hmap] at hs
    cases hs
    have hset : (k1.setPte id addr ⟨f, flags⟩).mms = (k.setPte id addr ⟨f, flags⟩).mms := by
      simp only [setPte, hsame.mms]
    refine ⟨h.install hid hset ?_ fun g hg => ?_, hsame.fs, ?_, .inr ⟨?_, rfl⟩⟩
    · rw [frames_setPte, hsame.frames]
    · rw [frames_setPte, hsame.frames, hold]
      rfl
    · exact (skeleton_setPte _ _ _ _).trans hsame.skeleton
    · exact (pte_setPte (hsame.mms ▸ hid) _).trans (by rw [hsame.pte])
  | some old =>
    have hne : ¬ old.pfn = f := pfn_ne_of_maps_eq_zero h.unmapped hold
    rw [mapPage_present hold, if_neg hne] at hs
    cases hs
    refine ⟨h.install hid rfl ?_ fun g hg => ?_, rfl, skeleton_setPte _ _ _ _,
      .inr ⟨pte_setPte hid _, rfl⟩⟩
    · rw [frames_setPte, frames_modifyFrame, if_neg (Ne.symm hne)]
    · rw [frames_setPte, frames_modifyFrame, hold]
      by_cases hg' : g = old.pfn
      · subst hg'
        simp
      · have hg'' : ¬ old.pfn = g := fun h => hg' h.symm
        simp [hg', hg'']

/-! ### Unmapping and releasing -/

theorem setEntry_none_of_none (h : P id n = none) : setEntry P id n none = P := by
  funext i m
  by_cases him : i = id ∧ m = n
  · obtain ⟨rfl, rfl⟩ := him
    rw [setEntry_self, h]
  · rw [setEntry_of_ne him]

theorem unmapAndReleasePage_eq (k : Kernel) (id : MmId) (addr : ℕ) :
    (k.unmapAndReleasePage id addr).fs = k.fs ∧
      (k.unmapAndReleasePage id addr).skeleton = k.skeleton ∧
      (k.unmapAndReleasePage id addr).pte = setEntry k.pte id (pageNumber addr) none := by
  unfold unmapAndReleasePage
  rw [translate_eq_pte]
  cases hp : k.pte id (pageNumber addr) with
  | none => exact ⟨rfl, rfl, (setEntry_none_of_none hp).symm⟩
  | some p => exact ⟨rfl, skeleton_unmapPage _ _ _, pte_unmapPage _ _ _⟩

theorem foldl_unmapAndReleasePage_eq (k : Kernel) (id : MmId) (pages : List ℕ) :
    let k' := pages.foldl (fun k addr => k.unmapAndReleasePage id addr) k
    k'.fs = k.fs ∧ k'.skeleton = k.skeleton ∧
      ∀ i m, k'.pte i m = if i = id ∧ m ∈ pages.map pageNumber then none else k.pte i m := by
  induction pages generalizing k with
  | nil => exact ⟨rfl, rfl, fun i m => by simp⟩
  | cons addr rest ih =>
    obtain ⟨hfs1, hsk1, hpte1⟩ := unmapAndReleasePage_eq k id addr
    obtain ⟨hfs2, hsk2, hpte2⟩ := ih (k.unmapAndReleasePage id addr)
    refine ⟨hfs2.trans hfs1, hsk2.trans hsk1, fun i m => ?_⟩
    rw [foldl_cons, hpte2, hpte1]
    simp only [setEntry, map_cons, mem_cons]
    by_cases hi : i = id
    · by_cases hm : m = pageNumber addr <;> simp [hi, hm]
    · simp [hi]

theorem unmapAndReleasePage_frames (k : Kernel) (id : MmId) (addr f : ℕ) :
    ∃ n, (k.unmapAndReleasePage id addr).frames f = Frame.releaseUserMapped^[n] (k.frames f) ∧
      (k.unmapAndReleasePage id addr).maps f + n = k.maps f := by
  unfold unmapAndReleasePage
  rw [translate_eq_pte]
  cases hp : k.pte id (pageNumber addr) with
  | none => exact ⟨0, rfl, rfl⟩
  | some p =>
    have hcount := k.maps_unmapPage id addr f
    rw [hp, Option.elim_some] at hcount
    refine ⟨p.maps f, ?_, hcount⟩
    rw [frames_modifyFrame, frames_unmapPage, Pte.maps]
    by_cases hf : f = p.pfn
    · rw [if_pos hf, if_pos hf.symm, hf]
      rfl
    · rw [if_neg hf, if_neg (Ne.symm hf)]
      rfl

/-- Pages that go are released once for each mapping. -/
theorem foldl_unmapAndReleasePage_frames (k : Kernel) (id : MmId) (pages : List ℕ) (f : ℕ) :
    let k' := pages.foldl (fun k addr => k.unmapAndReleasePage id addr) k
    ∃ n, k'.frames f = Frame.releaseUserMapped^[n] (k.frames f) ∧ k'.maps f + n = k.maps f := by
  induction pages generalizing k with
  | nil => exact ⟨0, rfl, rfl⟩
  | cons addr rest ih =>
    obtain ⟨n, hframe, hmaps⟩ := k.unmapAndReleasePage_frames id addr f
    obtain ⟨n', hframe', hmaps'⟩ := ih (k.unmapAndReleasePage id addr)
    refine ⟨n' + n, ?_, (Nat.add_assoc ..).symm.trans ((congrArg (· + n) hmaps').trans hmaps)⟩
    rw [foldl_cons, hframe', hframe, iterate_add_apply]

theorem foldl_unmapAndReleasePage_accounted (ha : k.Accounted K) (id : MmId) (pages : List ℕ) :
    (pages.foldl (fun k addr => k.unmapAndReleasePage id addr) k).Accounted K := by
  intro f
  obtain ⟨n, hframe, hmaps⟩ := k.foldl_unmapAndReleasePage_frames id pages f
  exact (ha f).release hframe hmaps

theorem foldl_unmapAndReleasePage_refs (id : MmId) (pages : List ℕ)
    (hres : (k.frames f).reserved = false) (hle : k.maps f ≤ (k.frames f).refcount) :
    let k' := pages.foldl (fun k addr => k.unmapAndReleasePage id addr) k
    (k'.frames f).refcount + k.maps f = (k.frames f).refcount + k'.maps f := by
  obtain ⟨n, hframe, hmaps⟩ := k.foldl_unmapAndReleasePage_frames id pages f
  simp only [hframe, Frame.refcount_iterate_releaseUserMapped hres]
  omega

/-! ### Sharing -/

/-- Counting a mapping that has been added keeps the books. -/
theorem countShared_accounted (ha : k.Accounted K) (hpos : 0 < k.maps f)
    (hlt : (k.frames f).mapcount < 2147483647) (hframes : k1.frames = k.frames)
    (hmaps : ∀ g, k1.maps g = k.maps g + if g = f then 1 else 0) :
    (k1.countShared f).Accounted K := by
  intro g
  have hshared : (k1.countShared f).maps g = k1.maps g := rfl
  by_cases hg : g = f
  · subst hg
    have hK := (ha g).user_of_maps hpos
    have hframe := (ha g).user hK
    refine ⟨fun hK' => absurd hK' hK, fun _ => ?_⟩
    rw [hframe] at hlt
    rw [hshared, hmaps, if_pos rfl, countShared, frames_modifyFrame, if_pos rfl,
      frames_modifyFrame, if_pos rfl, hframes, hframe, Frame.get_incMapcount_mapped hlt]
  · refine (ha g).congr ?_ (by rw [hshared, hmaps, if_neg hg, Nat.add_zero])
    rw [countShared, frames_modifyFrame, if_neg hg, frames_modifyFrame, if_neg hg, hframes]

/-! ### Dropping an address space -/

theorem foldl_releaseUserMapped (l : List (ℕ × Pte)) (k : Kernel) :
    let k' := l.foldl (fun k e => k.modifyFrame e.2.pfn .releaseUserMapped) k
    k'.mms = k.mms ∧ k'.fs = k.fs ∧ ∀ g, k'.frames g =
      Frame.releaseUserMapped^[sumKV (fun _ pte => pte.maps g) l] (k.frames g) := by
  induction l generalizing k with
  | nil => exact ⟨rfl, rfl, fun _ => rfl⟩
  | cons e l ih =>
    obtain ⟨hmms, hfs, hframes⟩ := ih (k.modifyFrame e.2.pfn .releaseUserMapped)
    refine ⟨hmms, hfs, fun g => ?_⟩
    rw [foldl_cons, hframes, frames_modifyFrame]
    simp only [sumKV, map_cons, sum_cons, Pte.maps]
    by_cases hge : g = e.2.pfn
    · rw [if_pos hge, if_pos hge.symm, Nat.add_comm, iterate_succ_apply, hge]
    · rw [if_neg hge, if_neg (Ne.symm hge), Nat.zero_add]

/-- Tearing an address space down releases each frame as often as the address
space has it. -/
theorem teardownPrivateMm_eq (k : Kernel) (id : MmId) :
    (k.teardownPrivateMm id).fs = k.fs ∧ (k.teardownPrivateMm id).mms = k.mms.erase id ∧
      ∀ g, (k.teardownPrivateMm id).frames g =
        Frame.releaseUserMapped^[(k.mms.get? id).elim 0 fun mm => mm.maps g] (k.frames g) := by
  unfold teardownPrivateMm
  cases hid : k.mms.get? id with
  | none => exact ⟨rfl, (erase_eq_self hid).symm, fun _ => rfl⟩
  | some mm =>
    obtain ⟨hmms, hfs, hframes⟩ := foldl_releaseUserMapped mm.pageTable.entries k
    exact ⟨hfs, congrArg (OrdMap.erase · id) hmms, hframes⟩

theorem get?_teardownPrivateMm {i : MmId} (h : (k.teardownPrivateMm id).mms.get? i = some mm) :
    k.mms.get? i = some mm := by
  rw [(k.teardownPrivateMm_eq id).2.1, get?_erase] at h
  split at h
  · cases h
  · exact h

theorem teardownPrivateMm_accounted (ha : k.Accounted K) (id : MmId) :
    (k.teardownPrivateMm id).Accounted K := by
  obtain ⟨-, hmms, hframes⟩ := k.teardownPrivateMm_eq id
  intro g
  have hsum : (k.teardownPrivateMm id).maps g + ((k.mms.get? id).elim 0 fun mm => mm.maps g) =
      k.maps g := by
    rw [maps, hmms]
    exact k.mms.sum_erase (fun _ mm => mm.maps g) id
  exact (ha g).release (hframes g) hsum

end Kernel

end JanuaryOs.Virt

import JanuaryOs.Virt.Accounts

/-!
# What a page fault can do

Nothing, put a fresh frame under the faulting page, or make the page writable in
place because nobody else maps its frame. The handler is taken apart once, in
`handleVmaFault_to`; that it leaves every other page alone does not depend on
the books (`Enters`).
-/

namespace JanuaryOs.Virt

open Lib
open Proc (ExecMappedPage)

theorem pageNumber_pageAlignDown (addr : ℕ) :
    pageNumber (pageAlignDown addr) = pageNumber addr := by
  simp [pageNumber, pageAlignDown, pageSize]

namespace Kernel

variable {K : Pfn → Prop} {k k' : Kernel} {id : MmId} {mm : Mm} {addr n : ℕ}
  {flags : PteFlags} {vma : Vma} {r : FaultResult} {k1 : Kernel}

/-! ### Outcomes -/

/-- What the file behind a backing has at an offset. -/
def fileData (k : Kernel) (backing offset : ℕ) : Option PageData :=
  (k.fs.mmapBackings.get? backing).bind fun b => k.env.readPage b.inode offset

/-- What a page that is not present is filled with. -/
def newContents (k : Kernel) (vma : Vma) (addr : ℕ) : Option PageData :=
  if vma.value.flags.anonymous then some fun _ => 0
  else vma.value.file.bind fun backing => (fileOffset vma addr).bind (k.fileData backing)

/-- What the handler of an area does, outcome by outcome. -/
inductive FaultTo (k : Kernel) (id : MmId) (vma : Vma) (addr : ℕ) (present : Bool) :
    FaultResult × Kernel → Prop
  | refused (r : FaultResult) : FaultTo k id vma addr present (r, k)
  | noFrame (k1 : Kernel) : k.allocPage = (none, k1) → FaultTo k id vma addr present (.oom, k1)
  | noData (f : Pfn) (k1 : Kernel) : k.allocPage = (some f, k1) →
      FaultTo k id vma addr present (.sigbus, k1.freePage f)
  /-- The page is filled, or copied if it was present. -/
  | fresh (f : Pfn) (k1 : Kernel) (data : PageData) : k.allocPage = (some f, k1) →
      (if present then (k.pte id (pageNumber addr)).map (fun p => k.memory p.pfn)
        else k.newContents vma addr) = some data →
      FaultTo k id vma addr present
        ((k1.fillPage f data).mapNewPage id addr f vma.value.flags.toUserPteFlags)
  | again (m : ExecMappedPage) (ok : Bool) (k1 : Kernel) : vma.value.flags.anonymous = false →
      vma.value.file = none → k.mapPage id addr m.phys m.flags = (ok, k1) →
      FaultTo k id vma addr present
        (if ok then (.retry, k1.modifyFrame m.phys .incMapcount) else (.oom, k1))
  | reuse (old : Pte) (ok : Bool) (k1 : Kernel) : k.pte id (pageNumber addr) = some old →
      (k.frames old.pfn).refcount = 1 →
      k.mapPage id addr old.pfn vma.value.flags.toUserPteFlags = (ok, k1) →
      FaultTo k id vma addr present (if ok then .retry else .oom, k1)

theorem allocPage_changes (k : Kernel) : ∃ frames supply,
    k.allocPage.2 = { k with frames := frames, env := { k.env with frames := supply } } := by
  unfold allocPage
  split
  · exact ⟨_, _, rfl⟩
  simp only
  split
  · exact ⟨_, _, rfl⟩
  · split <;> exact ⟨_, _, rfl⟩

theorem handleVmaFault_to (k : Kernel) (recorded : List ExecMappedPage) (id : MmId) (vma : Vma)
    (addr : ℕ) (error : PageFaultError) : FaultTo k id vma (pageAlignDown addr) error.present
      (k.handleVmaFault recorded id vma addr error) := by
  obtain ⟨frames, supply, hk1⟩ := k.allocPage_changes
  rcases halloc : k.allocPage with ⟨answer, k1⟩
  rw [halloc] at hk1
  unfold handleVmaFault
  generalize pageAlignDown addr = addr
  simp only
  split
  · exact .refused _
  split
  · rename_i hpresent
    have hpresent : error.present = false := by simpa using hpresent
    unfold handleNotPresent
    split
    · rename_i hanon
      unfold mapZeroPage
      rw [halloc]
      cases answer with
      | none => exact .noFrame k1 halloc
      | some f => exact .fresh f k1 _ halloc (by simp [hpresent, newContents, hanon])
    rename_i hanon
    unfold handleFileFault
    split
    · rename_i backing hbacking
      unfold mapFilePage
      split
      · exact .refused _
      rename_i offset hoffset
      rw [halloc]
      cases answer with
      | none => exact .noFrame k1 halloc
      | some f =>
        simp only
        split
        · exact .noData f k1 halloc
        rename_i data hdata
        refine .fresh f k1 data halloc ?_
        cases hk1
        simpa [hpresent, newContents, hanon, hbacking, hoffset, fileData] using hdata
    · rename_i hfile
      unfold mapRecordedPage
      split
      · exact .refused _
      rename_i m _
      split
      · exact .refused _
      rcases hmap : k.mapPage id addr m.phys m.flags with ⟨ok, k2⟩
      have hto : FaultTo k id vma addr error.present _ :=
        .again m ok k2 (by simpa using hanon) hfile hmap
      cases ok <;> exact hto
  · rename_i hpresent
    have hpresent : error.present = true := by simpa using hpresent
    split
    · unfold handleWriteProtection
      split
      · exact .refused _
      split
      · exact .refused _
      rename_i old hold
      rw [translate_eq_pte] at hold
      split
      · rename_i hone
        rcases hmap : k.mapPage id addr old.pfn vma.value.flags.toUserPteFlags with ⟨ok, k2⟩
        have hto : FaultTo k id vma addr error.present _ := .reuse old ok k2 hold hone hmap
        cases ok <;> exact hto
      · unfold doCowFault
        rw [halloc]
        cases answer with
        | none => exact .noFrame k1 halloc
        | some f =>
          refine .fresh f k1 _ halloc ?_
          cases hk1
          simp [hpresent, hold]
    · exact .refused _

/-! ### The books -/

/-- The entries after a fault on page `n` in an area with the given flags. -/
inductive FaultEffect (k : Kernel) (id : MmId) (n : ℕ) (flags : PteFlags) :
    (MmId → ℕ → Option Pte) → Prop
  | unchanged : FaultEffect k id n flags k.pte
  | install (f : Pfn) (hf : k.maps f = 0) :
      FaultEffect k id n flags (setEntry k.pte id n (some ⟨f, flags⟩))
  | reuse (p : Pte) (hp : k.pte id n = some p) (hone : k.maps p.pfn = 1) :
      FaultEffect k id n flags (setEntry k.pte id n (some ⟨p.pfn, flags⟩))

/-- What a step on the pages of one address space leaves behind. -/
structure FaultDone (K : Pfn → Prop) (k : Kernel) (id : MmId) (n : ℕ) (flags : PteFlags)
    (k' : Kernel) : Prop where
  accounted : k'.Accounted K
  fs : k'.fs = k.fs
  skeleton : k'.skeleton = k.skeleton
  entries : FaultEffect k id n flags k'.pte

theorem FaultDone.refl (ha : k.Accounted K) : FaultDone K k id n flags k :=
  ⟨ha, rfl, rfl, .unchanged⟩

theorem InHand.fillPage {f : Pfn} (h : k.InHand K f) (data : PageData) :
    (k.fillPage f data).InHand K f :=
  SameBooks.inHand (k := k) ⟨rfl, rfl, rfl⟩ h

theorem mapNewPage_done {f : Pfn} {data : PageData} (hid : k.mms.get? id = some mm)
    (hzero : k.maps f = 0) (hhand : k1.InHand K f) (hmms : k1.mms = k.mms) (hfs : k1.fs = k.fs) :
    FaultDone K k id (pageNumber addr) flags
      ((k1.fillPage f data).mapNewPage id addr f flags).2 := by
  have hid1 : (k1.fillPage f data).mms.get? id = some mm := by
    rw [← hid, ← hmms]
    rfl
  have hpte : (k1.fillPage f data).pte = k.pte := by
    unfold pte Kernel.fillPage
    rw [hmms]
  have hsk : (k1.fillPage f data).skeleton = k.skeleton := by
    unfold skeleton Kernel.fillPage
    rw [hmms]
  obtain ⟨ha, hfs', hsk', hentries⟩ := mapNewPage_spec (hhand.fillPage data) hid1 rfl
  refine ⟨ha, hfs'.trans hfs, hsk'.trans hsk, ?_⟩
  rw [hpte] at hentries
  rcases hentries with ⟨heq, -⟩ | ⟨heq, -⟩
  · exact heq ▸ .unchanged
  · exact heq ▸ .install f hzero

/-- A fault in an area that is anonymous or has a file. -/
theorem handleVmaFault_done {recorded : List ExecMappedPage} {error : PageFaultError}
    (ha : k.Accounted K) (hid : k.mms.get? id = some mm)
    (hfile : vma.value.flags.anonymous = false → vma.value.file ≠ none) :
    FaultDone K k id (pageNumber addr) vma.value.flags.toUserPteFlags
      (k.handleVmaFault recorded id vma addr error).2 := by
  have hto := handleVmaFault_to k recorded id vma addr error
  rw [← pageNumber_pageAlignDown addr]
  generalize k.handleVmaFault recorded id vma addr error = res at hto
  cases hto with
  | refused => exact .refl ha
  | noFrame k1 halloc =>
    rcases allocPage_spec ha halloc with ⟨-, hsame⟩ | ⟨f, hf, -⟩
    · exact ⟨hsame.accounted ha, hsame.fs, hsame.skeleton, hsame.pte ▸ .unchanged⟩
    · cases hf
  | noData f k1 halloc =>
    rcases allocPage_spec ha halloc with ⟨hf, -⟩ | ⟨f, hf, hhand, -, hmms, hfs⟩
    · cases hf
    cases hf
    have hsame : (k1.freePage f).mms = k.mms := hmms
    refine ⟨hhand.freePage, hfs, ?_, ?_⟩
    · unfold skeleton
      rw [hsame]
    · have hpte : (k1.freePage f).pte = k.pte := by
        unfold pte
        rw [hsame]
      exact hpte ▸ .unchanged
  | fresh f k1 data halloc =>
    rcases allocPage_spec ha halloc with ⟨hf, -⟩ | ⟨f, hf, hhand, hzero, hmms, hfs⟩
    · cases hf
    · cases hf
      exact mapNewPage_done hid hzero hhand hmms hfs
  | again m ok k1 hanon hnone => exact absurd hnone (hfile hanon)
  | reuse old ok k1 hold hone hmap =>
    have hK := (ha _).user_of_maps (maps_pos hold)
    rw [(ha _).user hK] at hone
    obtain ⟨k2, hmap', hmaps, hfs, hsk, hframes, hpte⟩ := mapPage_same hold
      vma.value.flags.toUserPteFlags
    cases hmap.symm.trans hmap'
    exact ⟨ha.congr hframes hmaps, hfs, hsk, hpte ▸ .reuse old hold hone⟩

/-! ### Other pages -/

/-- No entry but that of one page is new, and the areas and files are as before. -/
structure Enters (k : Kernel) (id : MmId) (addr : ℕ) (k' : Kernel) : Prop where
  fs : k'.fs = k.fs
  skeleton : k'.skeleton = k.skeleton
  others : ∀ i n, ¬ (i = id ∧ n = pageNumber addr) → k'.pte i n = k.pte i n

theorem Enters.of_mms (h : k'.mms = k.mms ∧ k'.fs = k.fs) : Enters k id addr k' := by
  refine ⟨h.2, ?_, fun i n _ => ?_⟩
  · unfold Kernel.skeleton
    rw [h.1]
  · rw [pte, h.1, pte]

theorem Enters.of_before (hk1 : k1.mms = k.mms ∧ k1.fs = k.fs) (h : Enters k1 id addr k') :
    Enters k id addr k' := by
  have h1 : Enters k id addr k1 := .of_mms hk1
  exact ⟨h.fs.trans h1.fs, h.skeleton.trans h1.skeleton,
    fun i n hn => (h.others i n hn).trans (h1.others i n hn)⟩

theorem allocPage_same (k : Kernel) : k.allocPage.2.mms = k.mms ∧ k.allocPage.2.fs = k.fs := by
  obtain ⟨frames, supply, heq⟩ := k.allocPage_changes
  rw [heq]
  exact ⟨rfl, rfl⟩

theorem setPte_enters (hid : k.mms.get? id = some mm) (addr : ℕ) (pte : Pte) :
    Enters k id addr (k.setPte id addr pte) :=
  ⟨rfl, skeleton_setPte .., fun i n hn => by rw [pte_setPte hid, setEntry_of_ne hn]⟩

/-- An entry that is new is of this frame. -/
structure EntersFrame (k : Kernel) (id : MmId) (addr : ℕ) (f : Pfn) (k' : Kernel) : Prop extends
    Enters k id addr k' where
  frame : ∀ q, k'.pte id (pageNumber addr) = some q → q.pfn = f ∨
    k.pte id (pageNumber addr) = some q

theorem mapPage_enters (k : Kernel) (id : MmId) (addr : ℕ) (f : Pfn) (flags : PteFlags) :
    EntersFrame k id addr f (k.mapPage id addr f flags).2 := by
  cases hid : k.mms.get? id with
  | none =>
    rw [mapPage, hid]
    exact ⟨.of_mms ⟨rfl, rfl⟩, fun _ => .inr⟩
  | some mm =>
    have hset : ∀ k1 : Kernel, k1.mms = k.mms ∧ k1.fs = k.fs →
        EntersFrame k id addr f (k1.setPte id addr ⟨f, flags⟩) := fun k1 hk1 => by
      refine ⟨.of_before hk1 (setPte_enters (hk1.1 ▸ hid) addr _), fun q hq => ?_⟩
      rw [pte_setPte (hk1.1 ▸ hid), setEntry_self] at hq
      cases hq
      exact .inl rfl
    cases hold : k.pte id (pageNumber addr) with
    | none =>
      obtain ⟨k1, hbooks, hmap | hmap⟩ := mapPage_absent hid hold flags (f := f)
      · rw [hmap]
        exact ⟨.of_mms ⟨hbooks.mms, hbooks.fs⟩, fun q hq => .inr (hbooks.pte ▸ hq)⟩
      · rw [hmap]
        exact hset k1 ⟨hbooks.mms, hbooks.fs⟩
    | some old =>
      rw [mapPage_present hold]
      exact hset _ (by split <;> exact ⟨rfl, rfl⟩)

theorem mapNewPage_enters (hk1 : k1.mms = k.mms ∧ k1.fs = k.fs) (id : MmId) (addr : ℕ) (f : Pfn)
    (flags : PteFlags) : Enters k id addr (k1.mapNewPage id addr f flags).2 := by
  have h := Enters.of_before hk1 (mapPage_enters k1 id addr f flags).toEnters
  unfold mapNewPage
  split <;> (rename_i hmap; rw [hmap] at h; exact ⟨h.fs, h.skeleton, h.others⟩)

theorem handleVmaFault_enters (k : Kernel) (recorded : List ExecMappedPage) (id : MmId) (vma : Vma)
    (addr : ℕ) (error : PageFaultError) :
    Enters k id addr (k.handleVmaFault recorded id vma addr error).2 := by
  have halloc := allocPage_same k
  have hpage : ∀ {k'}, Enters k id (pageAlignDown addr) k' → Enters k id addr k' := fun h =>
    ⟨h.fs, h.skeleton, fun i n hn => h.others i n (by rwa [pageNumber_pageAlignDown])⟩
  have hto := handleVmaFault_to k recorded id vma addr error
  generalize k.handleVmaFault recorded id vma addr error = res at hto
  cases hto with
  | refused => exact .of_mms ⟨rfl, rfl⟩
  | noFrame k1 h | noData f k1 h =>
    rw [h] at halloc
    exact .of_mms halloc
  | fresh f k1 data h =>
    rw [h] at halloc
    exact hpage (mapNewPage_enters (by exact halloc) ..)
  | again m ok k1 _ _ hmap =>
    have h := mapPage_enters k id (pageAlignDown addr) m.phys m.flags
    rw [hmap] at h
    cases ok <;> exact hpage ⟨h.fs, h.skeleton, h.others⟩
  | reuse old ok k1 _ _ hmap =>
    have h := mapPage_enters k id (pageAlignDown addr) old.pfn vma.value.flags.toUserPteFlags
    rw [hmap] at h
    exact hpage h.toEnters

end Kernel

end JanuaryOs.Virt

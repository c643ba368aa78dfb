import JanuaryOs.Virt.CopyOnWrite

/-!
# Pages of shared areas after a fork

`mm_clone` gives the child the frames of the pages that are present, so both
sides have the same frame there. A page that is touched later is filled by the
fault handler, which looks at nobody else's page table: whoever comes second
gets a frame of its own. Parent and child agree on a page as long as neither
faults on it while the other has it.
-/

namespace JanuaryOs.Virt.Kernel

open Lib OrdMap

variable {k k' : Kernel} {src dst i : MmId} {n : ℕ} {addr : ℕ} {f : Pfn}

/-! ### Frames of pages -/

/-- The frame of a page, or nothing if the page is not present; no answer
without an address space. -/
def frameAt (k : Kernel) (id : MmId) (n : ℕ) : Option (Option Pfn) :=
  (k.mms.get? id).map fun mm => (mm.pageTable.get? n).map Pte.pfn

theorem frameAt_eq_some : k.frameAt i n = some (some f) ↔ ∃ p, k.pte i n = some p ∧ p.pfn = f := by
  simp only [frameAt, pte, Option.map_eq_some_iff, Option.bind_eq_some_iff]
  constructor
  · rintro ⟨mm, hmm, p, hp, hf⟩
    exact ⟨p, ⟨mm, hmm, hp⟩, hf⟩
  · rintro ⟨p, ⟨mm, hmm, hp⟩, hf⟩
    exact ⟨mm, hmm, p, hp, hf⟩

theorem frameAt_isSome : (k.frameAt i n).isSome = (k.mms.get? i).isSome := Option.isSome_map

/-- The frame depends on the entry, and on whether there is an address space. -/
theorem frameAt_congr (hlive : (k'.mms.get? i).isSome = (k.mms.get? i).isSome)
    (hpte : k'.pte i n = k.pte i n) : k'.frameAt i n = k.frameAt i n := by
  simp only [frameAt, pte] at hpte ⊢
  cases h : k.mms.get? i with
  | none =>
    rw [h] at hlive
    rw [Option.isSome_eq_false_iff.1 hlive |> Option.isNone_iff_eq_none.1]
  | some mm =>
    rw [h] at hlive hpte
    obtain ⟨mm', hmm'⟩ := Option.isSome_iff_exists.1 hlive
    rw [hmm'] at hpte ⊢
    exact congrArg (fun x : Option Pte => some (x.map Pte.pfn)) hpte

theorem isSome_of_skeleton (h : k'.skeleton = k.skeleton) (i : MmId) :
    (k'.mms.get? i).isSome = (k.mms.get? i).isSome := by
  have hsk := congrArg Option.isSome (congrFun h i)
  rwa [skeleton, skeleton, Option.isSome_map, Option.isSome_map] at hsk

theorem frameAt_enters {id : MmId} (h : Enters k id addr k')
    (hn : ¬ (i = id ∧ n = pageNumber addr)) : k'.frameAt i n = k.frameAt i n :=
  frameAt_congr (isSome_of_skeleton h.skeleton i) (h.others i n hn)

/-! ### Faults -/

theorem frameAt_handlePageFault (k : Kernel) (recorded : List Proc.ExecMappedPage) {id : MmId}
    (error : PageFaultError) (hn : ¬ (i = id ∧ n = pageNumber addr)) :
    (k.handlePageFault recorded id addr error).2.frameAt i n = k.frameAt i n := by
  obtain ⟨-, hothers, hsk⟩ := handlePageFault_enters k recorded id addr error
  refine frameAt_congr ?_ (hothers i n hn)
  rcases hsk with hsk | ⟨mm, hid, hsk⟩
  · exact isSome_of_skeleton hsk i
  rw [isSome_of_skeleton hsk, setMm]
  by_cases heq : i = id
  · simp only [heq, get?_insert_self, hid, Option.isSome_some]
  · rw [get?_insert_ne _ _ heq]

/-! ### Clones -/

/-- The child has the frames of the parent where it has pages. -/
structure Mirrors (k : Kernel) (src dst : MmId) : Prop where
  live : (k.frameAt src 0).isSome ∧ (k.frameAt dst 0).isSome
  frames : ∀ n f, k.frameAt dst n = some (some f) → k.frameAt src n = some (some f)

/-- What copying pages does: the child is filled, everybody else keeps the
frames. -/
structure Copied (k : Kernel) (src dst : MmId) (k' : Kernel) : Prop where
  others : ∀ i n, i ≠ dst → k'.frameAt i n = k.frameAt i n
  mirrors : k'.Mirrors src dst

theorem Copied.congr (h : Copied k src dst k') {k1 : Kernel} (h1 : k1.frameAt = k'.frameAt) :
    Copied k src dst k1 := by
  obtain ⟨hothers, hmirrors⟩ := h
  exact ⟨h1 ▸ hothers, by rw [h1]; exact hmirrors.live, by rw [h1]; exact hmirrors.frames⟩

/-- One page of the child is changed, to the frame that the parent has there. -/
theorem Mirrors.enter (h : k.Mirrors src dst) (hne : src ≠ dst) (henters : Enters k dst addr k')
    (hnew : ∀ q, k'.pte dst (pageNumber addr) = some q →
      k.frameAt src (pageNumber addr) = some (some q.pfn)) : Copied k src dst k' := by
  have hothers : ∀ i n, i ≠ dst → k'.frameAt i n = k.frameAt i n := fun i n hi =>
    frameAt_enters henters fun hin => hi hin.1
  refine ⟨hothers, ⟨?_, ?_⟩, fun n f hf => ?_⟩
  · rw [hothers src 0 hne]
    exact h.live.1
  · rw [frameAt_isSome, isSome_of_skeleton henters.skeleton, ← frameAt_isSome (n := 0)]
    exact h.live.2
  · rw [hothers src n hne]
    by_cases hn : n = pageNumber addr
    · obtain ⟨q, hq, rfl⟩ := frameAt_eq_some.1 hf
      subst hn
      exact hnew q hq
    · rw [frameAt_enters henters fun hin => hn hin.2] at hf
      exact h.frames n f hf

theorem frameAt_mapPage {id : MmId} (flags : PteFlags)
    (h : k.frameAt id (pageNumber addr) = some (some f)) :
    (k.mapPage id addr f flags).2.frameAt = k.frameAt := by
  obtain ⟨p, hp, rfl⟩ := frameAt_eq_some.1 h
  obtain ⟨mm, hid, -⟩ := Option.bind_eq_some_iff.1 hp
  rw [mapPage_present hp, if_pos rfl]
  funext i n
  by_cases hn : i = id ∧ n = pageNumber addr
  · obtain ⟨rfl, rfl⟩ := hn
    rw [h]
    exact frameAt_eq_some.2 ⟨⟨p.pfn, flags⟩, by rw [pte_setPte hid, setEntry_self], rfl⟩
  · exact frameAt_enters (setPte_enters hid addr _) hn

theorem clonePage_copied (h : k.Mirrors src dst) (hne : src ≠ dst) (flags : VmFlags) (addr : ℕ) :
    Copied k src dst (k.clonePage src dst flags addr).2 := by
  unfold clonePage
  cases hp : k.translate src addr with
  | none => exact ⟨fun _ _ _ => rfl, h⟩
  | some p =>
    have hsrc : k.frameAt src (pageNumber addr) = some (some p.pfn) :=
      frameAt_eq_some.2 ⟨p, hp, rfl⟩
    have hmap : Copied k src dst (k.mapPage dst addr p.pfn (cowPteFlags flags)).2 := by
      have hmap := mapPage_enters k dst addr p.pfn (cowPteFlags flags)
      refine h.enter hne hmap.toEnters fun q hq => ?_
      rcases hmap.frame q hq with hpfn | hold
      · rw [hpfn]
        exact hsrc
      · exact h.frames _ _ (frameAt_eq_some.2 ⟨q, hold, rfl⟩)
    simp only
    rcases hk1 : k.mapPage dst addr p.pfn (cowPteFlags flags) with ⟨_ | _, k1⟩
    all_goals rw [hk1] at hmap
    · exact hmap
    · by_cases hcow : cowPteFlags flags = flags.toUserPteFlags
      · simp only [if_pos hcow]
        exact hmap.congr rfl
      have hflags : (k1.mapPage src addr p.pfn (cowPteFlags flags)).2.frameAt = k1.frameAt :=
        frameAt_mapPage _ ((hmap.others src _ hne).trans hsrc)
      simp only [if_neg hcow]
      rcases hk2 : k1.mapPage src addr p.pfn (cowPteFlags flags) with ⟨_ | _, k2⟩
      all_goals rw [hk2] at hflags
      · have h2 := hmap.congr hflags
        have hun : Enters k2 dst addr (k2.unmapPage dst addr) :=
          ⟨rfl, skeleton_unmapPage .., fun i n hn => by rw [pte_unmapPage, setEntry_of_ne hn]⟩
        have h3 := h2.mirrors.enter hne hun fun q hq => by
          rw [pte_unmapPage, setEntry_self] at hq
          cases hq
        exact ⟨fun i n hi => (h3.others i n hi).trans (h2.others i n hi), h3.mirrors⟩
      · exact hmap.congr hflags

theorem cloneAll_copied (hne : src ≠ dst) (todo : List (VmFlags × ℕ)) (h : k.Mirrors src dst) :
    Copied k src dst (cloneAll src dst todo k).2 := by
  induction todo generalizing k with
  | nil => exact ⟨fun _ _ _ => rfl, h⟩
  | cons x rest ih =>
    have hpage := clonePage_copied h hne x.1 x.2
    rw [cloneAll]
    rcases hk1 : k.clonePage src dst x.1 x.2 with ⟨_ | _, k1⟩
    all_goals rw [hk1] at hpage
    · exact hpage
    · have hrest := ih hpage.mirrors
      exact ⟨fun i n hi => (hrest.others i n hi).trans (hpage.others i n hi), hrest.mirrors⟩

theorem frameAt_abandonClone (k : Kernel) (hi : i ≠ dst) :
    (k.abandonClone dst).frameAt i n = k.frameAt i n := by
  unfold abandonClone
  split
  · rfl
  · rw [frameAt, (teardownPrivateMm_eq ..).2.1, get?_erase_ne _ hi]
    rfl

/-- A fork leaves the frames of all address spaces; the child has those of its
parent. -/
theorem mmClone_copied (k : Kernel) (src : MmId) :
    (∀ i n, (k.frameAt i 0).isSome → (k.mmClone src).2.frameAt i n = k.frameAt i n) ∧
    ∀ dst, (k.mmClone src).1 = some dst → (k.mmClone src).2.Mirrors src dst := by
  refine mmClone_rule (P := fun r => (∀ i n, (k.frameAt i 0).isSome →
    r.2.frameAt i n = k.frameAt i n) ∧ ∀ dst, r.1 = some dst → r.2.Mirrors src dst)
    ⟨fun _ _ _ => rfl, by simp⟩ ?_
  intro mm dst mm' fs inserted k1 hsrc hdst hne hfilled _ hk1
  have hpages : mm'.pageTable = .empty := congrArg Mm.pageTable hfilled.counters
  have hlive : ∀ i, (k.frameAt i 0).isSome → i ≠ dst := fun i hi heq => by
    rw [frameAt_isSome, heq, hdst] at hi
    cases hi
  have hsame : ∀ i n, i ≠ dst → k1.frameAt i n = k.frameAt i n := fun i n hi => by
    rw [hk1, frameAt, setMm, get?_insert_ne _ _ hi, frameAt]
  have hfirst : k1.Mirrors src dst := by
    refine ⟨⟨?_, ?_⟩, fun n f hf => ?_⟩
    · rw [hsame src 0 hne, frameAt_isSome, hsrc]
      rfl
    · rw [hk1, frameAt_isSome, setMm, get?_insert_self]
      rfl
    · rw [hk1, frameAt, setMm, get?_insert_self, Option.map_some, hpages] at hf
      cases hf
  refine ⟨⟨fun i n hi => (frameAt_abandonClone _ (hlive i hi)).trans (hsame i n (hlive i hi)),
    by simp⟩, fun _ => ?_⟩
  have hcopied := cloneAll_copied hne (cloneTodo mm.vmaTree.toList) hfirst
  have hothers := fun i n hi => (hcopied.others i n (hlive i hi)).trans (hsame i n (hlive i hi))
  refine ⟨⟨fun i n hi => (frameAt_abandonClone _ (hlive i hi)).trans (hothers i n hi), by simp⟩,
    hothers, fun d hd => ?_⟩
  cases hd
  exact hcopied.mirrors

/-! ### Runs -/

/-- Forks, faults and stores, where parent and child fault on the page only
while the other one does not have it. -/
def Alone (src dst : MmId) (n : ℕ) (k : Kernel) (call : Env × MemOp) : Prop :=
  match call.2 with
  | .fault _ id addr _ => pageNumber addr = n →
      (id = src → k.pte dst n = none) ∧ (id = dst → k.pte src n = none)
  | .clone _ | .store .. => True
  | _ => False

instance (src dst : MmId) (n : ℕ) (k : Kernel) : (call : Env × MemOp) →
    Decidable (Alone src dst n k call)
  | (_, .fault ..) => inferInstanceAs (Decidable (_ → _ ∧ _))
  | (_, .clone _) | (_, .store ..) => .isTrue trivial
  | (_, .mmap ..) | (_, .munmap ..) | (_, .mprotect ..) | (_, .brk ..) | (_, .release _)
  | (_, .files _) => .isFalse id

/-- Both are there, and have one frame where both have the page. -/
structure Agree (src dst : MmId) (n : ℕ) (k : Kernel) : Prop where
  live : (k.frameAt src 0).isSome ∧ (k.frameAt dst 0).isSome
  frames : ∀ f g, k.frameAt src n = some (some f) → k.frameAt dst n = some (some g) → f = g

theorem Mirrors.agree (h : k.Mirrors src dst) (n : ℕ) : Agree src dst n k := by
  refine ⟨h.live, fun f g hf hg => ?_⟩
  rw [h.frames n g hg] at hf
  cases hf
  rfl

theorem Agree.congr (h : Agree src dst n k) (hsrc : ∀ m, k'.frameAt src m = k.frameAt src m)
    (hdst : ∀ m, k'.frameAt dst m = k.frameAt dst m) : Agree src dst n k' :=
  ⟨by rw [hsrc, hdst]; exact h.live, by rw [hsrc, hdst]; exact h.frames⟩

theorem Agree.step (h : Agree src dst n k) {call : Env × MemOp} (hok : Alone src dst n k call) :
    Agree src dst n (k.memStep call) := by
  obtain ⟨env, op⟩ := call
  cases op with
  | fault recorded id addr error =>
    have hframe : ∀ i m, ¬ (i = id ∧ m = pageNumber addr) →
        (k.memStep (env, .fault recorded id addr error)).frameAt i m = k.frameAt i m :=
      fun i m hn => frameAt_handlePageFault { k with env := env } recorded error hn
    have hlive : ∀ i, ((k.memStep (env, .fault recorded id addr error)).frameAt i 0).isSome =
        (k.frameAt i 0).isSome := by
      intro i
      have hother := hframe i (pageNumber addr + 1) fun hin => absurd hin.2 (by omega)
      rw [frameAt_isSome, frameAt_isSome, ← frameAt_isSome, hother, frameAt_isSome]
    refine ⟨by rw [hlive, hlive]; exact h.live, fun f g hf hg => ?_⟩
    -- a page that is not present has no frame
    have habsent : ∀ {i f}, k.frameAt i n = some (some f) → k.pte i n ≠ none := by
      intro i f hf
      obtain ⟨p, hp, -⟩ := frameAt_eq_some.1 hf
      rw [hp]
      nofun
    by_cases hne : src = dst
    · subst hne
      exact Option.some.inj (Option.some.inj (hf.symm.trans hg))
    by_cases hsrc : src = id ∧ n = pageNumber addr
    · rw [hframe dst n fun hin => hne (hsrc.1.trans hin.1.symm)] at hg
      exact absurd ((hok hsrc.2.symm).1 hsrc.1.symm) (habsent hg)
    rw [hframe src n hsrc] at hf
    by_cases hdst : dst = id ∧ n = pageNumber addr
    · exact absurd ((hok hdst.2.symm).2 hdst.1.symm) (habsent hf)
    · rw [hframe dst n hdst] at hg
      exact h.frames f g hf hg
  | clone s =>
    have hclone := (mmClone_copied { k with env := env } s).1
    exact h.congr (fun m => hclone src m h.live.1) fun m => hclone dst m h.live.2
  | store id addr byte =>
    refine h.congr (fun m => ?_) fun m => ?_
    all_goals
      simp only [memStep, store]
      split <;> rfl
  | mmap | munmap | mprotect | brk | release | files => exact hok.elim

/-- A store through a page is read through every page with the same frame. -/
theorem load_store_same {i j : MmId} {p q : Pte} {offset : ℕ} (hoffset : offset < pageSize)
    (hp : k.pte i n = some p) (hq : k.pte j n = some q) (hpfn : p.pfn = q.pfn)
    (hw : p.flags.writable = true) (byte : UInt8) :
    (k.store i (n * pageSize + offset) byte).load j (n * pageSize + offset) = some byte := by
  have hpage : pageNumber (n * pageSize + offset) = n := by
    unfold pageNumber pageSize at *
    omega
  have htrans : ∀ i, k.translate i (n * pageSize + offset) = k.pte i n := fun i => by
    rw [translate_eq_pte, hpage]
  have hacc : k.accessible i (n * pageSize + offset) .write = some p := by
    rw [accessible, htrans, hp, Option.filter_some, Pte.allows, hw]
    rfl
  simp only [store, hacc]
  show (k.translate j (n * pageSize + offset)).map _ = _
  rw [htrans, hq, Option.map_some]
  simp only [pokeByte, fillPage, hpfn, Function.update_self]

/-- After a fork, in every run of forks, faults and stores in which parent and
child fault on a page only while the other one does not have it: where both have
the page they have it in one frame, and what one of them stores there the other
one reads. -/
theorem inherited_page_coherent {k0 k1 : Kernel} {src dst : MmId}
    (hfork : k0.mmClone src = (some dst, k1)) {n : ℕ} {calls : List (Env × MemOp)}
    (hrun : Run (Guarded (Alone src dst n) (ofFun memStep)) k1 calls k) {p q : Pte}
    (hp : k.pte src n = some p) (hq : k.pte dst n = some q) :
    p.pfn = q.pfn ∧ ∀ offset byte, offset < pageSize →
      (p.flags.writable = true → (k.store src (n * pageSize + offset) byte).load dst
        (n * pageSize + offset) = some byte) ∧
      (q.flags.writable = true → (k.store dst (n * pageSize + offset) byte).load src
        (n * pageSize + offset) = some byte) := by
  have hstart : Agree src dst n k1 := by
    have hmirrors := (mmClone_copied k0 src).2 dst (by rw [hfork])
    rw [hfork] at hmirrors
    exact hmirrors.agree n
  have hagree : Agree src dst n k := by
    refine hrun.invariant (Agree src dst n) ?_ hstart
    rintro k call _ hk ⟨hok, rfl⟩
    exact hk.step hok
  have hpfn : p.pfn = q.pfn := hagree.frames p.pfn q.pfn (frameAt_eq_some.2 ⟨p, hp, rfl⟩)
    (frameAt_eq_some.2 ⟨q, hq, rfl⟩)
  exact ⟨hpfn, fun offset byte hoffset => ⟨fun hw => load_store_same hoffset hp hq hpfn hw byte,
    fun hw => load_store_same hoffset hq hp hpfn.symm hw byte⟩⟩

/-- One address space with a shared anonymous area of two pages, and the answer
a fork needs. -/
def sharedArea : Kernel :=
  { oneMm.memStep ({}, .mmap 1 1 ⟨userSpaceStart, 2 * pageSize, protRead ||| protWrite,
    mapShared ||| mapAnonymous ||| mapFixed, 0, 0⟩) with env := { mmAddr := some 2 } }

/-- The number of its first page. -/
def sharedPage : ℕ := pageNumber userSpaceStart

/-- A store to a page of the shared area that is not present. -/
def touchShared (id : MmId) (page : ℕ) (f : Pfn) : Env × MemOp :=
  ({ frames := [some f], mmAddr := some 2 },
    .fault [] id (userSpaceStart + page * pageSize) ⟨false, true, false⟩)

/-- The first page is touched before the fork; the child touches the second one. -/
theorem inherited_page_coherent_touched :
    ∃ k p q, ((sharedArea.memStep (touchShared 1 0 5)).mmClone 1).1 = some 2 ∧
      Run (Guarded (Alone 1 2 sharedPage) (ofFun memStep))
        ((sharedArea.memStep (touchShared 1 0 5)).mmClone 1).2
        [touchShared 2 1 6, ({}, .store 1 userSpaceStart 7)] k ∧
      k.SharedAt 2 sharedPage ∧ k.pte 1 sharedPage = some p ∧ k.pte 2 sharedPage = some q ∧
      p.pfn = q.pfn ∧ k.load 2 userSpaceStart = some 7 := by
  have hfork : ((sharedArea.memStep (touchShared 1 0 5)).mmClone 1).1 = some 2 := by decide
  have hexec : Executes (Alone 1 2 sharedPage) (fun k call => some (memStep k call))
      ((sharedArea.memStep (touchShared 1 0 5)).mmClone 1).2
      [touchShared 2 1 6, ({}, .store 1 userSpaceStart 7)] fun k => k.SharedAt 2 sharedPage ∧
        k.pte 1 sharedPage = some ⟨5, ⟨true, true⟩⟩ ∧
        k.pte 2 sharedPage = some ⟨5, ⟨true, true⟩⟩ ∧ k.load 2 userSpaceStart = some 7 := by
    decide
  obtain ⟨k, hrun, hshared, hp, hq, hload⟩ := Run.exists_of_exec_total hexec fun _ _ h => h
  exact ⟨k, _, _, hfork, hrun, hshared, hp, hq,
    (inherited_page_coherent (Prod.ext hfork rfl) hrun hp hq).1, hload⟩

/-- Parent and child touch a page of the shared area after the fork. They get a
frame each, and the child does not read what the parent stores. -/
theorem touched_after_fork_differs :
    ∃ k p q, (sharedArea.mmClone 1).1 = some 2 ∧ sharedArea.SharedAt 1 sharedPage ∧
      Run (ofFun memStep) (sharedArea.mmClone 1).2 [touchShared 1 0 5, touchShared 2 0 6] k ∧
      k.pte 1 sharedPage = some p ∧ k.pte 2 sharedPage = some q ∧ p.flags.writable = true ∧
      p.pfn ≠ q.pfn ∧ (k.store 1 userSpaceStart 7).load 2 userSpaceStart = some 0 := by
  have hexec : Executes (fun _ _ => True) (fun k call => some (memStep k call))
      (sharedArea.mmClone 1).2 [touchShared 1 0 5, touchShared 2 0 6] fun k =>
        k.pte 1 sharedPage = some ⟨5, ⟨true, true⟩⟩ ∧
        k.pte 2 sharedPage = some ⟨6, ⟨true, true⟩⟩ ∧
        (k.store 1 userSpaceStart 7).load 2 userSpaceStart = some 0 := by
    decide
  obtain ⟨k, hrun, hp, hq, hload⟩ := Run.exists_of_exec_total hexec fun _ _ h => h
  exact ⟨k, _, _, by decide, by decide, hrun.mono fun _ _ _ h => h.2, hp, hq, rfl, by decide,
    hload⟩

end JanuaryOs.Virt.Kernel

import JanuaryOs.Lib.Trace
import JanuaryOs.Virt.CloneSpec
import JanuaryOs.Virt.UserAccess

/-!
# Copy-on-write isolation over runs of memory calls

A run mixes the calls of any number of address spaces, the stores of their
programs and whatever happens to the files in between. Two steps can break the
isolation. `mprotect` that adds `PROT_WRITE` gives every present page of the
range the writable bit, also where `fork` has taken it because another address
space has the frame. And `mm_clone` leaves the source page alone where the area
is not writable, although the page may be: shrinking the heap leaves the pages
above the new break mapped, and a later mapping of that range finds them there.
-/

namespace JanuaryOs.Virt

open Lib Fs IntervalMap
open Proc (ExecMappedPage)

namespace Kernel

/-! ### Calls -/

inductive MemOp
  | fault (recorded : List ExecMappedPage) (id : MmId) (addr : ℕ) (error : PageFaultError)
  | mmap (id : MmId) (pid : ProcessId) (args : MmapArgs)
  | munmap (id : MmId) (addr length : ℕ)
  | mprotect (id : MmId) (addr length : ℕ) (prot : UInt32)
  | brk (id : MmId) (req : ℕ)
  | clone (src : MmId)
  | release (id : MmId)
  | store (id : MmId) (addr : ℕ) (byte : UInt8)
  /-- Calls on files and descriptors. -/
  | files (fs : FsState)

variable (k : Kernel)

/-- A call with the answers it gets from outside. -/
def memStep (call : Env × MemOp) : Kernel :=
  let k := { k with env := call.1 }
  match call.2 with
  | .fault recorded id addr error => (k.handlePageFault recorded id addr error).2
  | .mmap id pid args => (k.sysMmap id pid args).2
  | .munmap id addr length => (k.sysMunmap id addr length).2
  | .mprotect id addr length prot => (k.sysMprotect id addr length prot).2
  | .brk id req => (k.sysBrk id req).2
  | .clone src => (k.mmClone src).2
  | .release id => k.mmRelease id
  | .store id addr byte => k.store id addr byte
  | .files fs => { k with fs := fs }

/-! ### The condition -/

/-- An `mprotect` that is accepted and adds `PROT_WRITE` finds no private page
in its range whose frame another address space has as a private page. -/
def ProtectOk (id : MmId) (addr length : ℕ) (prot : UInt32) : Prop :=
  length ≠ 0 → addr % pageSize = 0 → (prot &&& ~~~mmapProtAllowed != 0) = false →
    hasBit prot protWrite = true → ∀ stop, checkRange addr length .ENOMEM = .ok stop →
    ∀ mm, k.mms.get? id = some mm →
    (∀ page ∈ pagesIn addr stop, (mm.findVma page).isSome) → k.RangeExclusive id addr stop

/-- The condition on a call. -/
def MemOk (call : Env × MemOp) : Prop :=
  match call.2 with
  | .mprotect id addr length prot => k.ProtectOk id addr length prot
  | .clone src => ∀ mm, k.mms.get? src = some mm → k.CloneSafe src mm
  | _ => True

/-! ### Deciding the condition -/

theorem pte_eq_some {k : Kernel} {id : MmId} {n : ℕ} {p : Pte} :
    k.pte id n = some p ↔ ∃ mm, (id, mm) ∈ k.mms.entries ∧ (n, p) ∈ mm.pageTable.entries := by
  simp only [pte, Option.bind_eq_some_iff, OrdMap.mem_entries_iff]

instance (mm : Mm) (n : ℕ) : Decidable (mm.SharedAt n) :=
  decidable_of_iff
    (∃ a ∈ mm.vmaTree.toList, a.Contains (n * pageSize) ∧ a.value.flags.shared = true)
    (by simp only [Mm.SharedAt, mem_toList])

instance (id : MmId) (n : ℕ) : Decidable (k.SharedAt id n) :=
  decidable_of_iff (∃ mm ∈ (k.skeleton id).toList, mm.SharedAt n)
    (by simp only [SharedAt, Option.mem_toList])

instance (id : MmId) (f : Pfn) : Decidable (Exclusive k.SharedAt k.pte id f) :=
  decidable_of_iff
    (∀ x ∈ k.mms.entries, x.1 ≠ id → ∀ e ∈ x.2.pageTable.entries, e.2.pfn = f →
      k.SharedAt x.1 e.1) <| by
    constructor
    · intro h i m q hi hq hf
      obtain ⟨mm, hmm, hq⟩ := pte_eq_some.1 hq
      exact h (i, mm) hmm hi (m, q) hq hf
    · intro h x hx hi e he hf
      exact h x.1 e.1 e.2 hi (pte_eq_some.2 ⟨x.2, hx, he⟩) hf

instance (id : MmId) (lo hi : ℕ) : Decidable (k.RangeExclusive id lo hi) :=
  decidable_of_iff
    (∀ x ∈ k.mms.entries, x.1 = id → ∀ e ∈ x.2.pageTable.entries, lo ≤ e.1 * pageSize →
      e.1 * pageSize < hi → k.SharedAt id e.1 ∨ Exclusive k.SharedAt k.pte id e.2.pfn) <| by
    constructor
    · intro h n p hlo hhi hp
      obtain ⟨mm, hmm, hp⟩ := pte_eq_some.1 hp
      exact h (id, mm) hmm rfl (n, p) hp hlo hhi
    · rintro h ⟨_, mm⟩ hx rfl e he hlo hhi
      exact h e.1 e.2 hlo hhi (pte_eq_some.2 ⟨mm, hx, he⟩)

instance (src : MmId) (mm : Mm) : Decidable (k.CloneSafe src mm) :=
  decidable_of_iff
    (∀ vma ∈ mm.vmaTree.toList, ∀ x ∈ k.mms.entries, x.1 = src → ∀ e ∈ x.2.pageTable.entries,
      vma.Contains (e.1 * pageSize) →
      (vma.value.flags.shared = false → vma.value.flags.write = false →
        e.2.flags.writable = false) ∧ (k.frames e.2.pfn).mapcount < 2147483647) <| by
    simp only [mem_toList]
    constructor
    · intro h vma hvma n p hin hp
      obtain ⟨mm, hmm, hp⟩ := pte_eq_some.1 hp
      exact h vma hvma (src, mm) hmm rfl (n, p) hp hin
    · rintro h vma hvma ⟨_, mm⟩ hx rfl e he hin
      exact h vma hvma e.1 e.2 hin (pte_eq_some.2 ⟨mm, hx, he⟩)

instance (id : MmId) (addr length : ℕ) (prot : UInt32) :
    Decidable (k.ProtectOk id addr length prot) :=
  decidable_of_iff
    (length ≠ 0 → addr % pageSize = 0 → (prot &&& ~~~mmapProtAllowed != 0) = false →
      hasBit prot protWrite = true → ∀ stop ∈ (checkRange addr length .ENOMEM).toOption.toList,
      ∀ mm ∈ (k.mms.get? id).toList,
      (∀ page ∈ pagesIn addr stop, (mm.findVma page).isSome) → k.RangeExclusive id addr stop) <| by
    unfold ProtectOk
    cases checkRange addr length .ENOMEM <;> simp [Except.toOption]

instance : (call : Env × MemOp) → Decidable (k.MemOk call)
  | (_, .mprotect id addr length prot) =>
    inferInstanceAs (Decidable (k.ProtectOk id addr length prot))
  | (_, .clone src) =>
    decidable_of_iff (∀ mm ∈ (k.mms.get? src).toList, k.CloneSafe src mm)
      (by simp only [MemOk, Option.mem_toList])
  | (_, .fault _ _ _ _) | (_, .mmap _ _ _) | (_, .munmap _ _ _) | (_, .brk _ _)
  | (_, .release _) | (_, .store _ _ _) | (_, .files _) => .isTrue trivial

/-! ### Steps -/

variable {K : Pfn → Prop} {k : Kernel}

theorem store_inv (h : k.Inv K) (id : MmId) (addr : ℕ) (byte : UInt8) :
    (k.store id addr byte).Inv K := by
  unfold store
  split
  · exact h
  · exact h.congr rfl rfl

theorem memStep_inv (h : k.Inv K) {call : Env × MemOp} (hok : k.MemOk call) :
    (k.memStep call).Inv K := by
  obtain ⟨env, op⟩ := call
  have henv : ({ k with env := env } : Kernel).Inv K := h.congr rfl rfl
  cases op with
  | fault recorded id addr error => exact handlePageFault_inv henv recorded id addr error
  | mmap id pid args => exact sysMmap_inv henv id pid args
  | munmap id addr length => exact sysMunmap_inv henv id addr length
  | mprotect id addr length prot =>
    refine sysMprotect_inv henv id addr length prot ?_
    intro hlength haddr hprot hwrite stop hstop mm hmm hcover
    refine hok hlength haddr hprot hwrite stop hstop mm hmm fun page hpage => ?_
    -- every address of the range lies in an area, so every page does
    obtain ⟨i, hi, rfl⟩ := List.mem_map.1 hpage
    have hlt : addr + i * pageSize < stop := by
      have hi := List.mem_range.1 hi
      unfold pageSize at *
      omega
    obtain ⟨a, ha, hin⟩ := hcover (addr + i * pageSize) (Nat.le_add_right ..) hlt
    exact Option.isSome_iff_exists.2 ⟨a, at?_eq_some.2 ⟨ha, hin⟩⟩
  | brk id req => exact sysBrk_inv henv id req
  | clone src => exact mmClone_inv henv src hok
  | release id => exact mmRelease_inv henv id
  | store id addr byte => exact store_inv henv id addr byte
  | files fs => exact h.congr rfl rfl

/-! ### Runs -/

/-- Before the first page: no user page is present, the areas are as the calls
make them, and what is free has no mapping. -/
structure NoPages (k : Kernel) : Prop where
  pages : ∀ id mm, k.mms.get? id = some mm → mm.pageTable = .empty ∧ mm.Wf
  free : ∀ f, (k.frames f).Free → (k.frames f).mapcount = -1

theorem NoPages.inv (h : k.NoPages) : k.Inv fun f => ¬ (k.frames f).Free := by
  have hpte : ∀ i n, k.pte i n = none := by
    intro i n
    rw [pte]
    cases hi : k.mms.get? i with
    | none => rfl
    | some mm =>
      rw [Option.bind_some, (h.pages i mm hi).1]
      rfl
  have hmaps : ∀ f, k.maps f = 0 := by
    intro f
    by_contra hpos
    obtain ⟨i, mm, hi, hmm⟩ := OrdMap.sum_pos_iff.1 (Nat.pos_of_ne_zero hpos)
    rw [Mm.maps, (h.pages i mm hi).1] at hmm
    cases hmm
  refine ⟨fun f => ⟨fun hK => ⟨hmaps f, hK⟩, fun hK => ?_⟩, fun i mm hi => ?_, .empty hpte⟩
  · obtain ⟨hrefs, hreserved⟩ := not_not.1 hK
    have hmapcount := h.free f (not_not.1 hK)
    rw [hmaps]
    generalize k.frames f = fr at hrefs hreserved hmapcount
    obtain ⟨refcount, mapcount, reserved⟩ := fr
    cases hrefs
    cases hreserved
    cases hmapcount
    rfl
  · obtain ⟨mm', hmm', rfl⟩ := Option.map_eq_some_iff.1 hi
    exact wf_skeleton.2 (h.pages i mm' hmm').2

/-- A store through a private page leaves alone what the others read through
private pages. -/
theorem Inv.load_store (h : k.Inv K) {i j : MmId} (hij : i ≠ j) {a b : ℕ} (byte : UInt8)
    (hi : ¬ k.SharedAt i (pageNumber a)) (hj : ¬ k.SharedAt j (pageNumber b)) :
    (k.store i a byte).load j b = k.load j b := by
  unfold store
  cases hp : k.accessible i a .write with
  | none => rfl
  | some p =>
    obtain ⟨hp, hw⟩ := Option.filter_eq_some_iff.1 hp
    show (k.translate j b).map _ = (k.translate j b).map _
    cases hq : k.translate j b with
    | none => rfl
    | some q =>
      have hne : q.pfn ≠ p.pfn := fun hpfn => by
        rw [Pte.allows, h.isolated.readOnly i j _ _ p q hij hp hq hpfn.symm hi hj] at hw
        cases hw
      simp only [Option.map_some, pokeByte, fillPage, Function.update_of_ne hne]

/-- In every run whose calls meet the condition: a frame that two address spaces
have outside shared areas is writable in neither, and no store through a private
page changes what another address space reads through one. -/
theorem private_pages_isolated {k0 k : Kernel} {calls : List (Env × MemOp)} (hstart : k0.NoPages)
    (hrun : Run (Guarded MemOk (ofFun memStep)) k0 calls k) {i j : MmId} (hij : i ≠ j) :
    (∀ n m p q, k.pte i n = some p → k.pte j m = some q → p.pfn = q.pfn → ¬ k.SharedAt i n →
      ¬ k.SharedAt j m → p.flags.writable = false ∧ q.flags.writable = false) ∧
    ∀ a b byte, ¬ k.SharedAt i (pageNumber a) → ¬ k.SharedAt j (pageNumber b) →
      (k.store i a byte).load j b = k.load j b := by
  have hinv : k.Inv fun f => ¬ (k0.frames f).Free := by
    refine hrun.invariant (Inv fun f => ¬ (k0.frames f).Free) ?_ hstart.inv
    rintro k call _ hk ⟨hok, rfl⟩
    exact memStep_inv hk hok
  refine ⟨fun n m p q hp hq hpfn hi hj => ⟨?_, ?_⟩, fun a b byte hi hj =>
    hinv.load_store hij byte hi hj⟩
  · exact hinv.isolated.readOnly i j n m p q hij hp hq hpfn hi hj
  · exact hinv.isolated.readOnly j i m n q p hij.symm hq hp hpfn.symm hj hi

/-! ### Two processes and one frame -/

/-- One address space without areas; all frames are free. -/
def oneMm : Kernel where
  frames := fun _ => ⟨0, -1, false⟩
  memory := fun _ _ => 0
  mms := OrdMap.empty.insert 1 Mm.init
  fs := .new
  env := {}

theorem noPages_oneMm : oneMm.NoPages := by
  refine ⟨fun id mm hid => ?_, fun _ _ => rfl⟩
  rw [oneMm, OrdMap.get?_insert] at hid
  split at hid
  · cases hid
    exact ⟨rfl, fun a ha => absurd ha (not_mem_empty a), by decide⟩
  · cases hid

/-- A fixed private anonymous mapping of one page. -/
def mapAt (addr : ℕ) (prot : UInt32) : MemOp :=
  .mmap 1 1 ⟨addr, pageSize, prot, mapPrivate ||| mapAnonymous ||| mapFixed, 0, 0⟩

/-- A store to a page that is not present. -/
def touch (addr : ℕ) : MemOp := .fault [] 1 addr ⟨false, true, false⟩

/-- A private page is made read-only and writable again before the fork. -/
def protectThenFork : List (Env × MemOp) :=
  [({}, mapAt userSpaceStart (protRead ||| protWrite)),
    ({ frames := [some 5] }, touch userSpaceStart),
    ({}, .mprotect 1 userSpaceStart pageSize protRead),
    ({}, .mprotect 1 userSpaceStart pageSize (protRead ||| protWrite)),
    ({ mmAddr := some 2 }, .clone 1)]

theorem private_pages_isolated_protectThenFork :
    oneMm.NoPages ∧ ∃ k, Run (Guarded MemOk (ofFun memStep)) oneMm protectThenFork k ∧
      ((∀ n m p q, k.pte 1 n = some p → k.pte 2 m = some q → p.pfn = q.pfn → ¬ k.SharedAt 1 n →
        ¬ k.SharedAt 2 m → p.flags.writable = false ∧ q.flags.writable = false) ∧
      ∀ a b byte, ¬ k.SharedAt 1 (pageNumber a) → ¬ k.SharedAt 2 (pageNumber b) →
        (k.store 1 a byte).load 2 b = k.load 2 b) ∧
      k.translate 1 userSpaceStart = some ⟨5, ⟨false, true⟩⟩ ∧
      k.translate 2 userSpaceStart = some ⟨5, ⟨false, true⟩⟩ := by
  refine ⟨noPages_oneMm, Run.exists_of_exec_total (by decide) fun _ hrun h => ⟨?_, h⟩⟩
  exact private_pages_isolated noPages_oneMm hrun (by decide)

/-- After the calls the private frame of an address is shared and writable, and
a store of the first address space is seen in the second. -/
def SharesWritable (calls : List (Env × MemOp)) (addr : ℕ) : Prop :=
  ∃ k, Run (ofFun memStep) oneMm calls k ∧
    ¬ k.SharedAt 1 (pageNumber addr) ∧ ¬ k.SharedAt 2 (pageNumber addr) ∧
    (∃ p q, k.translate 1 addr = some p ∧ k.translate 2 addr = some q ∧ p.pfn = q.pfn ∧
      p.flags.writable = true) ∧
    (k.store 1 addr 7).load 2 addr ≠ k.load 2 addr

theorem sharesWritable_of_exec {calls : List (Env × MemOp)} {addr : ℕ}
    (hexec : Executes (fun _ _ => True) (fun k call => some (memStep k call)) oneMm calls fun k =>
      ¬ k.SharedAt 1 (pageNumber addr) ∧ ¬ k.SharedAt 2 (pageNumber addr) ∧
      (∃ p ∈ k.translate 1 addr, ∃ q ∈ k.translate 2 addr, p.pfn = q.pfn ∧
        p.flags.writable = true) ∧
      (k.store 1 addr 7).load 2 addr ≠ k.load 2 addr) : SharesWritable calls addr := by
  obtain ⟨k, hrun, hone, htwo, ⟨p, hp, q, hq, hpq⟩, hseen⟩ :=
    Run.exists_of_exec_total hexec fun _ _ h => h
  exact ⟨k, hrun.mono fun _ _ _ h => h.2, hone, htwo, ⟨p, q, hp, hq, hpq⟩, hseen⟩

/-- Where the first `brk` places the heap. -/
def firstHeap : ℕ := 0x1400000

/-- `mprotect` after a fork, with the protection that the area already has. And
a page that shrinking the heap has left behind, below a read-only mapping when
the process forks. -/
theorem private_page_writable_twice :
    SharesWritable
      [({}, mapAt userSpaceStart (protRead ||| protWrite)),
        ({ frames := [some 5] }, touch userSpaceStart),
        ({ mmAddr := some 2 }, .clone 1),
        ({}, .mprotect 1 userSpaceStart pageSize (protRead ||| protWrite))] userSpaceStart ∧
    SharesWritable
      [({}, .brk 1 (firstHeap + 2 * pageSize)),
        ({ frames := [some 5] }, touch (firstHeap + pageSize)),
        ({}, .brk 1 (firstHeap + pageSize)),
        ({}, mapAt (firstHeap + pageSize) protRead),
        ({ mmAddr := some 2 }, .clone 1)] (firstHeap + pageSize) :=
  ⟨sharesWritable_of_exec (by decide), sharesWritable_of_exec (by decide)⟩

end Kernel

end JanuaryOs.Virt

import JanuaryOs.Lib.Trace
import JanuaryOs.Virt.FaultSpec
import JanuaryOs.Virt.UserAccess

/-!
# Which accesses to user memory stop the machine

`page_fault_handler` returns only if `handle_page_fault` answers `Retry`; every
other answer ends in a panic, whether a program made the access or the kernel
for a system call. `validate_user_range` looks at the bounds of a range only. So
the machine goes on exactly as long as every access finds a page that allows it,
or an area that does and the memory to fill the page.
-/

namespace JanuaryOs.Virt

open Lib
open Proc (ExecMappedPage)

namespace Kernel

/-! ### Accesses -/

section

variable (recorded : List ExecMappedPage) (id : MmId)

/-- The processor makes an access, once; nothing if the machine stops. -/
def attempt (k : Kernel) (a : ℕ × Access) : Option (Unit × Kernel) :=
  if (k.accessible id a.1 a.2).isSome then some ((), k)
  else (k.pageFaultHandler recorded id a.1 (k.faultError id a.1 a.2)).map ((), ·)

/-- The accesses to a range of bytes. After a fault that was resolved each is
made again, as often as `retries` says; one that the page table allows by then
changes nothing. -/
def rangeAccesses (retries ptr size : ℕ) (kind : Access) : List (ℕ × Access) :=
  (List.range size).flatMap fun i => List.replicate (retries + 1) (ptr + i, kind)

/-- `read_user_struct` and `write_user_struct`: the range is checked, then
accessed. -/
def userStruct (retries ptr size : ℕ) (kind : Access) (k : Kernel) :
    Option (Except Errno Unit × Kernel) :=
  match validateUserRange ptr size with
  | .error e => some (.error e, k)
  | .ok _ =>
    (runOps (attempt recorded id) k (rangeAccesses retries ptr size kind)).map fun r =>
    (.ok (), r.2)

end

/-! ### What can be resolved -/

def HasFrame (k : Kernel) : Prop := k.allocPage.1.isSome
deriving Decidable

/-- The tables for a page are there or can be had. -/
def canMap (k : Kernel) (id : MmId) (addr : ℕ) : Bool :=
  match k.mms.get? id with
  | none => false
  | some mm => (mm.translate addr).isSome || (k.reachLeafTable mm addr).1

/-- What is needed to fill a page that is not present. -/
def Fillable (k : Kernel) (recorded : List ExecMappedPage) (vma : Vma) (page : ℕ) : Prop :=
  if vma.value.flags.anonymous then k.HasFrame
  else match vma.value.file with
    | some backing =>
      k.HasFrame ∧ ∃ offset ∈ fileOffset vma page, (k.fileData backing offset).isSome
    | none => ∃ m ∈ recorded.find? fun m => m.virt = page, m.phys ≠ 0

/-- A fault in an area can be resolved. -/
def Resolvable (k : Kernel) (recorded : List ExecMappedPage) (id : MmId) (vma : Vma) (page : ℕ)
    (error : PageFaultError) : Prop :=
  checkAccessPermissions vma.value.flags error ∧ k.canMap id page ∧
    if error.present then error.write ∧ vma.value.flags.mayWrite ∧
      ∃ old ∈ k.translate id page, (k.frames old.pfn).refcount = 1 ∨ k.HasFrame
    else k.Fillable recorded vma page

/-- The area of an address, with the stack grown down to it if need be. -/
def faultArea (k : Kernel) (id : MmId) (addr : ℕ) : Option (Vma × Kernel) :=
  (k.mms.get? id).bind fun mm =>
    match mm.findVma addr with
    | some vma => some (vma, k)
    | none =>
      match mm.expandStackForFault addr with
      | (some vma, mm) => some (vma, k.setMm id mm)
      | (none, _) => none

/-- The machine survives the access. -/
def Contained (recorded : List ExecMappedPage) (id : MmId) (k : Kernel) (a : ℕ × Access) : Prop :=
  (k.accessible id a.1 a.2).isSome ∨ a.1 < kernelFaultBase ∧ ∃ area ∈ k.faultArea id a.1,
    area.2.Resolvable recorded id area.1 (pageAlignDown a.1) (k.faultError id a.1 a.2)

variable {k k' : Kernel} {recorded : List ExecMappedPage} {id : MmId} {vma : Vma} {addr : ℕ}
  {error : PageFaultError}

/-- What decides whether a page can be mapped and filled is the same. -/
structure SameSources (k k' : Kernel) : Prop where
  mms : k'.mms = k.mms
  tables : k'.env.tables = k.env.tables
  readPage : k'.env.readPage = k.env.readPage
  fs : k'.fs = k.fs

theorem allocPage_sameSources (k : Kernel) : SameSources k k.allocPage.2 := by
  obtain ⟨frames, supply, heq⟩ := k.allocPage_changes
  rw [heq]
  exact ⟨rfl, rfl, rfl, rfl⟩

theorem mapPage_fst (h : SameSources k k') (f : Pfn) (flags : PteFlags) :
    (k'.mapPage id addr f flags).1 = k.canMap id addr := by
  unfold mapPage canMap
  rw [h.mms]
  cases k.mms.get? id with
  | none => rfl
  | some mm =>
    simp only
    cases mm.translate addr with
    | some old => rfl
    | none =>
      have hreach : (k'.reachLeafTable mm addr).1 = (k.reachLeafTable mm addr).1 := by
        unfold reachLeafTable
        rw [h.tables]
        dsimp only
        split
        · rfl
        · cases k.env.tables <;> rfl
      simp only [Option.isSome_none, Bool.false_or, ← hreach]
      generalize k'.reachLeafTable mm addr = res
      obtain ⟨_ | _, k1⟩ := res <;> rfl

theorem mapNewPage_retry (h : SameSources k k') (f : Pfn) (data : PageData) (flags : PteFlags) :
    ((k'.fillPage f data).mapNewPage id addr f flags).1 = .retry ↔ k.canMap id addr := by
  have hfill : SameSources k (k'.fillPage f data) := ⟨h.mms, h.tables, h.readPage, h.fs⟩
  have hmap : ((k'.fillPage f data).mapPage id addr f flags).1 = k.canMap id addr :=
    mapPage_fst hfill f flags
  unfold mapNewPage
  rw [← hmap]
  generalize (k'.fillPage f data).mapPage id addr f flags = res
  obtain ⟨_ | _, k1⟩ := res <;> simp

/-- A branch that begins with an allocation. -/
theorem alloc_retry {next : Pfn → Kernel → FaultResult × Kernel} {p : Prop}
    (hnext : ∀ f k', SameSources k k' → ((next f k').1 = .retry ↔ p)) :
    (match k.allocPage with
      | (none, k) => (FaultResult.oom, k)
      | (some f, k) => next f k).1 = .retry ↔ k.HasFrame ∧ p := by
  have hsame := k.allocPage_sameSources
  unfold HasFrame
  generalize k.allocPage = res at hsame
  obtain ⟨_ | f, k1⟩ := res
  · simp
  · simpa using hnext f k1 hsame

theorem handleNotPresent_retry :
    (k.handleNotPresent recorded id vma addr).1 = .retry ↔
      k.canMap id addr ∧ k.Fillable recorded vma addr := by
  unfold handleNotPresent Fillable
  split
  · rw [and_comm]
    exact alloc_retry fun f k' h => mapNewPage_retry h ..
  unfold handleFileFault
  cases vma.value.file with
  | some backing =>
    unfold mapFilePage
    cases hoffset : fileOffset vma addr with
    | none => simp
    | some offset =>
      refine (alloc_retry (p := k.canMap id addr ∧ (k.fileData backing offset).isSome)
        fun f k' h => ?_).trans ?_
      · have hdata : k'.fileData backing offset = k.fileData backing offset := by
          rw [fileData, fileData, h.fs, h.readPage]
        rw [← fileData, hdata]
        cases k.fileData backing offset with
        | none => simp
        | some data => simpa using mapNewPage_retry h f data _
      · simp only [Option.mem_some, exists_eq_left']
        tauto
  | none =>
    unfold mapRecordedPage
    cases recorded.find? fun m => m.virt = addr with
    | none => simp
    | some m =>
      dsimp only
      by_cases hphys : m.phys = 0
      · simp [hphys]
      · rw [if_neg hphys, ← mapPage_fst ⟨rfl, rfl, rfl, rfl⟩ m.phys m.flags]
        generalize k.mapPage id addr m.phys m.flags = res
        obtain ⟨_ | _, k1⟩ := res <;> simp [hphys]

theorem handleWriteProtection_retry :
    (k.handleWriteProtection id vma addr).1 = .retry ↔
      k.canMap id addr ∧ vma.value.flags.mayWrite ∧
        ∃ old ∈ k.translate id addr, (k.frames old.pfn).refcount = 1 ∨ k.HasFrame := by
  unfold handleWriteProtection
  cases hmay : vma.value.flags.mayWrite with
  | false => simp
  | true =>
    cases k.translate id addr with
    | none => simp
    | some old =>
      simp only [Bool.not_true, Bool.false_eq_true, if_false, Option.mem_some, exists_eq_left',
        true_and]
      by_cases hone : (k.frames old.pfn).refcount = 1
      · rw [if_pos hone, ← mapPage_fst ⟨rfl, rfl, rfl, rfl⟩ old.pfn vma.value.flags.toUserPteFlags]
        generalize k.mapPage id addr old.pfn vma.value.flags.toUserPteFlags = res
        obtain ⟨_ | _, k1⟩ := res <;> simp [hone]
      · rw [if_neg hone, or_iff_right hone, and_comm]
        exact alloc_retry fun f k' h => mapNewPage_retry h ..

theorem handleVmaFault_retry :
    (k.handleVmaFault recorded id vma addr error).1 = .retry ↔
      k.Resolvable recorded id vma (pageAlignDown addr) error := by
  unfold handleVmaFault Resolvable
  cases hperm : checkAccessPermissions vma.value.flags error with
  | false => simp
  | true =>
    cases error.present with
    | false => simpa using handleNotPresent_retry
    | true =>
      cases error.write with
      | false => simp
      | true => simpa using handleWriteProtection_retry

theorem handlePageFault_retry :
    (k.handlePageFault recorded id addr error).1 = .retry ↔ addr < kernelFaultBase ∧
      ∃ area ∈ k.faultArea id addr,
        area.2.Resolvable recorded id area.1 (pageAlignDown addr) error := by
  rw [handlePageFault, faultArea]
  by_cases haddr : kernelFaultBase ≤ addr
  · rw [if_pos haddr]
    exact ⟨nofun, fun h => absurd haddr (Nat.not_le.2 h.1)⟩
  rw [if_neg haddr, and_iff_right (Nat.lt_of_not_le haddr)]
  cases k.mms.get? id with
  | none => simp
  | some mm =>
    simp only [Option.bind_some]
    cases mm.findVma addr with
    | some vma => simpa using handleVmaFault_retry
    | none =>
      rcases mm.expandStackForFault addr with ⟨_ | vma, mm'⟩
      · simp
      · simpa using handleVmaFault_retry

theorem attempt_isSome (recorded : List ExecMappedPage) (id : MmId) (k : Kernel) (a : ℕ × Access) :
    (k.attempt recorded id a).isSome ↔ k.Contained recorded id a := by
  have hhandler : (k.pageFaultHandler recorded id a.1 (k.faultError id a.1 a.2)).isSome ↔
      (k.handlePageFault recorded id a.1 (k.faultError id a.1 a.2)).1 = .retry := by
    unfold pageFaultHandler
    generalize k.handlePageFault recorded id a.1 (k.faultError id a.1 a.2) = res
    obtain ⟨_ | _ | _ | _ | _, k1⟩ := res <;> simp
  unfold attempt Contained
  cases k.accessible id a.1 a.2 with
  | some pte => simp
  | none => simpa using hhandler.trans handlePageFault_retry

/-- A process whose address space is empty. -/
def emptySpace : Kernel where
  frames := fun _ => ⟨0, -1, false⟩
  memory := fun _ _ => 0
  mms := OrdMap.empty.insert 1 Mm.init
  fs := .new
  env := {}

end Kernel

end JanuaryOs.Virt

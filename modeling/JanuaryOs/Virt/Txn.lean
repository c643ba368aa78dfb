import JanuaryOs.Virt.Kernel

/-!
# Changes of a range of areas in one transaction (`mm/syscall/txn.rs`)

`mprotect` splits areas and changes the flags of a part, `munmap` cuts a part
out.

Both plan the whole change first. A plan is a list of `VmaEdit`: an area that
goes and the pieces of it that stay. The source keeps the same plan as three
vectors, `removed`, `inserted` and `backing_adjusts`, which are the originals,
all pieces in order, and one entry for each original that has a file. Then come
the references to the backings, the removal of all originals and the insertion
of all pieces, each with its way back.
-/

namespace JanuaryOs.Virt

open Lib Libs.Mptree Fs

/-! ### Plans -/

/-- An area that is removed and the pieces of it that are inserted again. -/
structure VmaEdit where
  original : Vma
  kept : List Vma

def cloneVmaSlice (base : Vma) (start stop : ℕ) : Vma :=
  ⟨start, stop, { base.value with
    pgoff := satAdd u64Max base.value.pgoff ((start - base.start) / pageSize) }⟩

/-- The piece of an area before a cut. -/
def headSlice (base : Vma) (cut : ℕ) : List Vma :=
  if base.start < cut then [cloneVmaSlice base base.start cut] else []

/-- The piece of an area after a cut. -/
def tailSlice (base : Vma) (cut : ℕ) : List Vma :=
  if cut < base.stop then [cloneVmaSlice base cut base.stop] else []

def mprotectFlagsFromProt (old : VmFlags) (prot : UInt32) : VmFlags :=
  { old with
    read := hasBit prot protRead
    write := hasBit prot protWrite
    exec := hasBit prot protExec
    mayWrite := hasBit prot protWrite || old.mayWrite }

/-- A range of pages that gets other flags. -/
structure PteUpdate where
  start : ℕ
  stop : ℕ
  oldFlags : PteFlags
  newFlags : PteFlags

/-- The middle piece of an area whose protection changes from `start` to `stop`. -/
def protectedSlice (base : Vma) (start stop : ℕ) (prot : UInt32) : Vma :=
  let slice := cloneVmaSlice base start stop
  ⟨start, stop, { slice.value with flags := mprotectFlagsFromProt base.value.flags prot }⟩

/-- One round of `plan_mprotect_updates`. -/
def mprotectEdit (vma : Vma) (segStart segEnd : ℕ) (prot : UInt32) : VmaEdit × PteUpdate :=
  let prot' := protectedSlice vma segStart segEnd prot
  (⟨vma, headSlice vma segStart ++ prot' :: tailSlice vma segEnd⟩,
    ⟨segStart, segEnd, vma.value.flags.toUserPteFlags, prot'.value.flags.toUserPteFlags⟩)

/-- The loop of `plan_mprotect_updates`. Every round moves the cursor, so `stop
- cursor` rounds are enough. -/
def planMprotectLoop (tree : MapleTree VmaInfo) (stop : ℕ) (prot : UInt32) :
    ℕ → ℕ → Except Errno (List (VmaEdit × PteUpdate))
  | 0, _ => .ok []
  | fuel + 1, cursor =>
    if cursor < stop then
      match tree.find cursor with
      | none => .error .ENOMEM
      | some vma =>
        let segEnd := min vma.stop stop
        match planMprotectLoop tree stop prot fuel segEnd with
        | .error e => .error e
        | .ok rest => .ok (mprotectEdit vma cursor segEnd prot :: rest)
    else .ok []

def planMprotectUpdates (tree : MapleTree VmaInfo) (start stop : ℕ) (prot : UInt32) :
    Except Errno (List (VmaEdit × PteUpdate)) :=
  planMprotectLoop tree stop prot (stop - start) start

/-- The loop of `plan_unmap_changes`, with the ranges to unmap. -/
def planUnmapLoop (tree : MapleTree VmaInfo) (addr stop : ℕ) : ℕ → ℕ → List (VmaEdit × ℕ × ℕ)
  | 0, _ => []
  | fuel + 1, cursor =>
    match tree.firstIntersecting cursor stop with
    | none => []
    | some vma =>
      let cutStart := max vma.start addr
      let cutEnd := min vma.stop stop
      let edit := (⟨vma, headSlice vma cutStart ++ tailSlice vma cutEnd⟩, cutStart, cutEnd)
      if stop ≤ cutEnd then [edit] else edit :: planUnmapLoop tree addr stop fuel cutEnd

/-- `plan_unmap_changes`, which never fails. -/
def planUnmapChanges (tree : MapleTree VmaInfo) (addr stop : ℕ) : List (VmaEdit × ℕ × ℕ) :=
  planUnmapLoop tree addr stop (stop - addr) addr

/-! ### References to backings -/

/-- How the references to a backing change with an edit. -/
structure BackingAdjust where
  backingId : ℕ
  retainCount : ℕ
  releaseCount : ℕ

/-- `backing_adjust_for_segments`. -/
def VmaEdit.adjust (e : VmaEdit) : Option BackingAdjust :=
  e.original.value.file.map fun id =>
    ⟨id, e.kept.length - 1, if e.kept.length = 0 then 1 else 0⟩

variable (edits : List VmaEdit)

/-- The backings that the edits retain, one entry for each reference. -/
def retainedBy : List ℕ :=
  (edits.filterMap VmaEdit.adjust).flatMap fun a => List.replicate a.retainCount a.backingId

def releasedBy : List ℕ :=
  (edits.filterMap VmaEdit.adjust).flatMap fun a => List.replicate a.releaseCount a.backingId

def releaseBackings (ids : List ℕ) (fs : FsState) : FsState :=
  ids.foldl FsState.releaseMmapBacking fs

/-- The loop of `apply_backing_retains`; `retained` is what it has taken so far,
the last one first. -/
def retainLoop : List ℕ → List ℕ → FsState → Except Errno Unit × FsState
  | [], _, fs => (.ok (), fs)
  | id :: rest, retained, fs =>
    match fs.retainMmapBacking id with
    | (.error e, fs) => (.error e, releaseBackings retained fs)
    | (.ok _, fs) => retainLoop rest (id :: retained) fs

def applyBackingRetains (fs : FsState) : Except Errno Unit × FsState :=
  retainLoop (retainedBy edits) [] fs

def rollbackBackingRetains (fs : FsState) : FsState :=
  releaseBackings (retainedBy edits).reverse fs

def applyBackingReleases (fs : FsState) : FsState :=
  releaseBackings (releasedBy edits) fs

/-! ### Areas -/

namespace Mm

/-- `mm_insert_vma_locked`. -/
def insertVmaLocked (mm : Mm) (segment : Vma) : Bool × Mm :=
  let nrPages := u64Sub segment.stop segment.start / pageSize
  match mm.vmaTree.insert segment.start segment.stop segment.value with
  | .error _ => (false, mm)
  | .ok tree =>
    (true, { mm with
      vmaTree := tree
      vmaCount := satAdd u32Max mm.vmaCount 1
      totalVm := satAdd u64Max mm.totalVm nrPages
      execVm := if segment.value.flags.exec then satAdd u64Max mm.execVm nrPages else mm.execVm
      stackVm :=
        if segment.value.flags.growsdown then satAdd u64Max mm.stackVm nrPages else mm.stackVm })

/-- `mm_remove_vma_locked`. -/
def removeVmaLocked (mm : Mm) (start : ℕ) : Option Vma × Mm :=
  match mm.vmaTree.remove start with
  | (none, _) => (none, mm)
  | (some vma, tree) =>
    let nrPages := u64Sub vma.stop start / pageSize
    (some vma, { mm with
      vmaTree := tree
      vmaCount := mm.vmaCount - 1
      totalVm := mm.totalVm - nrPages
      execVm := if vma.value.flags.exec then mm.execVm - nrPages else mm.execVm
      stackVm := if vma.value.flags.growsdown then mm.stackVm - nrPages else mm.stackVm })

/-- Remove areas one after the other; stops at the first that is missing. -/
def removeSegments : List Vma → Mm → Bool × Mm
  | [], mm => (true, mm)
  | segment :: rest, mm =>
    match mm.removeVmaLocked segment.start with
    | (none, mm) => (false, mm)
    | (some _, mm) => removeSegments rest mm

/-- `rollback_vma_transaction`; `inserted` with the last one first. -/
def rollbackVmaTransaction (mm : Mm) (removed inserted : List Vma) : Mm :=
  removed.foldl (fun mm segment => (mm.insertVmaLocked segment).2)
    (inserted.foldl (fun mm segment => (mm.removeVmaLocked segment.start).2) mm)

/-- Insert areas one after the other, or put the removed ones back. -/
def insertSegments (removed : List Vma) : List Vma → List Vma → Mm → Bool × Mm
  | [], _, mm => (true, mm)
  | segment :: rest, inserted, mm =>
    match mm.insertVmaLocked segment with
    | (false, mm) => (false, mm.rollbackVmaTransaction removed inserted)
    | (true, mm) => insertSegments removed rest (segment :: inserted) mm

/-- Remove the originals of the edits and insert the pieces. -/
def replaceSegments (mm : Mm) (edits : List VmaEdit) : Bool × Mm :=
  let removed := edits.map VmaEdit.original
  match removeSegments removed mm with
  | (false, mm) => (false, mm)
  | (true, mm) => insertSegments removed (edits.flatMap VmaEdit.kept) [] mm

end Mm

/-! ### Transactions -/

namespace Kernel

variable (k : Kernel)

/-- The part that `mprotect_range_for_mm` and `collect_unmap_ranges_for_mm`
share: take the references, then exchange the areas. -/
def commitVmaEdits (id : MmId) (mm : Mm) (edits : List VmaEdit) :
    Except Errno Unit × Kernel :=
  match applyBackingRetains edits k.fs with
  | (.error e, fs) => (.error e, { k with fs := fs })
  | (.ok _, fs) =>
    match mm.replaceSegments edits with
    | (true, mm) => (.ok (), { k with fs := fs }.setMm id mm)
    | (false, mm) =>
      (.error .EBUSY, { k with fs := rollbackBackingRetains edits fs }.setMm id mm)

/-- The loop of `apply_pte_flags_range`. -/
def applyPteFlags (id : MmId) (flags : PteFlags) :
    List ℕ → Kernel → Except Errno Unit × Kernel
  | [], k => (.ok (), k)
  | addr :: rest, k =>
    match k.translate id addr with
    | none => applyPteFlags id flags rest k
    | some pte =>
      match k.mapPage id addr pte.pfn flags with
      | (false, k) => (.error .ENOMEM, k)
      | (true, k) => applyPteFlags id flags rest k

def applyPteFlagsRange (id : MmId) (start stop : ℕ) (flags : PteFlags) :
    Except Errno Unit × Kernel :=
  applyPteFlags id flags (pagesIn start stop) k

/-- Give ranges their old flags again, the last one first. -/
def revertPteUpdates (id : MmId) (applied : List PteUpdate) : Kernel :=
  applied.foldl (fun k u => (k.applyPteFlagsRange id u.start u.stop u.oldFlags).2) k

/-- The last loop of `mprotect_range_for_mm`. -/
def applyPteUpdates (id : MmId) (edits : List VmaEdit) :
    List PteUpdate → List PteUpdate → Kernel → Except Errno Unit × Kernel
  | [], _, k => (.ok (), k)
  | u :: rest, applied, k =>
    match k.applyPteFlagsRange id u.start u.stop u.newFlags with
    | (.ok _, k) => applyPteUpdates id edits rest (u :: applied) k
    | (.error e, k) =>
      let k := k.revertPteUpdates id applied
      let k := { k with
        fs := rollbackBackingRetains edits k.fs
        mms := k.mms.modify id fun mm => mm.rollbackVmaTransaction
          (edits.map VmaEdit.original) (edits.flatMap VmaEdit.kept).reverse }
      (.error e, k)

def mprotectRangeForMm (id : MmId) (mm : Mm) (start stop : ℕ) (prot : UInt32) :
    Except Errno Unit × Kernel :=
  match planMprotectUpdates mm.vmaTree start stop prot with
  | .error e => (.error e, k)
  | .ok plan =>
    let edits := plan.map Prod.fst
    match k.commitVmaEdits id mm edits with
    | (.error e, k) => (.error e, k)
    | (.ok _, k) => applyPteUpdates id edits (plan.map Prod.snd) [] k

def collectUnmapRangesForMm (id : MmId) (mm : Mm) (addr stop : ℕ) :
    Except Errno (List (ℕ × ℕ)) × Kernel :=
  let plan := planUnmapChanges mm.vmaTree addr stop
  let edits := plan.map Prod.fst
  match k.commitVmaEdits id mm edits with
  | (.error e, k) => (.error e, k)
  | (.ok _, k) =>
    (.ok (plan.map Prod.snd), { k with fs := applyBackingReleases edits k.fs })

end Kernel

end JanuaryOs.Virt

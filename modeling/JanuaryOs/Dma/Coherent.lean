import JanuaryOs.Dma.Swiotlb
import JanuaryOs.Dma.Vtd

/-!
# The DMA interface (`mm/dma/mod.rs`): the choice of a backend, mappings, coherent buffers

The configuration is a parameter. A unit that the ACPI tables describe comes
with the answers that the page allocator will give to it. Statistics and
warnings are left out, and so is what a unit whose set-up failed wrote to pages
that nobody uses.
-/

namespace JanuaryOs.Dma

open Lib Phys

inductive IommuType
  | none
  | intelVtd
  | amdVi
  | swiotlb
  deriving DecidableEq, Repr

inductive DmaTrackState
  | empty
  | live
  | freeing
  deriving DecidableEq, Repr

structure DmaCoherentMeta where
  state : DmaTrackState
  virt : ℕ
  dma : ℕ
  size : ℕ
  pfn : ℕ
  order : ℕ
  deriving DecidableEq, Repr

def DmaCoherentMeta.empty : DmaCoherentMeta := ⟨.empty, 0, 0, 0, 0, 0⟩

def dmaCoherentTrackCap : ℕ := 256

/-- The entries of `DmaCoherentTracker`. -/
abbrev DmaCoherentTracker := List DmaCoherentMeta

namespace DmaCoherentTracker

def new : DmaCoherentTracker := List.replicate dmaCoherentTrackCap .empty

/-- `insert`: into the first empty entry. -/
def insert (info : DmaCoherentMeta) : DmaCoherentTracker → Option DmaCoherentTracker
  | [] => none
  | slot :: rest =>
    if slot.state = .empty then some ({ info with state := .live } :: rest)
    else (insert info rest).map (slot :: ·)

/-- The entry that `find_by_virt` finds, replaced by what a function makes of
it. -/
def modifyByVirt (virt : ℕ) (f : DmaCoherentMeta → DmaCoherentMeta) :
    DmaCoherentTracker → DmaCoherentTracker
  | [] => []
  | slot :: rest =>
    if slot.state ≠ .empty ∧ slot.virt = virt then f slot :: rest
    else slot :: modifyByVirt virt f rest

def findByVirt (t : DmaCoherentTracker) (virt : ℕ) : Option DmaCoherentMeta :=
  t.find? fun slot => slot.state ≠ .empty ∧ slot.virt = virt

def rollbackCoherentFree (t : DmaCoherentTracker) (info : DmaCoherentMeta) : DmaCoherentTracker :=
  modifyByVirt info.virt (fun slot =>
    if slot.state = .freeing ∧ slot.dma = info.dma then { info with state := .live } else slot) t

def commitCoherentFree (t : DmaCoherentTracker) (info : DmaCoherentMeta) : DmaCoherentTracker :=
  modifyByVirt info.virt (fun slot =>
    if slot.state = .freeing ∧ slot.dma = info.dma then .empty else slot) t

end DmaCoherentTracker

/-! ### The manager -/

/-- The manager of the backends with everything it works on. -/
structure DmaState where
  enabled : Bool
  iommuType : IommuType
  translationMode : TranslationMode
  nrVtdUnits : ℕ
  /-- The units; their tables are in `tables`. -/
  vtdUnits : List (Option VtdUnit)
  swiotlb : Option Swiotlb
  directMapOffset : ℕ
  /-- Memory, for the copies of the bounce buffer. -/
  mem : ByteMem
  /-- Memory, for the tables of the units. -/
  tables : Tables ℕ
  phys : PhysState
  tracker : DmaCoherentTracker

/-- `IOMMU_ENABLED`, `IOMMU_AUTO_DETECT` and `IOMMU_PASSTHROUGH`. -/
structure DmaConfig where
  enabled : Bool
  autoDetect : Bool
  passthrough : Bool
  deriving DecidableEq, Repr

/-- A remapping unit of the DMAR table. -/
structure Drhd where
  canPassThrough : Bool
  supply : List (Option ℕ)

def maxIommuUnits : ℕ := 8

/-- The unit with the memory that all units share. -/
def VtdUnit.onTables (u : VtdUnit) (tables : Tables ℕ) : VtdUnit := { u with mem := tables }

/-- The loop of `try_init_vtd`. -/
def initUnits (mode : TranslationMode) : List Drhd → Tables ℕ → List (Option VtdUnit) × Tables ℕ
  | [], tables => ([], tables)
  | drhd :: drhds, tables =>
    match (VtdUnit.new tables drhd.supply).init mode drhd.canPassThrough with
    | .ok u => ((initUnits mode drhds u.mem).map (some u :: ·) id)
    | .error _ => ((initUnits mode drhds tables).map (none :: ·) id)

namespace DmaState

/-- The static before `init`. -/
def new (mem : ByteMem) (tables : Tables ℕ) (phys : PhysState) : DmaState where
  enabled := false
  iommuType := .none
  translationMode := .passthrough
  nrVtdUnits := 0
  vtdUnits := List.replicate maxIommuUnits none
  swiotlb := none
  directMapOffset := 0
  mem := mem
  tables := tables
  phys := phys
  tracker := .new

variable (s : DmaState)

/-- `init_swiotlb`, with the buffer that was found. -/
def initSwiotlb (buffer : BounceBuffer) : DmaState :=
  { s with swiotlb := some (Swiotlb.new buffer), iommuType := .swiotlb, enabled := true }

/-- `init`, for the first time. -/
def init (config : DmaConfig) (drhds : List Drhd) (buffer : BounceBuffer) (directMapOffset : ℕ) :
    DmaState :=
  let mode := if config.passthrough then .passthrough else .translate
  let s := { s with directMapOffset := directMapOffset, translationMode := mode }
  if !config.enabled && !config.autoDetect then s.initSwiotlb buffer
  else
    let (units, tables) := initUnits mode (drhds.take maxIommuUnits) s.tables
    let nr := units.countP Option.isSome
    let s := { s with vtdUnits := units, nrVtdUnits := nr, tables := tables }
    if 0 < nr then { s with iommuType := .intelVtd, enabled := true } else s.initSwiotlb buffer

/-! ### Mappings -/

def sizeToPages (size : ℕ) : Option ℕ :=
  if size = 0 then none
  else (checkedAdd size (pageSize - 1)).bind fun rounded =>
    if rounded / pageSize ≠ 0 then some (rounded / pageSize) else none

def pagesToOrder (pages : ℕ) : Option ℕ := if pages = 0 then none else some (getOrder pages)

/-- The loop of `vtd_map` over the units: the first that can map does. -/
def mapOnUnits (phys size : ℕ) : List (Option VtdUnit) → Tables ℕ →
    Option ℕ × List (Option VtdUnit) × Tables ℕ
  | [], tables => (none, [], tables)
  | none :: units, tables =>
    let (dma, units, tables) := mapOnUnits phys size units tables
    (dma, none :: units, tables)
  | some u :: units, tables =>
    match (u.onTables tables).mapPages phys size with
    | (some dma, u) => (some dma, some u :: units, u.mem)
    | (none, u) =>
      let (dma, units, tables) := mapOnUnits phys size units u.mem
      (dma, some u :: units, tables)

def vtdMap (phys size : ℕ) : ℕ × DmaState :=
  if s.translationMode = .passthrough then (phys, s)
  else
    match sizeToPages size with
    | none => (0, s)
    | some _ =>
      let (dma, units, tables) := mapOnUnits phys size (s.vtdUnits.take s.nrVtdUnits) s.tables
      (dma.getD 0, { s with vtdUnits := units ++ s.vtdUnits.drop s.nrVtdUnits, tables := tables })

/-- The loop of `vtd_unmap` over the units. -/
def unmapOnUnits (dma size : ℕ) : List (Option VtdUnit) → Tables ℕ →
    List (Option VtdUnit) × Tables ℕ
  | [], tables => ([], tables)
  | none :: units, tables => (unmapOnUnits dma size units tables).map (none :: ·) id
  | some u :: units, tables =>
    let u := (u.onTables tables).unmapPages dma size
    (unmapOnUnits dma size units u.mem).map (some u :: ·) id

def vtdUnmap (dma size : ℕ) : DmaState :=
  if s.translationMode = .passthrough then s
  else
    match sizeToPages size with
    | none => s
    | some _ =>
      let (units, tables) := unmapOnUnits dma size (s.vtdUnits.take s.nrVtdUnits) s.tables
      { s with vtdUnits := units ++ s.vtdUnits.drop s.nrVtdUnits, tables := tables }

def map (s : DmaState) (phys size : ℕ) (dir : DmaDirection) : ℕ × DmaState :=
  if !s.enabled then (phys, s)
  else
    match s.iommuType with
    | .intelVtd => s.vtdMap phys size
    | .swiotlb =>
      match s.swiotlb with
      | none => (0, s)
      | some tlb =>
        let (dma, tlb, mem) := tlb.map s.mem phys size dir
        (dma, { s with swiotlb := some tlb, mem := mem })
    | _ => (0, s)

def unmap (s : DmaState) (dma size : ℕ) (dir : DmaDirection) : DmaState :=
  if !s.enabled then s
  else
    match s.iommuType with
    | .intelVtd => s.vtdUnmap dma size
    | .swiotlb =>
      match s.swiotlb with
      | none => s
      | some tlb =>
        let (tlb, mem) := tlb.unmap s.mem dma size dir
        { s with swiotlb := some tlb, mem := mem }
    | _ => s

/-! ### Coherent buffers -/

def freePages (s : DmaState) (cpu pfn order : ℕ) : DmaState :=
  { s with phys := s.phys.freePages cpu pfn order }

/-- The end of `dma_alloc_coherent`, once the pages are mapped at a DMA address. -/
def recordCoherent (cpu size pfn order dma : ℕ) : Option (ℕ × ℕ) × DmaState :=
  if dma = 0 then (none, s.freePages cpu pfn order)
  else
    match checkedAdd (pfn * pageSize) s.directMapOffset with
    | none => (none, (s.unmap dma size .bidirectional).freePages cpu pfn order)
    | some virt =>
      match s.tracker.insert ⟨.live, virt, dma, size, pfn, order⟩ with
      | none => (none, (s.unmap dma size .bidirectional).freePages cpu pfn order)
      | some tracker => (some (virt, dma), { s with tracker := tracker })

/-- `dma_alloc_coherent`, on a CPU: where the CPU and where devices find the
buffer. -/
def dmaAllocCoherent (cpu size : ℕ) (gfp : GfpFlags) :
    Option (ℕ × ℕ) × DmaState :=
  match (sizeToPages size).bind pagesToOrder with
  | none => (none, s)
  | some order =>
    match s.phys.allocPages order gfp with
    | (none, p) => (none, { s with phys := p })
    | (some pfn, p) =>
      let s := { s with phys := p }
      if 2 ^ 64 ≤ pfn * pageSize then (none, s.freePages cpu pfn order)
      else
        let (dma, s) := s.map (pfn * pageSize) size .bidirectional
        s.recordCoherent cpu size pfn order dma

/-- `dma_free_coherent`, on a CPU. -/
def dmaFreeCoherent (cpu virt dma size : ℕ) : DmaState :=
  if virt = 0 ∨ size = 0 then s
  else if virt < s.directMapOffset then s
  else
    match s.tracker.findByVirt virt with
    | none => s
    | some slot =>
      if slot.state = .freeing then s
      else if slot.size ≠ size then s
      else if slot.dma ≠ dma then s
      else
        let tracked := { slot with state := .freeing }
        let s := { s with
          tracker := DmaCoherentTracker.modifyByVirt virt ({ · with state := .freeing }) s.tracker }
        match (sizeToPages tracked.size).bind pagesToOrder with
        | none => { s with tracker := s.tracker.rollbackCoherentFree tracked }
        | some order =>
          if order ≠ tracked.order ∨ s.phys.maxPfn ≤ tracked.pfn then
            { s with tracker := s.tracker.rollbackCoherentFree tracked }
          else
            let s := (s.unmap tracked.dma tracked.size .bidirectional).freePages cpu tracked.pfn
              tracked.order
            { s with tracker := s.tracker.commitCoherentFree tracked }

/-! ### Devices -/

/-- The physical address that a device reaches with a DMA address. The device is
on bus 0, behind a remapping unit if there are any. -/
def busAddr (unit devfn dma : ℕ) : Option ℕ :=
  if s.enabled && s.iommuType = .intelVtd then
    match s.vtdUnits[unit]? with
    | some (some u) => (u.onTables s.tables).hardwareWalk devfn dma
    | _ => some dma
  else some dma

end DmaState

end JanuaryOs.Dma

import JanuaryOs.Phys.Pcp

/-!
# The buddy allocator (`mm/phys/buddy.rs`) and its state at boot (`mm/boot/setup.rs`)
-/

namespace JanuaryOs.Phys

namespace PhysState

/-! ### Allocation -/

variable (s : PhysState)

def prepCompoundPage (pfn : Pfn) (order : ℕ) : PhysState :=
  (s.modifyPage pfn fun p => { p with head := true, compound := true }).modifyRange (pfn + 1)
    (pfn + 2 ^ order) fun p => { p with tail := true, compound := true }

/-- Split a block of order `low + k` at `pfn` down to order `low`: the upper
halves are put on the free lists. -/
def splitDown (z : ZoneType) (pfn : Pfn) (low : ℕ) : ℕ → PhysState → PhysState
  | 0, s => s
  | k + 1, s => splitDown z pfn low k (s.addToBuddy z (pfn + 2 ^ (low + k)) (low + k))

/-- `expand_and_alloc`. The caller has seen that the area counts a block. -/
def expandAndAlloc (z : ZoneType) (high low : ℕ) (gfp : GfpFlags) :
    Option Pfn × PhysState :=
  match ((s.zones z).freeArea high).freeList with
  | [] => (none, s)
  | pfn :: _ =>
    match s.removeFromBuddy z pfn high with
    | none => (none, s)
    | some s =>
      let s := splitDown z pfn low (high - low) s
      let s := s.modifyPage pfn fun p => (p.setCountOne.clearBuddy).sanitize low
      (some pfn, if gfp.comp && 0 < low then s.prepCompoundPage pfn low else s)

/-- The lowest order from `order` on with a free block. -/
def findOrder (zone : Zone) (order : ℕ) : Option ℕ :=
  (List.range' order (maxOrder - order)).find? fun o => (zone.freeArea o).nrFree ≠ 0

def zoneAllocPages (z : ZoneType) (order : ℕ) (gfp : GfpFlags) :
    Option Pfn × PhysState :=
  match findOrder (s.zones z) order with
  | none => (none, s)
  | some high => s.expandAndAlloc z high order gfp

/-- The loop of `alloc_pages` over the zones. -/
def allocFrom (order : ℕ) (gfp : GfpFlags) : List ZoneType → PhysState → Option Pfn × PhysState
  | [], s => (none, s)
  | z :: zs, s =>
    if !(s.zones z).initialized then allocFrom order gfp zs s
    else
      match s.zoneAllocPages z order gfp with
      | (some pfn, s') => if s'.validPfn pfn then (some pfn, s') else allocFrom order gfp zs s'
      | (none, s') => allocFrom order gfp zs s'

def allocPages (order : ℕ) (gfp : GfpFlags) : Option Pfn × PhysState :=
  if s.maxPfn = 0 then (none, s)
  else if maxOrder ≤ order then (none, s)
  else allocFrom order gfp (gfpToZoneList gfp) s

def allocPage (cpu : ℕ) (gfp : GfpFlags) : Option Pfn × PhysState :=
  if s.maxPfn = 0 then (none, s)
  else if s.pcpInitialized then
    match s.pcpAllocPage cpu gfp with
    | (some pfn, s') =>
      if !s'.validPfn pfn then s'.allocPages 0 gfp
      else (some pfn, s'.modifyPage pfn fun p => (p.setCountOne.clearBuddy).sanitize 0)
    | (none, s') => s'.allocPages 0 gfp
  else s.allocPages 0 gfp

/-! ### Release -/

/-- The loop of `free_pages` that joins a block with its buddy as long as that
is free. The fuel is the number of orders above. -/
def mergeUp (z : ZoneType) : ℕ → Pfn → ℕ → PhysState → Pfn × ℕ × PhysState
  | 0, pfn, order, s => (pfn, order, s)
  | fuel + 1, pfn, order, s =>
    let buddyPfn := pfn ^^^ 2 ^ order
    if !(s.zones z).containsPfn buddyPfn then (pfn, order, s)
    else if !(s.pages buddyPfn).buddy || (s.pages buddyPfn).order ≠ order then (pfn, order, s)
    else
      match s.removeFromBuddy z buddyPfn order with
      | none => (pfn, order, s)
      | some s' => mergeUp z fuel (min pfn buddyPfn) (order + 1) s'

/-- `free_pages`, on a CPU. -/
def freePages (cpu : ℕ) (pfn : Pfn) (order : ℕ) : PhysState :=
  if maxOrder ≤ order then s
  else
    match (s.pages pfn).tryPut with
    | none => s
    | some (remaining, page) =>
      let s := s.modifyPage pfn fun _ => page
      if 0 < remaining then s
      else
        let s := if page.compound then s.modifyRange pfn (pfn + 2 ^ order) (·.clearCompound) else s
        let s := s.modifyPage pfn (·.sanitize order)
        if order = 0 ∧ s.pcpInitialized then s.pcpFreePage cpu pfn
        else
          match s.pfnToZone pfn with
          | none => s
          | some z =>
            let (pfn, order, s) := mergeUp z (maxOrder - 1 - order) pfn order s
            s.addToBuddy z pfn order

/-! ### Initialisation -/

/-- The largest order, up to the given one, of a block that starts at `pfn`, is
aligned and ends by `endPfn`; zero if there is none. -/
def fitOrder (pfn endPfn : ℕ) : ℕ → ℕ
  | 0 => 0
  | o + 1 =>
    if pfn % 2 ^ (o + 1) = 0 ∧ pfn + 2 ^ (o + 1) ≤ endPfn then o + 1 else fitOrder pfn endPfn o

/-- The loop of `init_zone_buddy`; each round handles at least one frame. -/
def initLoop (z : ZoneType) (endPfn : ℕ) : ℕ → Pfn → PhysState → PhysState
  | 0, _, s => s
  | fuel + 1, pfn, s =>
    if pfn < endPfn then
      let order := fitOrder pfn endPfn (maxOrder - 1)
      initLoop z endPfn fuel (pfn + 2 ^ order) (s.addToBuddy z pfn order)
    else s

def initZoneBuddy (z : ZoneType) (startPfn endPfn : ℕ) : PhysState :=
  initLoop z endPfn (endPfn - startPfn) startPfn s

/-- The zones of a machine with `maxPfn` frames. -/
def bootZone (maxPfn : ℕ) : ZoneType → Zone
  | .dma =>
    let dmaEnd := min (zoneDmaLimit / pageSize) maxPfn
    if 0 < dmaEnd then .init 0 dmaEnd else .uninit
  | .dma32 =>
    let dmaEnd := min (zoneDmaLimit / pageSize) maxPfn
    let dma32End := min (zoneDma32Limit / pageSize) maxPfn
    if dmaEnd < dma32End then .init dmaEnd (dma32End - dmaEnd) else .uninit
  | .normal =>
    let dma32End := min (zoneDma32Limit / pageSize) maxPfn
    if dma32End < maxPfn then .init dma32End (maxPfn - dma32End) else .uninit

/-- What `init_buddy_system` sets up before it adds memory: descriptors,
reserved frames and zones. The per-CPU caches come later. -/
def boot (maxPfn : ℕ) (reserved : Pfn → Bool) : PhysState where
  maxPfn := maxPfn
  pages := fun pfn =>
    let page := Page.init (.fromPhysAddr (pfn * pageSize))
    if reserved pfn then page.markReserved.setCountOne else page
  zones := bootZone maxPfn
  nrCpus := 1
  pcpInitialized := false
  pcps := fun _ _ => ⟨0, []⟩

end PhysState

end JanuaryOs.Phys

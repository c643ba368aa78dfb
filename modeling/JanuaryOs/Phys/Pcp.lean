import JanuaryOs.Phys.Zone

/-!
# Per-CPU page caches (`mm/phys/pcp.rs`)

Every call names the CPU it runs on. The two kinds of allocation path of
`pcp_alloc_page`, from the cache and after a refill, check the page in the same
way; `checkCached` is that check.
-/

namespace JanuaryOs.Phys

/-- More cached pages are given back in a batch. -/
def pcpHigh : ℕ := 64

/-- Pages moved at once. -/
def pcpBatch : ℕ := 16

namespace PhysState

variable (s : PhysState)

/-- `PerCpuPages::alloc`. -/
def pcpAlloc (cpu : ℕ) (z : ZoneType) : Option (Pfn × PhysState) :=
  let inner := s.pcps cpu z
  if 0 < inner.count then
    match inner.list with
    | [] => none
    | pfn :: list =>
      some (pfn, (s.setPcp cpu z ⟨inner.count - 1, list⟩).modifyPage pfn (·.unlink))
  else none

/-- `PerCpuPages::free`. -/
def pcpFree (cpu : ℕ) (z : ZoneType) (pfn : Pfn) : PhysState :=
  let inner := s.pcps cpu z
  (s.setPcp cpu z ⟨inner.count + 1, pfn :: inner.list⟩).modifyPage pfn (·.link)

/-- `refill_from_buddy`: up to `batch` blocks of order zero. -/
def refillFromBuddy (cpu : ℕ) (z : ZoneType) : ℕ → PhysState → PhysState
  | 0, s => s
  | batch + 1, s =>
    let area := (s.zones z).freeArea 0
    if area.nrFree = 0 then s
    else
      match area.freeList with
      | [] => s
      | pfn :: _ =>
        match s.removeFromBuddy z pfn 0 with
        | none => s
        | some s' =>
          refillFromBuddy cpu z batch ((s'.modifyPage pfn (·.setOwner .pcp)).pcpFree cpu z pfn)

/-- `drain_to_buddy`: up to `batch` pages. -/
def drainToBuddy (cpu : ℕ) (z : ZoneType) : ℕ → PhysState → PhysState
  | 0, s => s
  | batch + 1, s =>
    match s.pcpAlloc cpu z with
    | none => s
    | some (pfn, s') => drainToBuddy cpu z batch (s'.addToBuddy z pfn 0)

def fallbackToBuddy (pfn : Pfn) (zoneIdx : ZoneType) : PhysState :=
  let z := (s.pfnToZone pfn).getD zoneIdx
  if !(s.zones z).initialized || !(s.zones z).containsPfn pfn then s
  else
    (s.modifyPage pfn fun p => { p.unlink.clearBuddy with order := 0 }).addToBuddy z pfn 0

/-- The check of a page that comes off the cache of zone `z`. A page that fails
it is given to the buddy system, or dropped if it is no page at all. -/
def checkCached (z : ZoneType) (pfn : Pfn) : Bool × PhysState :=
  if !s.validPfn pfn then (false, s)
  else if (s.pages pfn).zoneId ≠ z then (false, s.fallbackToBuddy pfn (s.pages pfn).zoneId)
  else if (s.pages pfn).owner ≠ .pcp then (false, s.fallbackToBuddy pfn (s.pages pfn).zoneId)
  else (true, s.modifyPage pfn (·.setOwner .allocated))

/-- The loop of `pcp_alloc_page` over the zones. -/
def pcpAllocFrom (cpu : ℕ) : List ZoneType → PhysState → Option Pfn × PhysState
  | [], s => (none, s)
  | z :: zs, s =>
    match s.pcpAlloc cpu z with
    | some (pfn, s') =>
      match s'.checkCached z pfn with
      | (true, s'') => (some pfn, s'')
      | (false, s'') => pcpAllocFrom cpu zs s''
    | none =>
      if (s.zones z).initialized && 0 < (s.zones z).freePages then
        let s := refillFromBuddy cpu z pcpBatch s
        match s.pcpAlloc cpu z with
        | some (pfn, s') =>
          match s'.checkCached z pfn with
          | (true, s'') => (some pfn, s'')
          | (false, s'') => pcpAllocFrom cpu zs s''
        | none => pcpAllocFrom cpu zs s
      else pcpAllocFrom cpu zs s

def pcpAllocPage (cpu : ℕ) (gfp : GfpFlags) : Option Pfn × PhysState :=
  if !s.pcpInitialized then (none, s) else pcpAllocFrom cpu (gfpToZoneList gfp) s

/-- `pcp_free_page`. A page whose links are set, or whose owner is not the
allocator's client, goes to the buddy system. -/
def pcpFreePage (cpu : ℕ) (pfn : Pfn) : PhysState :=
  if !s.pcpInitialized then s
  else if !s.validPfn pfn then s
  else
    let page := s.pages pfn
    let z := page.zoneId
    if page.linked then s.fallbackToBuddy pfn z
    else if page.owner ≠ .allocated ∧ page.owner ≠ .unknown then s.fallbackToBuddy pfn z
    else
      let s := (s.modifyPage pfn (·.setOwner .pcp)).pcpFree cpu z pfn
      if pcpHigh < (s.pcps cpu z).count ∧ (s.zones z).initialized then
        drainToBuddy cpu z pcpBatch s
      else s

/-- Drain one cache until it is empty: each round takes at least one page. -/
def drainPcp (cpu : ℕ) (z : ZoneType) : ℕ → PhysState → PhysState
  | 0, s => s
  | fuel + 1, s =>
    if 0 < (s.pcps cpu z).count then drainPcp cpu z fuel (drainToBuddy cpu z pcpBatch s) else s

/-- The caches `drain_all_pcps` visits. -/
def allPcps (nrCpus : ℕ) : List (ℕ × ZoneType) :=
  (List.range nrCpus).flatMap fun cpu => ZoneType.all.map fun z => (cpu, z)

def drainAllPcps : PhysState :=
  if !s.pcpInitialized then s
  else
    (allPcps s.nrCpus).foldl
      (fun s c =>
        if (s.zones c.2).initialized then drainPcp c.1 c.2 (s.pcps c.1 c.2).count s else s) s

def initPcp (nrCpus : ℕ) : PhysState :=
  let nrCpus := max 1 (min nrCpus maxCpus)
  { s with
    nrCpus := nrCpus
    pcps := fun cpu z => if cpu < nrCpus then ⟨0, []⟩ else s.pcps cpu z
    pcpInitialized := true }

end PhysState

end JanuaryOs.Phys

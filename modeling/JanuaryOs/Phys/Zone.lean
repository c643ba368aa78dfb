import JanuaryOs.Phys.Page

/-!
# Zones and their free lists (`mm/phys/zone.rs`), and the state of the physical allocators

A free list is the sequence of the frames on it, the one `next` points to first.
`del` unlinks a node from the list it is on; the callers know which one that is.
-/

namespace JanuaryOs.Phys

open Function

/-- `get_order`: the smallest order whose blocks have that many pages. -/
def getOrder (pages : ℕ) : ℕ := if pages ≤ 1 then 0 else Nat.log2 (pages - 1) + 1

theorem le_two_pow_getOrder (pages : ℕ) : pages ≤ 2 ^ getOrder pages := by
  unfold getOrder
  split
  · simpa using ‹_›
  · have : pages - 1 < 2 ^ (Nat.log2 (pages - 1) + 1) := Nat.lt_log2_self
    omega

/-- `FreeArea`: the free blocks of one order. -/
structure FreeArea where
  freeList : List Pfn
  nrFree : ℕ

/-- A zone. `freeArea` is indexed by the order. -/
structure Zone where
  startPfn : ℕ
  spannedPages : ℕ
  freePages : ℕ
  freeArea : ℕ → FreeArea
  initialized : Bool

namespace Zone

def uninit : Zone := ⟨0, 0, 0, fun _ => ⟨[], 0⟩, false⟩

def init (startPfn pageCount : ℕ) : Zone := ⟨startPfn, pageCount, 0, fun _ => ⟨[], 0⟩, true⟩

def endPfn (z : Zone) : ℕ := z.startPfn + z.spannedPages

def containsPfn (z : Zone) (pfn : Pfn) : Bool := z.startPfn ≤ pfn ∧ pfn < z.endPfn

/-- Put a block in front of the free list of its order. -/
def addFree (z : Zone) (pfn : Pfn) (order : ℕ) : Zone :=
  let area := z.freeArea order
  { z with
    freeArea := update z.freeArea order ⟨pfn :: area.freeList, area.nrFree + 1⟩
    freePages := z.freePages + 2 ^ order }

/-- Take a block off the free list of its order. The counter of free pages is
clamped. -/
def removeFree (z : Zone) (pfn : Pfn) (order : ℕ) : Zone :=
  let area := z.freeArea order
  { z with
    freeArea := update z.freeArea order ⟨area.freeList.erase pfn, area.nrFree - 1⟩
    freePages := if z.freePages < 2 ^ order then 0 else z.freePages - 2 ^ order }

end Zone

/-- `PcpInner`: the pages a CPU caches for one zone. -/
structure PcpInner where
  count : ℕ
  list : List Pfn

/-- CPUs there is room for. -/
def maxCpus : ℕ := 64

structure PhysState where
  maxPfn : ℕ
  pages : Pfn → Page
  zones : ZoneType → Zone
  nrCpus : ℕ
  pcpInitialized : Bool
  pcps : ℕ → ZoneType → PcpInner

namespace PhysState

variable (s : PhysState)

def modifyPage (pfn : Pfn) (f : Page → Page) : PhysState :=
  { s with pages := update s.pages pfn (f (s.pages pfn)) }

/-- Change the descriptors of the frames from `lo` up to `hi`. -/
def modifyRange (lo hi : ℕ) (f : Page → Page) : PhysState :=
  { s with pages := fun q => if lo ≤ q ∧ q < hi then f (s.pages q) else s.pages q }

def modifyZone (z : ZoneType) (f : Zone → Zone) : PhysState :=
  { s with zones := update s.zones z (f (s.zones z)) }

def setPcp (cpu : ℕ) (z : ZoneType) (p : PcpInner) : PhysState :=
  { s with pcps := update s.pcps cpu (update (s.pcps cpu) z p) }

/-- `is_page_ptr_in_vmemmap`. -/
def validPfn (pfn : Pfn) : Bool := pfn < s.maxPfn

def pfnToZone (pfn : Pfn) : Option ZoneType :=
  let z := ZoneType.fromPhysAddr (pfn * pageSize)
  if (s.zones z).initialized && (s.zones z).containsPfn pfn then some z else none

def addToBuddy (z : ZoneType) (pfn : Pfn) (order : ℕ) : PhysState :=
  (s.modifyPage pfn fun p => (p.markBuddy order).link).modifyZone z (·.addFree pfn order)

/-- `remove_from_buddy`. Nothing if the area counts no blocks. -/
def removeFromBuddy (z : ZoneType) (pfn : Pfn) (order : ℕ) : Option PhysState :=
  if ((s.zones z).freeArea order).nrFree = 0 then none
  else some ((s.modifyZone z (·.removeFree pfn order)).modifyPage pfn fun p => p.unlink.clearBuddy)

end PhysState

end JanuaryOs.Phys

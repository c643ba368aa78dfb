import JanuaryOs.Base
import JanuaryOs.Lib.TableTree

/-!
# Intel VT-d units (`mm/dma/vtd.rs`), and the walk that the hardware makes

The tables of a unit are pages of 512 words, so memory is a family of tables of
64-bit words here. Pages come from the page allocator, whose future answers are
part of the state: a frame, or nothing if there is no memory. A unit never gives
pages back. Registers and the caches of the hardware, which the code invalidates
after each change, are left out.
-/

namespace JanuaryOs.Dma

open Lib

inductive TranslationMode
  | passthrough
  | translate
  deriving DecidableEq, Repr

/-! ### Bits -/

/-- `RTE_PRESENT`, `CTE_PRESENT` and `SLPTE_P`. -/
def presentBit : ℕ := 1

/-- `SLPTE_R | SLPTE_W`. -/
def slpteRw : ℕ := 3

/-- `RTE_CTP_MASK` and `CTE_SLPTPTR_MASK`. -/
def pointerMask : ℕ := 0xFFFFFFFFFFFFF000

def slpteAddrMask : ℕ := 0x000FFFFFFFFFF000

def cteFpd : ℕ := 2

/-- `CTE_T_UNTRANSLATED`. -/
def cteUntranslated : ℕ := 0

/-- `CTE_T_PASSTHROUGH`. -/
def ctePassthrough : ℕ := 8

def cteAw48 : ℕ := 2

/-- The index into a table of the given level. -/
def slIndex (dma level : ℕ) : ℕ := dma / 2 ^ (12 + 9 * (level - 1)) % 512

/-- The indices of the three upper levels, as the source's `indices`. -/
def slPath (dma : ℕ) : List ℕ := [slIndex dma 4, slIndex dma 3, slIndex dma 2]

/-! ### Units -/

structure VtdUnit where
  /-- Memory, by frame and word. -/
  mem : Tables ℕ
  /-- What the page allocator will answer. -/
  supply : List (Option ℕ)
  rootTable : ℕ
  translationMode : TranslationMode
  nextDmaAddr : ℕ

namespace VtdUnit

def new (mem : Tables ℕ) (supply : List (Option ℕ)) : VtdUnit :=
  ⟨mem, supply, 0, .passthrough, 0x1000⟩

variable (u : VtdUnit)

def allocPage : Option ℕ × VtdUnit :=
  match u.supply with
  | [] => (none, u)
  | answer :: supply => (answer, { u with supply := supply })

def zeroPage (frame : ℕ) : VtdUnit :=
  { u with mem := Function.update u.mem frame fun _ => 0 }

def write (frame i word : ℕ) : VtdUnit := { u with mem := u.mem.set frame i word }

def writeContexts (ctx low high : ℕ) : ℕ → VtdUnit → VtdUnit
  | 0, u => u
  | devfn + 1, u =>
    ((writeContexts ctx low high devfn u).write ctx (2 * devfn) low).write ctx (2 * devfn + 1) high

def setupContextForBus (bus : ℕ) : Except String VtdUnit :=
  match u.allocPage with
  | (none, _) => .error "Failed to allocate page for VT-d"
  | (some ctx, u) =>
    let u := u.zeroPage ctx
    let u := u.write u.rootTable (2 * bus) ((ctx * pageSize &&& pointerMask) ||| presentBit)
    let u := u.write u.rootTable (2 * bus + 1) 0
    match u.translationMode with
    | .passthrough =>
      .ok (writeContexts ctx (presentBit ||| ctePassthrough ||| cteFpd) cteAw48 256 u)
    | .translate =>
      match u.allocPage with
      | (none, _) => .error "Failed to allocate page for VT-d"
      | (some slpt, u) =>
        let u := u.zeroPage slpt
        .ok (writeContexts ctx
          (presentBit ||| cteUntranslated ||| (slpt * pageSize &&& pointerMask)) cteAw48 256 u)

def initRootTable : Except String VtdUnit :=
  match u.allocPage with
  | (none, _) => .error "Failed to allocate page for VT-d"
  | (some root, u) => ({ u with rootTable := root }.zeroPage root).setupContextForBus 0

/-- `VtdUnit::init`, on hardware that can pass requests through or not. -/
def init (mode : TranslationMode) (canPassThrough : Bool) : Except String VtdUnit :=
  if mode = .passthrough ∧ !canPassThrough then .error "VT-d does not support passthrough mode"
  else { u with translationMode := mode }.initRootTable

/-- `get_context_table_for_bus`: the frame of the table. -/
def getContextTableForBus (bus : ℕ) : Option ℕ :=
  let entry := u.mem u.rootTable (2 * bus)
  if entry &&& presentBit = 0 then none else some ((entry &&& pointerMask) / pageSize)

/-- Where `map_page` and `unmap_page` look for the second-level table: in the
high word of the first context entry. -/
def slptFrame (ctx : ℕ) : ℕ := (u.mem ctx 1 &&& pointerMask) / pageSize

/-- The loop of `map_page` over the upper levels. -/
def ensureTables : List ℕ → ℕ → VtdUnit → Option ℕ × VtdUnit
  | [], table, u => (some table, u)
  | i :: is, table, u =>
    let entry := u.mem table i
    if entry &&& presentBit = 0 then
      match u.allocPage with
      | (none, u) => (none, u)
      | (some frame, u) =>
        ensureTables is frame
          ((u.zeroPage frame).write table i ((frame * pageSize &&& slpteAddrMask) ||| slpteRw))
    else ensureTables is ((entry &&& slpteAddrMask) / pageSize) u

def mapPage (dma phys : ℕ) : Bool × VtdUnit :=
  match u.getContextTableForBus 0 with
  | none => (false, u)
  | some ctx =>
    match ensureTables (slPath dma) (u.slptFrame ctx) u with
    | (none, u) => (false, u)
    | (some pt, u) =>
      (true, u.write pt (slIndex dma 1) ((phys &&& slpteAddrMask) ||| slpteRw))

/-- The loop of `unmap_page` over the upper levels. -/
def findTable (mem : Tables ℕ) : List ℕ → ℕ → Option ℕ
  | [], table => some table
  | i :: is, table =>
    let entry := mem table i
    if entry &&& presentBit = 0 then none
    else findTable mem is ((entry &&& slpteAddrMask) / pageSize)

def unmapPage (dma : ℕ) : VtdUnit :=
  match u.getContextTableForBus 0 with
  | none => u
  | some ctx =>
    match findTable u.mem (slPath dma) (u.slptFrame ctx) with
    | none => u
    | some pt => u.write pt (slIndex dma 1) 0

def pagesFor (size : ℕ) : ℕ := u64Add size (pageSize - 1) / pageSize

/-- The loop of `map_pages`: pages `i` up to `i + n`. -/
def mapLoop (dma phys : ℕ) : ℕ → ℕ → VtdUnit → Bool × VtdUnit
  | _, 0, u => (true, u)
  | i, n + 1, u =>
    match u.mapPage (u64Add dma (i * pageSize)) (u64Add phys (i * pageSize)) with
    | (false, u) => (false, u)
    | (true, u) => mapLoop dma phys (i + 1) n u

def mapPages (phys size : ℕ) : Option ℕ × VtdUnit :=
  match u.translationMode with
  | .passthrough => (some phys, u)
  | .translate =>
    let dma := u.nextDmaAddr
    let u := { u with nextDmaAddr := u64Add dma (pagesFor size * pageSize) }
    match mapLoop dma phys 0 (pagesFor size) u with
    | (false, u) => (none, u)
    | (true, u) => (some dma, u)

/-- The loop of `unmap_pages`. -/
def unmapLoop (dma : ℕ) : ℕ → ℕ → VtdUnit → VtdUnit
  | _, 0, u => u
  | i, n + 1, u => unmapLoop dma (i + 1) n (u.unmapPage (u64Add dma (i * pageSize)))

def unmapPages (dma size : ℕ) : VtdUnit :=
  match u.translationMode with
  | .passthrough => u
  | .translate => unmapLoop dma 0 (pagesFor size) u

/-! ### The hardware -/

/-- The walk through the second-level tables: the last entry, if every entry on
the way can be read or written. -/
def hardwareTables (mem : Tables ℕ) : List ℕ → ℕ → Option ℕ
  | [], _ => none
  | [i], table => if mem table i &&& slpteRw = 0 then none else some (mem table i)
  | i :: is, table =>
    let entry := mem table i
    if entry &&& slpteRw = 0 then none
    else hardwareTables mem is ((entry &&& slpteAddrMask) / pageSize)

/-- Where a request of a device on bus 0 goes. Root entry and context entry are
found by bus and device; the low word of the context entry holds the kind of
translation and the second-level table, the high word the width of the
addresses. -/
def hardwareWalk (devfn dma : ℕ) : Option ℕ :=
  let rootEntry := u.mem u.rootTable 0
  if rootEntry &&& presentBit = 0 then none
  else
    let ctx := (rootEntry &&& pointerMask) / pageSize
    let low := u.mem ctx (2 * devfn)
    let high := u.mem ctx (2 * devfn + 1)
    if low &&& presentBit = 0 then none
    else if low &&& 12 = ctePassthrough then some dma
    else if high &&& 7 ≠ cteAw48 ∨ 2 ^ 48 ≤ dma then none
    else
      (hardwareTables u.mem (slPath dma ++ [slIndex dma 1]) ((low &&& pointerMask) / pageSize)).map
        fun entry => (entry &&& slpteAddrMask) + dma % pageSize

end VtdUnit

end JanuaryOs.Dma

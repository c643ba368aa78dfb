import JanuaryOs.Lib.Memory
import JanuaryOs.Phys.Conservation

/-!
# The page allocator as the allocators above it see it

A block of frames is used through the direct map, so it is a span of addresses.
That the spans of the blocks in use are disjoint is the conservation of frames
(`Phys.System.Conserved`) read through the map. The other users of the page
allocator call it between any two calls of an allocator; they do not give back
blocks that are not theirs.
-/

namespace JanuaryOs.Alloc

open Lib Phys

/-- `GFP_KERNEL`, as far as the page allocator looks at it. -/
def gfpKernel : GfpFlags := ⟨false, false, false⟩

/-! ### The direct map -/

/-- The map of all frames into the kernel's addresses, `virt/layout_runtime.rs`.
It maps pages, to addresses other than null, and the memory of the machine fits
behind its offset. -/
structure DirectMap where
  offset : ℕ
  maxPfn : ℕ
  pos : 0 < offset
  aligned : pageSize ∣ offset
  fits : offset + maxPfn * pageSize ≤ 2 ^ 64

namespace DirectMap

variable (map : DirectMap)

def physToVirt (phys : ℕ) : ℕ := satAdd u64Max phys map.offset

/-- `max_pfn() * PAGE_SIZE`, as it is computed before a comparison. -/
def maxPhys : ℕ := satMul u64Max map.maxPfn pageSize

def isDirectMapPtr (addr : ℕ) : Bool :=
  if addr < map.offset then false
  else map.maxPhys ≠ 0 && addr - map.offset < map.maxPhys

def span (b : ℕ × ℕ) : Span where
  start := map.offset + b.1 * pageSize
  stop := map.offset + (b.1 + 2 ^ b.2) * pageSize

/-- A direct map at the usual place, for a machine of two megabytes. -/
def sample : DirectMap := ⟨0xFFFF800000000000, 512, by decide, by decide, by decide⟩

variable {map : DirectMap}

theorem span_stop (map : DirectMap) (b : ℕ × ℕ) :
    (map.span b).stop = (map.span b).start + 2 ^ b.2 * pageSize := by
  simp only [span, Nat.add_mul, Nat.add_assoc]

theorem span_nonempty (map : DirectMap) (pb : ℕ × ℕ) :
    (map.span pb).start < (map.span pb).stop := by
  have := Nat.two_pow_pos pb.2
  rw [span_stop]
  simp only [pageSize]
  omega

theorem span_disjoint {a b : ℕ × ℕ} (h : Apart a b) : (map.span a).Disjoint (map.span b) := by
  simp only [Span.Disjoint, span]
  rcases h with h | h
  · have := Nat.mul_le_mul_right pageSize h
    omega
  · have := Nat.mul_le_mul_right pageSize h
    omega

/-- An address of the map, but for the last one there is. -/
theorem isDirectMapPtr_of_le {addr : ℕ} (h1 : map.offset ≤ addr)
    (h2 : addr < map.offset + map.maxPfn * pageSize) (h3 : addr < u64Max) :
    map.isDirectMapPtr addr = true := by
  have hlt : addr - map.offset < map.maxPhys := by
    simp only [maxPhys, satMul]
    omega
  rw [isDirectMapPtr, if_neg (by omega), Bool.and_eq_true, decide_eq_true_eq, decide_eq_true_eq]
  exact ⟨by omega, hlt⟩

end DirectMap

/-! ### Blocks in use -/

section Live

variable {map : DirectMap} {sys : System} {b : ℕ × ℕ}

/-- A block in use is aligned and has frames of the machine only. -/
theorem live_block (h : sys.Inv map.maxPfn) (hb : b ∈ sys.live) :
    b.2 < maxOrder ∧ 2 ^ b.2 ∣ b.1 ∧ b.1 + 2 ^ b.2 ≤ map.maxPfn := by
  obtain ⟨z, hblock⟩ := Holding.liveBlock h b hb
  have hpos := Nat.two_pow_pos b.2
  have hlast := (hblock.contains (f := b.1 + 2 ^ b.2 - 1) (by omega) (by omega)).2.2
  exact ⟨hblock.order, hblock.aligned, by omega⟩

theorem live_span (h : sys.Inv map.maxPfn) (hb : b ∈ sys.live) :
    map.offset ≤ (map.span b).start ∧ (map.span b).stop ≤ map.offset + map.maxPfn * pageSize := by
  have hle := Nat.mul_le_mul_right pageSize (live_block h hb).2.2
  simp only [DirectMap.span]
  omega

theorem live_physToVirt (h : sys.Inv map.maxPfn) (hb : b ∈ sys.live) :
    map.physToVirt (b.1 * pageSize) = (map.span b).start := by
  have hpos := Nat.two_pow_pos b.2
  have := (live_block h hb).2.2
  have hfits := map.fits
  simp only [DirectMap.span, DirectMap.physToVirt, satAdd, u64Max, pageSize] at *
  omega

end Live

/-! ### The other users -/

/-- The block a call gives back. -/
def PhysOp.frees : PhysOp → Option (ℕ × ℕ)
  | .freePages _ pfn order => some (pfn, order)
  | .pcpFreePage _ pfn => some (pfn, 0)
  | _ => none

theorem live_allocPages (sys : System) (order : ℕ) (gfp : GfpFlags) :
    (sys.step (.allocPages order gfp)).live
      = ((sys.phys.allocPages order gfp).1.map fun pfn => (pfn, order)).toList ++ sys.live := by
  rw [System.step]
  rcases sys.phys.allocPages order gfp with ⟨_ | pfn, s⟩
  · rfl
  · rfl

/-- A block that a call does not give back stays in use. -/
theorem mem_live_step {sys : System} {op : PhysOp} {b : ℕ × ℕ} (hb : b ∈ sys.live)
    (hop : PhysOp.frees op ≠ some b) : b ∈ (sys.step op).live := by
  have hout : ∀ order (res : Option Pfn × PhysState), b ∈ (sys.handedOut order res).live := by
    rintro order ⟨_ | pfn, s⟩
    · exact hb
    · exact List.mem_cons_of_mem _ hb
  cases op with
  | allocPages order gfp
  | allocPage cpu gfp
  | pcpAllocPage cpu gfp => exact hout _ _
  | freePages cpu pfn order =>
    have hne : b ≠ (pfn, order) := fun h => hop (congrArg some h.symm)
    simp only [System.step]
    split
    · exact (List.mem_erase_of_ne hne).2 hb
    · exact hb
  | pcpFreePage cpu pfn =>
    have hne : b ≠ (pfn, 0) := fun h => hop (congrArg some h.symm)
    exact (List.mem_erase_of_ne hne).2 hb
  | _ => exact hb

end JanuaryOs.Alloc

import JanuaryOs.Dma.BounceAccounting
import JanuaryOs.Dma.Units

/-!
# When coherent buffers are one memory for the CPU and for devices

`dma_alloc_coherent` takes any pages and hands them to the general `map`, which
may answer with a bounce buffer: then the device works on a copy that is only
brought up to date when the mapping ends. A VT-d unit that translates answers
with an address behind which its hardware finds nothing. And before `init` has
told the manager where the direct map is, the CPU gets a physical address for a
virtual one. In all other cases the buffer is one memory, so the condition is
exact.

The CPU's side is the direct map of the kernel, whatever the manager believes it
to be; the identity map of the boot loader is taken down before the manager is
set up.
-/

namespace JanuaryOs.Dma

open Lib Phys VtdUnit List

/-- A coherent buffer that was handed out. -/
structure CoherentBuffer where
  virt : ℕ
  dma : ℕ
  size : ℕ
  deriving DecidableEq, Repr

/-- The manager, with what its callers hold. -/
structure CoherentSystem where
  dma : DmaState
  /-- The buffers that have not been given back. -/
  held : List CoherentBuffer

/-- The calls of the DMA interface. -/
inductive DmaOp
  | alloc (cpu size : ℕ) (gfp : GfpFlags)
  | free (cpu virt dma size : ℕ)
  | map (phys size : ℕ) (dir : DmaDirection)
  | unmap (dma size : ℕ) (dir : DmaDirection)
  deriving DecidableEq, Repr

/-- The physical address that the CPU reaches with a virtual one, through the
direct map that the kernel has set up at `offset`. -/
def cpuAddr (offset virt : ℕ) : Option ℕ := if offset ≤ virt then some (virt - offset) else none

namespace DmaState

variable (s : DmaState)

/-- There may be such a device on bus 0. -/
def HasDevice (unit devfn : ℕ) : Prop :=
  devfn < 256 ∧ (s.iommuType = .intelVtd → unit < s.vtdUnits.length)

/-- Requests go through second-level tables. -/
def Translating : Prop :=
  s.enabled ∧ s.iommuType = .intelVtd ∧ s.translationMode = .translate
deriving Decidable

/-- Requests may go to a bounce buffer. -/
def Bouncing : Prop := s.enabled ∧ s.iommuType = .swiotlb
deriving Decidable

/-- Where the pages of a buffer are: `dma_alloc_coherent` has added the
manager's offset to it. -/
def block (b : CoherentBuffer) : ℕ := b.virt - s.directMapOffset

/-- The manager has been set up, and its backend lets requests through to the
pages of the buffer. -/
def InReach (b : CoherentBuffer) : Prop :=
  s.enabled = true ∧ ¬ s.Translating ∧ (s.Bouncing → s.block b + b.size ≤ dmaAddrSize)

/-- Each byte of the buffer is the same byte for the CPU and for every device. -/
def OneMemory (offset : ℕ) (b : CoherentBuffer) : Prop :=
  ∀ unit devfn, s.HasDevice unit devfn → ∀ i < b.size, ∃ addr,
    s.busAddr unit devfn (b.dma + i) = some addr ∧ cpuAddr offset (b.virt + i) = some addr

end DmaState

namespace CoherentSystem

/-- A call, and what it makes of the buffers that are held. -/
def step (s : CoherentSystem) : DmaOp → CoherentSystem
  | .alloc cpu size gfp =>
    match s.dma.dmaAllocCoherent cpu size gfp with
    | (some (virt, dma), d) => ⟨d, ⟨virt, dma, size⟩ :: s.held⟩
    | (none, d) => ⟨d, s.held⟩
  | .free cpu virt dma size =>
    ⟨s.dma.dmaFreeCoherent cpu virt dma size, s.held.filter (· ≠ ⟨virt, dma, size⟩)⟩
  | .map phys size dir => ⟨(s.dma.map phys size dir).2, s.held⟩
  | .unmap dma size dir => ⟨s.dma.unmap dma size dir, s.held⟩

end CoherentSystem

variable {drhds : List Drhd} {tables : Tables ℕ} {own : Set ℕ}

/-! ### What the calls do -/

namespace DmaState

variable {s s' : DmaState} {dma size : ℕ}

/-- A mapped buffer is given back, with or without its mapping, or recorded. -/
theorem record_cases (s : DmaState) (cpu size pfn order dma : ℕ) :
    (∃ p, s.recordCoherent cpu size pfn order dma = (none, { s with phys := p })) ∨
    (∃ p, s.recordCoherent cpu size pfn order dma
      = (none, { s.unmap dma size .bidirectional with phys := p })) ∨
    dma ≠ 0 ∧ ∃ t, s.recordCoherent cpu size pfn order dma
      = (some (pfn * pageSize + s.directMapOffset, dma), { s with tracker := t }) := by
  rw [recordCoherent]
  split
  · exact .inl ⟨_, rfl⟩
  rename_i hnull
  split
  · exact .inr (.inl ⟨_, rfl⟩)
  · rename_i virt hvirt
    obtain ⟨rfl, -⟩ := checkedAdd_eq_some.1 hvirt
    split
    · exact .inr (.inl ⟨_, rfl⟩)
    · exact .inr (.inr ⟨hnull, _, rfl⟩)

/-- Sizes that are not refused. -/
theorem size_of_sizeToPages {order : ℕ} (h : (sizeToPages size).bind pagesToOrder = some order) :
    size ≠ 0 ∧ size + (pageSize - 1) < 2 ^ 64 := by
  obtain ⟨pages, hpages, -⟩ := Option.bind_eq_some_iff.1 h
  rw [sizeToPages] at hpages
  split at hpages
  · cases hpages
  rename_i hsize
  obtain ⟨rounded, hrounded, -⟩ := Option.bind_eq_some_iff.1 hpages
  obtain ⟨rfl, hlt⟩ := checkedAdd_eq_some.1 hrounded
  exact ⟨hsize, hlt⟩

/-- Allocation fails before anything is mapped, or pages are mapped and
recorded. -/
theorem alloc_cases (s : DmaState) (cpu size : ℕ) (gfp : GfpFlags) :
    (∃ p, s.dmaAllocCoherent cpu size gfp = (none, { s with phys := p })) ∨
    ∃ pfn order p, size ≠ 0 ∧ size + (pageSize - 1) < 2 ^ 64 ∧
      s.dmaAllocCoherent cpu size gfp
        = ({ s with phys := p }.map (pfn * pageSize) size .bidirectional).2.recordCoherent cpu size
            pfn order ({ s with phys := p }.map (pfn * pageSize) size .bidirectional).1 := by
  rw [dmaAllocCoherent]
  cases horder : (sizeToPages size).bind pagesToOrder with
  | none => exact .inl ⟨s.phys, rfl⟩
  | some order =>
    obtain ⟨hsize, hround⟩ := size_of_sizeToPages horder
    dsimp only
    generalize s.phys.allocPages order gfp = res
    obtain ⟨_ | pfn, p⟩ := res
    · exact .inl ⟨p, rfl⟩
    dsimp only
    by_cases hbig : 2 ^ 64 ≤ pfn * pageSize
    · rw [if_pos hbig]
      exact .inl ⟨_, rfl⟩
    · rw [if_neg hbig]
      exact .inr ⟨pfn, order, p, hsize, hround, rfl⟩

theorem unmap_tracker (s : DmaState) (t : DmaCoherentTracker) (dma size : ℕ) (dir : DmaDirection) :
    { s with tracker := t }.unmap dma size dir = { s.unmap dma size dir with tracker := t } := by
  obtain ⟨enabled, type, mode, nr, units, tlb, offset, mem, tables, phys, tracker⟩ := s
  cases enabled with
  | false => rfl
  | true =>
    cases type with
    | none | amdVi => rfl
    | swiotlb => cases tlb <;> rfl
    | intelVtd =>
      cases mode with
      | passthrough => rfl
      | translate =>
        simp only [unmap, vtdUnmap]
        cases sizeToPages size <;> rfl

/-- Release changes nothing but the tracker, or also ends the mapping and gives
the pages back. -/
theorem free_cases (s : DmaState) (cpu virt dma size : ℕ) :
    (∃ t, s.dmaFreeCoherent cpu virt dma size = { s with tracker := t }) ∨
    ∃ p t, s.dmaFreeCoherent cpu virt dma size
      = { s.unmap dma size .bidirectional with phys := p, tracker := t } := by
  rw [dmaFreeCoherent]
  split
  · exact .inl ⟨_, rfl⟩
  split
  · exact .inl ⟨_, rfl⟩
  split
  · exact .inl ⟨_, rfl⟩
  rename_i e _
  split
  · exact .inl ⟨_, rfl⟩
  split
  · exact .inl ⟨_, rfl⟩
  rename_i hsize
  split
  · exact .inl ⟨_, rfl⟩
  rename_i hdma
  obtain rfl : e.size = size := not_not.1 hsize
  obtain rfl : e.dma = dma := not_not.1 hdma
  dsimp only
  split
  · exact .inl ⟨_, rfl⟩
  split
  · exact .inl ⟨_, rfl⟩
  · rw [unmap_tracker]
    exact .inr ⟨_, _, rfl⟩

/-! ### Backends that do not translate -/

/-- Where the slots of the bounce buffer are. -/
def slots (s : DmaState) : Option (ℕ × ℕ) := s.swiotlb.map fun tlb => (tlb.bufferPhys, tlb.nrSlots)

/-- What decides where requests go is the same. -/
def SameBackend (s s' : DmaState) : Prop :=
  s'.slots = s.slots ∧ ∃ tlb mem phys tracker,
    s' = { s with swiotlb := tlb, mem := mem, phys := phys, tracker := tracker }

theorem SameBackend.refl (s : DmaState) : SameBackend s s := ⟨rfl, _, _, _, _, rfl⟩

theorem SameBackend.setPhys (h : SameBackend s s') (p : PhysState) :
    SameBackend s { s' with phys := p } := by
  obtain ⟨hslots, tlb, mem, phys, tracker, rfl⟩ := h
  exact ⟨hslots, _, _, _, _, rfl⟩

theorem SameBackend.setTracker (h : SameBackend s s') (t : DmaCoherentTracker) :
    SameBackend s { s' with tracker := t } := by
  obtain ⟨hslots, tlb, mem, phys, tracker, rfl⟩ := h
  exact ⟨hslots, _, _, _, _, rfl⟩

/-- The bounce buffer is where all devices reach it. -/
def LowBuffer (s : DmaState) : Prop :=
  ∀ x ∈ s.slots, x.1 + x.2 * pageSize ≤ dmaAddrSize

/-- What `map` answers for pages: a place in the bounce buffer, or the pages
themselves. -/
def Answers (s : DmaState) (phys size dma : ℕ) : Prop :=
  s.Bouncing ∧ dmaAddrSize < phys + size ∧ dma + size ≤ dmaAddrSize ∨
    (s.Bouncing → phys + size ≤ dmaAddrSize) ∧ dma = phys

theorem needsBounce_iff {phys : ℕ} (hsize : size ≠ 0) :
    Swiotlb.needsBounce phys size = true ↔ dmaAddrSize < phys + size := by
  have hcond : decide (size ≠ 0) = true := decide_eq_true hsize
  rw [Swiotlb.needsBounce, hcond, Bool.true_and, Bool.not_eq_true']
  cases hadd : checkedAdd phys size with
  | none =>
    have hbig : 2 ^ 64 ≤ phys + size := by
      by_contra hlt
      rw [checkedAdd_eq_some.2 ⟨rfl, not_le.1 hlt⟩] at hadd
      cases hadd
    have : dmaAddrSize < 2 ^ 64 := by decide
    exact iff_of_true rfl (by omega)
  | some stop =>
    obtain ⟨rfl, -⟩ := checkedAdd_eq_some.1 hadd
    rw [decide_eq_false_iff_not, not_le]

/-- A slot of the bounce buffer ends in the bounce buffer. -/
theorem slot_low (tlb : Swiotlb) (hlow : tlb.bufferPhys + tlb.nrSlots * pageSize ≤ dmaAddrSize)
    (hround : size + (pageSize - 1) < 2 ^ 64) {slot : ℕ}
    (hslot : slot + slotsFor size ≤ tlb.nrSlots) :
    tlb.bufferPhys + slot * pageSize + size ≤ dmaAddrSize := by
  rw [slotsFor, u64Add, Nat.mod_eq_of_lt hround] at hslot
  simp only [pageSize] at *
  omega

theorem map_direct (h : ¬ s.Translating) (phys size : ℕ) (dir : DmaDirection) :
    SameBackend s (s.map phys size dir).2 ∧
      (s.LowBuffer → size ≠ 0 → size + (pageSize - 1) < 2 ^ 64 → (s.map phys size dir).1 ≠ 0 →
        s.Answers phys size (s.map phys size dir).1) := by
  obtain ⟨enabled, type, mode, nr, units, tlb, offset, mem, tables, p, tracker⟩ := s
  cases enabled with
  | false => exact ⟨.refl _, fun _ _ _ _ => .inr ⟨nofun, rfl⟩⟩
  | true =>
    cases type with
    | none | amdVi => exact ⟨.refl _, fun _ _ _ hnull => absurd rfl hnull⟩
    | swiotlb =>
      cases tlb with
      | none => exact ⟨.refl _, fun _ _ _ hnull => absurd rfl hnull⟩
      | some tlb =>
        simp only [map, Bool.not_true, Bool.false_eq_true, if_false]
        rcases Bounce.map_cases tlb mem phys size dir with
          ⟨hbounce, hmap⟩ | ⟨hbounce, hmap⟩ | ⟨hbounce, -, -, slot, hslot, -, hmap⟩
        · rw [hmap]
          refine ⟨⟨rfl, _, _, _, _, rfl⟩, fun _ hsize _ _ => .inr ⟨fun _ => ?_, rfl⟩⟩
          rw [← not_lt, ← needsBounce_iff hsize, hbounce]
          nofun
        · rw [hmap]
          exact ⟨⟨rfl, _, _, _, _, rfl⟩, fun _ _ _ hnull => absurd rfl hnull⟩
        · rw [hmap]
          refine ⟨⟨rfl, _, _, _, _, rfl⟩, fun hlow hsize hround _ => ?_⟩
          exact .inl ⟨⟨rfl, rfl⟩, (needsBounce_iff hsize).1 hbounce,
            slot_low tlb (hlow _ rfl) hround hslot⟩
    | intelVtd =>
      cases mode with
      | passthrough => exact ⟨.refl _, fun _ _ _ _ => .inr ⟨fun hb => absurd hb.2 nofun, rfl⟩⟩
      | translate => exact absurd ⟨rfl, rfl, rfl⟩ h

theorem unmap_direct (h : ¬ s.Translating) (dma size : ℕ) (dir : DmaDirection) :
    SameBackend s (s.unmap dma size dir) := by
  obtain ⟨enabled, type, mode, nr, units, tlb, offset, mem, tables, p, tracker⟩ := s
  cases enabled with
  | false => exact .refl _
  | true =>
    cases type with
    | none | amdVi => exact .refl _
    | swiotlb =>
      cases tlb with
      | none => exact .refl _
      | some tlb =>
        obtain ⟨hphys, hslots, -⟩ :=
          Bounce.buffer_step ⟨tlb, mem, [], fun _ => .boot⟩ (.unmap dma size dir)
        refine ⟨congrArg some (Prod.ext hphys hslots), _, _, _, _, rfl⟩
    | intelVtd =>
      cases mode with
      | passthrough => exact .refl _
      | translate => exact absurd ⟨rfl, rfl, rfl⟩ h

/-- Devices reach memory at its physical addresses. -/
def Direct (s : DmaState) : Prop :=
  ¬ s.Translating ∧ ∀ unit devfn, s.HasDevice unit devfn →
    ∀ dma, s.busAddr unit devfn dma = some dma

/-! ### Units that translate -/

/-- Requests go through units that translate nothing. -/
structure Blind (s : DmaState) (own : Set ℕ) : Prop where
  translating : s.Translating
  wired : AllWired own s.vtdUnits s.tables
  unit : ∃ u, some u ∈ s.vtdUnits

/-- The units have taken a step. -/
theorem Blind.steps (h : s.Blind own) {units : List (Option VtdUnit)} {tables : Tables ℕ}
    (hsteps : Steps own s.vtdUnits s.tables units tables) :
    ({ s with vtdUnits := units, tables := tables } : DmaState).Blind own := by
  refine ⟨h.translating, h.wired.steps hsteps, ?_⟩
  obtain ⟨u, hu⟩ := h.unit
  have hshape : shape (some u) ∈ units.map shape := hsteps.shape ▸ mem_map_of_mem hu
  obtain ⟨_ | u', hu', heq⟩ := mem_map.1 hshape
  · cases heq
  · exact ⟨u', hu'⟩

/-- What the calls do to the first units, they do to all. -/
theorem Blind.steps_take (h : s.Blind own) {units : List (Option VtdUnit)} {tables : Tables ℕ}
    (hsteps : ∀ own', AllWired own' (s.vtdUnits.take s.nrVtdUnits) s.tables →
      Steps own' (s.vtdUnits.take s.nrVtdUnits) s.tables units tables) :
    ({ s with
      vtdUnits := units ++ s.vtdUnits.drop s.nrVtdUnits, tables := tables } :
        DmaState).Blind own := by
  have hwired := h.wired
  rw [← take_append_drop s.nrVtdUnits s.vtdUnits] at hwired
  refine h.steps ?_
  have hall := Steps.append_left hwired.apart (hsteps _ hwired.left)
  rwa [take_append_drop] at hall

theorem Blind.map (h : s.Blind own) (phys size : ℕ) (dir : DmaDirection) :
    (s.map phys size dir).2.Blind own := by
  have htake := h.steps_take fun own' hunits => hunits.mapOnUnits phys size
  obtain ⟨enabled, type, mode, nr, units, tlb, offset, mem, tables, p, tracker⟩ := s
  obtain ⟨henabled, htype, hmode⟩ := h.translating
  dsimp only at henabled htype hmode
  subst henabled htype hmode
  simp only [DmaState.map, vtdMap]
  cases sizeToPages size with
  | none => exact h
  | some pages => exact htake

theorem Blind.unmap (h : s.Blind own) (dma size : ℕ) (dir : DmaDirection) :
    (s.unmap dma size dir).Blind own := by
  have htake := h.steps_take fun own' hunits => hunits.unmapOnUnits dma size
  obtain ⟨enabled, type, mode, nr, units, tlb, offset, mem, tables, p, tracker⟩ := s
  obtain ⟨henabled, htype, hmode⟩ := h.translating
  dsimp only at henabled htype hmode
  subst henabled htype hmode
  simp only [DmaState.unmap, vtdUnmap]
  cases sizeToPages size with
  | none => exact h
  | some pages => exact htake

/-- There is a device that reaches nothing. -/
theorem Blind.busAddr (h : s.Blind own) :
    ∃ unit, s.HasDevice unit 0 ∧ ∀ dma, s.busAddr unit 0 dma = none := by
  obtain ⟨henabled, htype, -⟩ := h.translating
  obtain ⟨u, hu⟩ := h.unit
  obtain ⟨ctx, slpt, hwired⟩ := h.wired.wired u hu
  obtain ⟨unit, hlt, hget⟩ := mem_iff_getElem.1 hu
  refine ⟨unit, ⟨by decide, fun _ => hlt⟩, fun dma => ?_⟩
  rw [DmaState.busAddr, henabled, htype, getElem?_eq_getElem hlt, hget]
  exact hwired.hardwareWalk (by decide) dma

end DmaState

/-! ### Runs -/

namespace CoherentSystem

open DmaState

variable {s s' : CoherentSystem} {held : List CoherentBuffer} {op : DmaOp} {offset : ℕ}

/-- What mapping, unmapping and the page allocator keep, all calls keep. A
buffer that is new is one that `map` has just answered for. -/
theorem step_rule {P : DmaState → Prop} (hphys : ∀ d p, P d → P { d with phys := p })
    (htracker : ∀ d t, P d → P { d with tracker := t })
    (hmap : ∀ d phys size dir, P d → P (d.map phys size dir).2)
    (hunmap : ∀ d dma size dir, P d → P (d.unmap dma size dir)) (h : P s.dma) (op : DmaOp) :
    P (s.step op).dma ∧ ∀ b ∈ (s.step op).held, b ∈ s.held ∨
      b.size ≠ 0 ∧ b.size + (pageSize - 1) < 2 ^ 64 ∧ ∃ d pfn t, P d ∧
        (s.step op).dma = { (d.map (pfn * pageSize) b.size .bidirectional).2 with tracker := t } ∧
        b.virt = pfn * pageSize + (s.step op).dma.directMapOffset ∧
        b.dma = (d.map (pfn * pageSize) b.size .bidirectional).1 ∧ b.dma ≠ 0 := by
  cases op with
  | map phys size dir => exact ⟨hmap _ _ _ _ h, fun b hb => .inl hb⟩
  | unmap dma size dir => exact ⟨hunmap _ _ _ _ h, fun b hb => .inl hb⟩
  | free cpu virt dma size =>
    refine ⟨?_, fun b hb => .inl (mem_filter.1 hb).1⟩
    rw [CoherentSystem.step]
    rcases s.dma.free_cases cpu virt dma size with ⟨t, heq⟩ | ⟨p, t, heq⟩
    · rw [heq]
      exact htracker _ t h
    · rw [heq]
      exact htracker _ t (hphys _ p (hunmap _ _ _ _ h))
  | alloc cpu size gfp =>
    rw [CoherentSystem.step]
    rcases s.dma.alloc_cases cpu size gfp with ⟨p, heq⟩ | ⟨pfn, order, p, hsize, hround, heq⟩
    · rw [heq]
      exact ⟨hphys _ p h, fun b hb => .inl hb⟩
    rw [heq]
    have hd := hphys _ p h
    generalize ({ s.dma with phys := p } : DmaState) = d at hd
    have hmapped := hmap d (pfn * pageSize) size .bidirectional hd
    rcases (d.map (pfn * pageSize) size .bidirectional).2.record_cases cpu size pfn order
      (d.map (pfn * pageSize) size .bidirectional).1 with ⟨p', hrec⟩ | ⟨p', hrec⟩ | ⟨hnull, t, hrec⟩
    · rw [hrec]
      exact ⟨hphys _ p' hmapped, fun b hb => .inl hb⟩
    · rw [hrec]
      exact ⟨hphys _ p' (hunmap _ _ _ _ hmapped), fun b hb => .inl hb⟩
    · rw [hrec]
      refine ⟨htracker _ t hmapped, fun b hb => (mem_cons.1 hb).symm.imp_right ?_⟩
      rintro rfl
      exact ⟨hsize, hround, d, pfn, t, hd, rfl, rfl, rfl, hnull⟩

/-- The state of a system whose backend does not translate: the manager knows
the direct map once it has been set up, and buffers are where `map` has put
them. -/
structure DirectInv (offset : ℕ) (s : CoherentSystem) : Prop where
  direct : s.dma.Direct
  offset : s.dma.directMapOffset = if s.dma.enabled then offset else 0
  low : s.dma.LowBuffer
  device : ∃ unit, s.dma.HasDevice unit 0
  held : ∀ b ∈ s.held, b.size ≠ 0 ∧ s.dma.directMapOffset ≤ b.virt ∧
    s.dma.Answers (s.dma.block b) b.size b.dma

theorem DirectInv.oneMemory_iff (h : s.DirectInv offset) (hoffset : 0 < offset) {b : CoherentBuffer}
    (hb : b ∈ s.held) : s.dma.OneMemory offset b ↔ s.dma.InReach b := by
  obtain ⟨hsize, hvirt, hanswers⟩ := h.held b hb
  obtain ⟨unit, hdevice⟩ := h.device
  have hbase := h.offset
  rw [InReach, block]
  rw [block] at hanswers
  constructor
  · intro hone
    rcases hanswers with ⟨hbouncing, hhigh, hplace⟩ | ⟨hlow, hdma⟩
    · -- the last byte is above the bounce buffer
      obtain ⟨addr, hbus, hcpu⟩ := hone unit 0 hdevice (b.size - 1) (by omega)
      rw [if_pos hbouncing.1] at hbase
      rw [h.direct.2 unit 0 hdevice] at hbus
      rw [cpuAddr, if_pos (by omega), ← hbus] at hcpu
      have := Option.some.inj hcpu
      omega
    · refine ⟨?_, h.direct.1, hlow⟩
      -- otherwise the CPU got a physical address
      by_contra hnot
      rw [if_neg hnot] at hbase
      obtain ⟨addr, hbus, hcpu⟩ := hone unit 0 hdevice 0 (Nat.pos_of_ne_zero hsize)
      rw [h.direct.2 unit 0 hdevice] at hbus
      rw [cpuAddr, ← hbus] at hcpu
      split at hcpu
      · have := Option.some.inj hcpu
        omega
      · cases hcpu
  · rintro ⟨henabled, -, hlow⟩ unit devfn hdev i hi
    rw [if_pos henabled] at hbase
    rcases hanswers with ⟨hbouncing, hhigh, -⟩ | ⟨-, hdma⟩
    · exact absurd (hlow hbouncing) (not_le.2 hhigh)
    refine ⟨b.dma + i, h.direct.2 unit devfn hdev _, ?_⟩
    rw [cpuAddr, if_pos (by omega)]
    congr 1
    omega

/-- Where requests go and where the buffers are does not depend on the rest of
the state. -/
theorem DirectInv.same (h : s.DirectInv offset) {d : DmaState} (hsame : SameBackend s.dma d)
    (hheld : held ⊆ s.held) : DirectInv offset ⟨d, held⟩ := by
  obtain ⟨hslots, tlb, mem, phys, tracker, rfl⟩ := hsame
  refine ⟨h.direct, h.offset, fun x hx => h.low x ?_, h.device, fun b hb => h.held b (hheld hb)⟩
  rwa [← hslots]

theorem DirectInv.step (h : s.DirectInv offset) (op : DmaOp) : (s.step op).DirectInv offset := by
  obtain ⟨hinv, hheld⟩ := step_rule (P := fun d => DirectInv offset ⟨d, s.held⟩)
    (fun d p hd => hd.same ((SameBackend.refl d).setPhys p) (List.Subset.refl _))
    (fun d t hd => hd.same ((SameBackend.refl d).setTracker t) (List.Subset.refl _))
    (fun d phys size dir hd =>
      hd.same (map_direct hd.direct.1 phys size dir).1 (List.Subset.refl _))
    (fun d dma size dir hd =>
      hd.same (unmap_direct hd.direct.1 dma size dir) (List.Subset.refl _)) h op
  refine ⟨hinv.direct, hinv.offset, hinv.low, hinv.device, fun b hb => ?_⟩
  rcases hheld b hb with hb | ⟨hsize, hround, d, pfn, t, hd, heq, hvirt, hdma, hnull⟩
  · exact hinv.held b hb
  obtain ⟨hsame, hanswers⟩ := map_direct hd.direct.1 (pfn * pageSize) b.size .bidirectional
  have hanswers := hanswers hd.low hsize hround (hdma ▸ hnull)
  rw [heq] at hvirt ⊢
  obtain ⟨-, tlb, mem, phys, tracker, hsame⟩ := hsame
  rw [block, hvirt, Nat.add_sub_cancel, hdma]
  rw [hsame]
  exact ⟨hsize, Nat.le_add_left _ _, hanswers⟩

/-- The state of a system whose units translate. -/
structure BlindInv (own : Set ℕ) (s : CoherentSystem) : Prop where
  blind : s.dma.Blind own
  held : ∀ b ∈ s.held, b.size ≠ 0

theorem BlindInv.oneMemory_iff (h : s.BlindInv own) {b : CoherentBuffer} (hb : b ∈ s.held) :
    s.dma.OneMemory offset b ↔ s.dma.InReach b := by
  refine iff_of_false (fun hone => ?_) fun hreach => hreach.2.1 h.blind.translating
  obtain ⟨unit, hdevice, hnone⟩ := h.blind.busAddr
  obtain ⟨addr, hbus, -⟩ := hone unit 0 hdevice 0 (Nat.pos_of_ne_zero (h.held b hb))
  rw [hnone] at hbus
  cases hbus

theorem BlindInv.step (h : s.BlindInv own) (op : DmaOp) : (s.step op).BlindInv own := by
  obtain ⟨hblind, hheld⟩ := step_rule (P := (Blind · own))
    (fun d p hd => ⟨hd.translating, hd.wired, hd.unit⟩)
    (fun d t hd => ⟨hd.translating, hd.wired, hd.unit⟩)
    (fun d phys size dir hd => hd.map phys size dir)
    (fun d dma size dir hd => hd.unmap dma size dir) h.blind op
  exact ⟨hblind, fun b hb => (hheld b hb).elim (h.held b) And.left⟩

/-! ### Setting up -/

variable {mem : ByteMem} {phys : PhysState} {s0 : DmaState}

/-- The manager before or after `init`, which is told where the direct map is.
The bounce buffer is in the low memory where `alloc_lowmem_buffer` looks for it. -/
def Started (mem : ByteMem) (tables : Tables ℕ) (phys : PhysState) (drhds : List Drhd) (offset : ℕ)
    (s : DmaState) : Prop :=
  s = DmaState.new mem tables phys ∨
    ∃ config, ∃ buffer : BounceBuffer, buffer.phys + buffer.slots * pageSize ≤ dmaAddrSize ∧
      s = (DmaState.new mem tables phys).init config drhds buffer offset

/-- The manager after `init` has found remapping units. -/
def withUnits (mem : ByteMem) (tables : Tables ℕ) (phys : PhysState) (offset : ℕ)
    (mode : TranslationMode) (drhds : List Drhd) : DmaState :=
  { DmaState.new mem tables phys with
    enabled := true
    iommuType := .intelVtd
    translationMode := mode
    vtdUnits := (initUnits mode (drhds.take maxIommuUnits) tables).1
    nrVtdUnits := (initUnits mode (drhds.take maxIommuUnits) tables).1.countP Option.isSome
    tables := (initUnits mode (drhds.take maxIommuUnits) tables).2
    directMapOffset := offset }

/-- `init` ends with bounce buffers, or with at least one unit. -/
theorem init_cases (mem : ByteMem) (tables : Tables ℕ) (phys : PhysState) (config : DmaConfig)
    (drhds : List Drhd) (buffer : BounceBuffer) (offset : ℕ) :
    (∃ d : DmaState, (DmaState.new mem tables phys).init config drhds buffer offset
        = d.initSwiotlb buffer ∧ d.directMapOffset = offset) ∨
    ∃ mode, (DmaState.new mem tables phys).init config drhds buffer offset
        = withUnits mem tables phys offset mode drhds ∧
      ∃ u, some u ∈ (initUnits mode (drhds.take maxIommuUnits) tables).1 := by
  by_cases hconfig : (!config.enabled && !config.autoDetect) = true
  · rw [DmaState.init, if_pos hconfig]
    exact .inl ⟨_, rfl, rfl⟩
  rw [DmaState.init, if_neg hconfig]
  by_cases hpos : 0 < (initUnits (if config.passthrough then .passthrough else .translate)
      (drhds.take maxIommuUnits) tables).1.countP Option.isSome
  · refine .inr ⟨_, if_pos hpos, ?_⟩
    obtain ⟨x, hx, hsome⟩ := countP_pos_iff.1 hpos
    obtain ⟨u, rfl⟩ := Option.isSome_iff_exists.1 hsome
    exact ⟨u, hx⟩
  · exact .inl ⟨_, if_neg hpos, rfl⟩

theorem Started.inv (h : Started mem tables phys drhds offset s0)
    (hsupply : Apart ∅ tables (drhds.flatMap Drhd.supply)) :
    DirectInv offset ⟨s0, []⟩ ∨ ∃ own, BlindInv own ⟨s0, []⟩ := by
  rcases h with rfl | ⟨config, buffer, hlow, rfl⟩
  · exact .inl ⟨⟨nofun, fun _ _ _ _ => rfl⟩, rfl, nofun, ⟨0, by decide, nofun⟩, nofun⟩
  rcases init_cases mem tables phys config drhds buffer offset with
    ⟨d, heq, hoffset⟩ | ⟨mode, heq, u, hu⟩
  · rw [heq]
    refine .inl ⟨⟨fun htrans => absurd htrans.2.1 nofun, fun _ _ _ _ => rfl⟩, hoffset, ?_,
      ⟨0, by decide, nofun⟩, nofun⟩
    rintro _ ⟨⟩
    exact hlow
  have htake : Apart ∅ tables ((drhds.take maxIommuUnits).flatMap Drhd.supply) := by
    rw [← take_append_drop maxIommuUnits drhds, flatMap_append] at hsupply
    exact hsupply.congr (sublist_append_left _ _) (fun _ _ _ => rfl) (Set.empty_subset _) nofun
  rw [heq]
  cases mode with
  | passthrough =>
    refine .inl ⟨⟨fun htrans => absurd htrans.2.2 nofun, fun unit devfn hdev dma => ?_⟩, rfl,
      nofun, ?_, nofun⟩
    · rw [busAddr]
      simp only [withUnits, Bool.and_true, decide_true, if_true]
      split
      · rename_i u hu
        obtain ⟨ctx, hpassing⟩ := initUnits_passing htake (mem_of_getElem? hu)
        exact hpassing.hardwareWalk hdev.1 dma
      · rfl
    · exact ⟨0, by decide, fun _ => length_pos_of_mem hu⟩
  | translate =>
    obtain ⟨new, -, -, -, hapart, hwired⟩ := initUnits_wired htake
    rw [Set.empty_union] at hapart
    exact .inr ⟨new, ⟨⟨rfl, rfl, rfl⟩, ⟨hapart, hwired⟩, u, hu⟩, nofun⟩

/-- In every run of the DMA interface, before or after `init` with any
configuration: a coherent buffer that is held is one memory for the CPU and for
all devices exactly if `init` has run, VT-d units do not translate, and with
bounce buffers the pages that the allocator gave end below four gigabytes. -/
theorem coherent_memory_is_one_iff {ops : List DmaOp} (hoffset : 0 < offset)
    (hstart : Started mem tables phys drhds offset s0)
    (hsupply : Apart ∅ tables (drhds.flatMap Drhd.supply))
    (hrun : Run (ofFun step) ⟨s0, []⟩ ops s) :
    ∀ b ∈ s.held, s.dma.OneMemory offset b ↔ s.dma.InReach b := by
  rcases hstart.inv hsupply with hinv | ⟨own, hinv⟩
  · have hinv : s.DirectInv offset := by
      refine hrun.invariant (DirectInv offset) ?_ hinv
      rintro s op s' hs rfl
      exact hs.step op
    exact fun b hb => hinv.oneMemory_iff hoffset hb
  · have hinv : s.BlindInv own := by
      refine hrun.invariant (BlindInv own) ?_ hinv
      rintro s op s' hs rfl
      exact hs.step op
    exact fun b hb => hinv.oneMemory_iff hb

/-- The direct map of the kernel. -/
def kernelOffset : ℕ := 0xFFFF880000000000

/-- A machine with bounce buffers and two free frames. -/
def twoFrames (zone : ZoneType) (pfn : ℕ) : DmaState :=
  (DmaState.new (fun _ => 0) (fun _ _ => 0)
    ((PhysState.boot (pfn + 2) fun _ => false).initZoneBuddy zone pfn (pfn + 2))).init
      ⟨false, false, true⟩ [] ⟨0x100000, 4, by decide, by decide⟩ kernelOffset

/-- A buffer in low memory is one memory. -/
theorem coherent_memory_is_one_iff_low :
    ∃ s, Run (ofFun step) ⟨twoFrames .dma 8, []⟩ [.alloc 0 4096 ⟨false, false, false⟩] s ∧
      s.held = [⟨0xFFFF880000008000, 0x8000, 4096⟩] ∧
      ∀ b ∈ s.held, s.dma.OneMemory kernelOffset b := by
  let s := step ⟨twoFrames .dma 8, []⟩ (.alloc 0 4096 ⟨false, false, false⟩)
  have hrun : Run (ofFun step) ⟨twoFrames .dma 8, []⟩ [.alloc 0 4096 ⟨false, false, false⟩] s :=
    .cons rfl (.nil _)
  have hheld : s.held = [⟨0xFFFF880000008000, 0x8000, 4096⟩] := by decide
  have hstart : Started _ _ _ [] kernelOffset (twoFrames .dma 8) :=
    .inr ⟨_, _, show 0x100000 + 4 * pageSize ≤ dmaAddrSize by decide, rfl⟩
  have hsupply : Apart ∅ (fun _ _ => 0) [] := .of_blank (fun _ => rfl) nodup_nil nofun
  refine ⟨s, hrun, hheld, fun b hb => ?_⟩
  refine (coherent_memory_is_one_iff (by decide) hstart hsupply hrun b hb).2
    ⟨by decide, by decide, ?_⟩
  obtain rfl : b = ⟨0xFFFF880000008000, 0x8000, 4096⟩ := by rwa [hheld, mem_singleton] at hb
  decide

/-- Frames above four gigabytes: the device gets a bounce buffer, the CPU the
frames. -/
theorem coherent_buffer_bounced :
    ∃ s, Run (ofFun step) ⟨twoFrames .normal (2 ^ 20), []⟩
        [.alloc 0 4096 ⟨false, false, false⟩] s ∧
      s.held = [⟨0xFFFF880100000000, 0x100000, 4096⟩] ∧
      s.dma.busAddr 0 0 0x100000 = some 0x100000 ∧
      cpuAddr kernelOffset 0xFFFF880100000000 = some 0x100000000 :=
  ⟨_, .cons rfl (.nil _), by decide, by decide, by decide⟩

end CoherentSystem

end JanuaryOs.Dma

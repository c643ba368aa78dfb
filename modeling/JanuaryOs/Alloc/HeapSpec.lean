import JanuaryOs.Alloc.Heap

/-!
# What one call of the heap does to the segments

As long as rounding up does not leave the address space, a segment only moves
its pointer up, and a block lies between the old pointer and the new one
(`allocIn_spec`). Growth appends a segment that is large enough for the request
(`growHeapOnce_spec`).
-/

namespace JanuaryOs.Alloc

open Lib Phys List

/-! ### Rounding -/

theorem Layout.align_pos (layout : Layout) : 0 < layout.align := by
  obtain ⟨k, hk⟩ := layout.pow
  rw [hk]
  exact Nat.two_pow_pos k

theorem alignUp_dvd (addr align : ℕ) : align ∣ alignUp addr align := Nat.dvd_mul_left _ _

theorem alignUp_bounds (addr : ℕ) {align : ℕ} (hpos : 0 < align) (h : addr + (align - 1) < 2 ^ 64) :
    addr ≤ alignUp addr align ∧ alignUp addr align ≤ addr + (align - 1) := by
  have hsum : u64Add addr (align - 1) = addr + (align - 1) := Nat.mod_eq_of_lt h
  have hdiv := Nat.div_add_mod (addr + (align - 1)) align
  have hmod := Nat.mod_lt (addr + (align - 1)) hpos
  rw [Nat.mul_comm] at hdiv
  rw [alignUp, hsum]
  omega

/-! ### Segments -/

variable {seg : HeapSegment} {layout : Layout} {segs segs' : List HeapSegment} {bytes n : ℕ}

namespace HeapSegment

/-- The pointer is inside the segment. -/
def Valid (seg : HeapSegment) : Prop := seg.start ≤ seg.next ∧ seg.next ≤ seg.stop

/-- How much of a segment is handed out. -/
def used (seg : HeapSegment) : ℕ := seg.next - seg.start

/-- Rounding the pointer up stays in the address space. -/
def Fits (layout : Layout) (seg : HeapSegment) : Prop := seg.next + (layout.align - 1) < 2 ^ 64
deriving Decidable

/-- The pointer of a segment moves up. -/
structure Moves (seg seg' : HeapSegment) : Prop where
  start : seg'.start = seg.start
  stop : seg'.stop = seg.stop
  next : seg.next ≤ seg'.next
  bound : seg'.next ≤ seg'.stop

theorem Moves.refl (h : seg.Valid) : seg.Moves seg := ⟨rfl, rfl, le_rfl, h.2⟩

variable {seg' : HeapSegment}

theorem Moves.span (h : seg.Moves seg') : seg'.span = seg.span := by
  rw [HeapSegment.span, HeapSegment.span, h.start, h.stop]

theorem Moves.valid (h : seg.Moves seg') (hv : seg.Valid) :
    seg'.Valid := ⟨by rw [h.start]; exact hv.1.trans h.next, h.bound⟩

/-- What an allocation in one segment does: a block is what the pointer moved
over, but for the gap in front of it. The null pointer may be a block as well;
nobody uses it. -/
structure Allocs (layout : Layout) (seg : HeapSegment) (res : ℕ × HeapSegment) : Prop where
  moves : seg.Moves res.2
  aligned : layout.align ∣ res.1
  fits : res.1 = 0 → res.2.Fits layout
  block : res.1 ≠ 0 → seg.next ≤ res.1 ∧ res.1 + layout.size = res.2.next

theorem alloc_spec (hv : seg.Valid) (hf : seg.Fits layout) :
    Allocs layout seg (seg.alloc layout) := by
  obtain ⟨hlow, -⟩ := alignUp_bounds _ layout.align_pos hf
  have hlayout := layout.fits
  have hpos := layout.align_pos
  have hnone : Allocs layout seg (0, seg) :=
    ⟨.refl hv, Nat.dvd_zero _, fun _ => hf, fun h => absurd rfl h⟩
  rw [alloc]
  cases hadd : checkedAdd (alignUp seg.next layout.align) layout.size with
  | none => exact hnone
  | some stop =>
    obtain ⟨hstop, -⟩ := checkedAdd_eq_some.1 hadd
    by_cases hroom : stop > seg.stop
    · simp only [if_pos hroom]
      exact hnone
    simp only [if_neg hroom]
    refine ⟨⟨rfl, rfl, by simp only; omega, by simp only; omega⟩, alignUp_dvd _ _,
      fun h => ?_, fun _ => ⟨hlow, hstop⟩⟩
    -- only the size of the request is below the pointer then
    simp only [Fits] at h ⊢
    omega

end HeapSegment

open HeapSegment

/-- The part of a list of segments that is handed out. -/
def usedIn (segs : List HeapSegment) : ℕ := (segs.map used).sum

/-- What an allocation in a list of segments does. -/
structure AllocsIn (layout : Layout) (segs : List HeapSegment) (res : ℕ × List HeapSegment) :
    Prop where
  moves : List.Forall₂ Moves segs res.2
  aligned : layout.align ∣ res.1
  fits : res.1 = 0 → ∀ seg ∈ res.2, seg.Fits layout
  /-- The block is above all blocks of its segment, and counted. -/
  block : res.1 ≠ 0 → ∃ seg ∈ segs, ∃ seg' ∈ res.2,
    seg.Moves seg' ∧ seg.next ≤ res.1 ∧ res.1 + layout.size = seg'.next
  used : usedIn segs + (if res.1 = 0 then 0 else layout.size) ≤ usedIn res.2

theorem moves_refl (h : ∀ seg ∈ segs, seg.Valid) : List.Forall₂ Moves segs segs :=
  List.forall₂_same.2 fun seg hseg => .refl (h seg hseg)

theorem usedIn_le (h : List.Forall₂ Moves segs segs') : usedIn segs ≤ usedIn segs' := by
  induction h with
  | nil => exact le_rfl
  | cons h _ ih =>
    have := h.next
    have := h.start
    simp only [usedIn, map_cons, sum_cons, used] at ih ⊢
    omega

theorem usedIn_le_mul (h : ∀ seg ∈ segs, seg.used ≤ n) : usedIn segs ≤ segs.length * n := by
  induction segs with
  | nil => exact Nat.zero_le _
  | cons seg segs ih =>
    rw [forall_mem_cons] at h
    have := ih h.2
    have := h.1
    simp only [usedIn, map_cons, sum_cons, length_cons, Nat.succ_mul] at *
    omega

theorem moves_spans (h : List.Forall₂ Moves segs segs') :
    segs'.map HeapSegment.span = segs.map HeapSegment.span := by
  induction h with
  | nil => rfl
  | cons h _ ih => rw [map_cons, map_cons, h.span, ih]

theorem moves_back (h : List.Forall₂ Moves segs segs') :
    ∀ seg' ∈ segs', ∃ seg ∈ segs, seg.Moves seg' := by
  induction h with
  | nil => exact nofun
  | cons h _ ih =>
    refine forall_mem_cons.2 ⟨⟨_, mem_cons_self, h⟩, fun seg' hseg' => ?_⟩
    obtain ⟨seg, hseg, hmoves⟩ := ih seg' hseg'
    exact ⟨seg, mem_cons_of_mem _ hseg, hmoves⟩

theorem allocIn_spec (hv : ∀ seg ∈ segs, seg.Valid) (hf : ∀ seg ∈ segs, seg.Fits layout) :
    AllocsIn layout segs (allocIn layout segs) := by
  induction segs with
  | nil => exact ⟨.nil, Nat.dvd_zero _, fun _ => nofun, fun h => absurd rfl h, le_rfl⟩
  | cons seg rest ih =>
    rw [forall_mem_cons] at hv hf
    have hseg := alloc_spec hv.1 hf.1
    specialize ih hv.2 hf.2
    rw [allocIn]
    generalize seg.alloc layout = res at hseg
    generalize allocIn layout rest = res' at ih
    have hup := hseg.moves.next
    have hstart := hseg.moves.start
    have hlow := hv.1.1
    by_cases hnull : res.1 = 0
    · -- the segment is full, the block is in the rest
      simp only [hnull, ne_eq, not_true_eq_false, if_false]
      refine ⟨.cons hseg.moves ih.moves, ih.aligned, fun h => ?_, fun h => ?_, ?_⟩
      · exact forall_mem_cons.2 ⟨hseg.fits hnull, ih.fits h⟩
      · obtain ⟨s, hs, s', hs', hblock⟩ := ih.block h
        exact ⟨s, mem_cons_of_mem _ hs, s', mem_cons_of_mem _ hs', hblock⟩
      · have := ih.used
        simp only [usedIn, map_cons, sum_cons, HeapSegment.used] at this ⊢
        omega
    · simp only [ne_eq, hnull, not_false_eq_true, if_true]
      obtain ⟨hnext, hend⟩ := hseg.block hnull
      refine ⟨.cons hseg.moves (moves_refl hv.2), hseg.aligned, fun h => absurd h hnull,
        fun _ => ?_, ?_⟩
      · exact ⟨seg, mem_cons_self, res.2, mem_cons_self, hseg.moves, hnext, hend⟩
      · simp only [hnull, if_false, usedIn, map_cons, sum_cons, HeapSegment.used]
        omega

/-! ### Growth -/

theorem orderForSize_room {order : ℕ} (h : orderForSize bytes = some order) :
    bytes ≤ 2 ^ order * pageSize := by
  unfold orderForSize at h
  by_cases hzero : bytes = 0
  · omega
  rw [if_neg hzero] at h
  cases hadd : checkedAdd bytes (pageSize - 1) with
  | none =>
    rw [hadd] at h
    cases h
  | some sum =>
    obtain ⟨hsum, -⟩ := checkedAdd_eq_some.1 hadd
    have hroom := le_two_pow_getOrder (sum / pageSize)
    simp only [hadd] at h
    have hpages : sum / pageSize ≠ 0 := by
      simp only [pageSize] at hsum ⊢
      omega
    rw [if_neg hpages] at h
    split at h
    · cases h
    cases h
    have := Nat.mul_le_mul_right pageSize hroom
    simp only [pageSize] at *
    omega

theorem growTargetFor_le {minAllocSize target : ℕ} (h : growTargetFor minAllocSize = some target) :
    minAllocSize ≤ target := by
  unfold growTargetFor at h
  split at h
  · cases h
  · cases h
    omega

/-- What holds of the heap and the page allocator, whoever uses them. -/
structure Machine.Ok (m : Machine) : Prop where
  pages : m.pages.Inv m.map.maxPfn
  valid : ∀ seg ∈ m.heap.segments, seg.Valid
  /-- Every segment is a block of frames of its own. -/
  owned : ∀ seg ∈ m.heap.segments,
    seg.stop < 2 ^ 64 ∧ ∃ pb ∈ m.pages.live, seg.span = m.map.span pb
  apart : m.heap.segments.Pairwise fun a b => a.span.Disjoint b.span
  few : m.heap.segments.length ≤ maxHeapSegments

/-- A block of frames that is not a segment. -/
def Machine.Foreign (m : Machine) (pb : ℕ × ℕ) : Prop :=
  ∀ seg ∈ m.heap.segments, seg.span ≠ m.map.span pb
deriving Decidable

/-- Segments are added and their pointers move up. -/
def Rises (segs segs' : List HeapSegment) : Prop :=
  ∀ (i : ℕ) (seg : HeapSegment), segs[i]? = some seg →
    ∃ seg', segs'[i]? = some seg' ∧ seg.Moves seg'

/-- What a call that allocates does besides handing out a block. -/
structure Machine.Grows (m m' : Machine) : Prop where
  map : m'.map = m.map
  mem : m'.mem = m.mem
  live : ∀ pb ∈ m.pages.live, pb ∈ m'.pages.live
  foreign : ∀ pb ∈ m.pages.live, m.Foreign pb → m'.Foreign pb
  rises : Rises m.heap.segments m'.heap.segments
  used : usedIn m.heap.segments ≤ usedIn m'.heap.segments

theorem rises_of_forall₂ (h : List.Forall₂ Moves segs segs') : Rises segs segs' := by
  induction h with
  | nil => exact fun i seg hseg => nomatch hseg
  | cons h _ ih =>
    intro i seg hseg
    cases i with
    | zero =>
      obtain rfl := Option.some.inj hseg
      exact ⟨_, rfl, h⟩
    | succ i => exact ih i seg hseg

theorem Rises.trans {segs1 segs2 segs3 : List HeapSegment} (h1 : Rises segs1 segs2)
    (h2 : Rises segs2 segs3) : Rises segs1 segs3 := by
  intro i seg hseg
  obtain ⟨seg2, hseg2, hm2⟩ := h1 i seg hseg
  obtain ⟨seg3, hseg3, hm3⟩ := h2 i seg2 hseg2
  exact ⟨seg3, hseg3, hm3.start.trans hm2.start, hm3.stop.trans hm2.stop,
    hm2.next.trans hm3.next, hm3.bound⟩

theorem Rises.mem (h : Rises segs segs') (hseg : seg ∈ segs) : ∃ seg' ∈ segs', seg.Moves seg' := by
  obtain ⟨i, hi⟩ := mem_iff_getElem?.1 hseg
  obtain ⟨seg', hseg', hmoves⟩ := h i seg hi
  exact ⟨seg', mem_iff_getElem?.2 ⟨i, hseg'⟩, hmoves⟩

namespace Machine

variable {m m' m'' : Machine} {pages : System}

theorem Grows.refl (hv : ∀ seg ∈ m.heap.segments, seg.Valid) : m.Grows m :=
  ⟨rfl, rfl, fun _ h => h, fun _ _ h => h, rises_of_forall₂ (moves_refl hv), le_rfl⟩

theorem Grows.trans (h1 : m.Grows m') (h2 : m'.Grows m'') : m.Grows m'' where
  map := h2.map.trans h1.map
  mem := h2.mem.trans h1.mem
  live pb hpb := h2.live pb (h1.live pb hpb)
  foreign pb hpb h := h2.foreign pb (h1.live pb hpb) (h1.foreign pb hpb h)
  rises := h1.rises.trans h2.rises
  used := h1.used.trans h2.used

theorem Ok.foreign_disjoint (h : m.Ok) (hseg : seg ∈ m.heap.segments) {pb : ℕ × ℕ}
    (hpb : pb ∈ m.pages.live) (hf : m.Foreign pb) : seg.span.Disjoint (m.map.span pb) := by
  obtain ⟨-, pb', hpb', hspan⟩ := h.owned seg hseg
  have : Std.Symm Apart := ⟨fun _ _ => Or.symm⟩
  have hne : pb' ≠ pb := fun heq => hf seg hseg (hspan.trans (heq ▸ rfl))
  rw [hspan]
  exact DirectMap.span_disjoint (h.pages.conserved.disjoint.forall hpb' hpb hne)

theorem Ok.eq_of_span (h : m.Ok) {a b : HeapSegment} (ha : a ∈ m.heap.segments)
    (hb : b ∈ m.heap.segments) (hspan : a.span = b.span) : a = b := by
  by_contra hne
  have : Std.Symm fun a b : HeapSegment => a.span.Disjoint b.span :=
    ⟨fun _ _ hdisj => hdisj.symm⟩
  have hdisj := h.apart.forall ha hb hne
  obtain ⟨-, pb, -, hpb⟩ := h.owned b hb
  have hpos := m.map.span_nonempty pb
  rw [hspan, hpb] at hdisj
  simp only [Span.Disjoint] at hdisj
  omega

/-! ### Segments from the page allocator -/

theorem Ok.withPages (h : m.Ok) (hinv : pages.Inv m.map.maxPfn)
    (hlive : ∀ pb ∈ m.pages.live, pb ∈ pages.live) : Ok { m with pages := pages } where
  pages := hinv
  valid := h.valid
  owned seg hseg := by
    obtain ⟨hstop, pb, hpb, hspan⟩ := h.owned seg hseg
    exact ⟨hstop, pb, hlive pb hpb, hspan⟩
  apart := h.apart
  few := h.few

theorem Ok.grows_withPages (h : m.Ok) (hlive : ∀ pb ∈ m.pages.live, pb ∈ pages.live) :
    m.Grows { m with pages := pages } :=
  ⟨rfl, rfl, hlive, fun _ _ hf => hf, rises_of_forall₂ (moves_refl h.valid), le_rfl⟩

/-- What `reserve_segment` does: only the page allocator changes, and a
reservation is a block of its that nobody else has. -/
structure Reserves (m : Machine) (bytes : ℕ) (res : Option Reservation × Machine) : Prop where
  pages : ∃ pages, res.2 = { m with pages := pages } ∧ pages.Inv m.map.maxPfn ∧
    (∀ pb ∈ m.pages.live, pb ∈ pages.live)
  block : ∀ resv, res.1 = some resv →
    res.2.pages.live = (resv.page, resv.order) :: m.pages.live ∧
    resv.segment.span = m.map.span (resv.page, resv.order) ∧
    resv.segment.next = resv.segment.start ∧ resv.segment.stop < 2 ^ 64 ∧
    resv.segment.start + bytes ≤ resv.segment.stop

theorem Reserves.keeps {bytes : ℕ} {res : Option Reservation × Machine}
    (h : Reserves m bytes res) (hm : m.Ok) : res.2.Ok ∧ m.Grows res.2 ∧ res.2.heap = m.heap := by
  obtain ⟨pages, heq, hinv, hkept⟩ := h.pages
  rw [heq]
  exact ⟨hm.withPages hinv hkept, hm.grows_withPages hkept, rfl⟩

theorem reserveSegment_spec (h : m.Ok) (bytes : ℕ) : Reserves m bytes (m.reserveSegment bytes) := by
  have hsame : Reserves m bytes (none, m) := ⟨⟨m.pages, rfl, h.pages, fun _ hb => hb⟩, nofun⟩
  rw [reserveSegment]
  cases horder : orderForSize (max bytes pageSize) with
  | none => exact hsame
  | some order =>
    have hroom := orderForSize_room horder
    have hinv : (m.pages.step (.allocPages order gfpKernel)).Inv m.map.maxPfn :=
      h.pages.step trivial
    have hlive := live_allocPages m.pages order gfpKernel
    have hpages : ∃ pages, (m.allocPages order).2 = { m with pages := pages } ∧
        pages.Inv m.map.maxPfn ∧ ∀ pb ∈ m.pages.live, pb ∈ pages.live :=
      ⟨_, rfl, hinv, fun _ hpb => mem_live_step hpb nofun⟩
    simp only [Machine.allocPages] at hpages ⊢
    generalize m.pages.step (.allocPages order gfpKernel) = pages at *
    cases hpage : (m.pages.phys.allocPages order gfpKernel).1 with
    | none => exact ⟨hpages, nofun⟩
    | some page =>
      rw [hpage] at hlive
      have hmem : (page, order) ∈ pages.live := by
        rw [hlive]
        exact mem_cons_self
      have hstart := live_physToVirt hinv hmem
      simp only [hstart]
      cases hadd : checkedAdd (m.map.span (page, order)).start (2 ^ order * pageSize) with
      | none => exact ⟨hpages, nofun⟩
      | some stop =>
        obtain ⟨hstop, hlt⟩ := checkedAdd_eq_some.1 hadd
        refine ⟨hpages, fun resv hresv => ?_⟩
        cases hresv
        refine ⟨hlive, ?_, rfl, hlt, by simp only; omega⟩
        rw [HeapSegment.span, ← hstop, ← DirectMap.span_stop _ (page, order)]

variable {cpu : ℕ} {resv : Reservation} {required : ℕ}

theorem Reserves.release (h : Reserves m bytes (some resv, m')) (hm : m.Ok) (hcpu : cpu < maxCpus) :
    (m'.releaseReservation cpu resv).Ok ∧ m.Grows (m'.releaseReservation cpu resv) := by
  obtain ⟨⟨pages, hm', hinv, -⟩, hblock⟩ := h
  obtain rfl : m' = { m with pages := pages } := hm'
  obtain ⟨hlive, -⟩ := hblock resv rfl
  simp only at hlive
  have hmem : (resv.page, resv.order) ∈ pages.live := by
    rw [hlive]
    exact mem_cons_self
  have hinv' : (pages.step (.freePages cpu resv.page resv.order)).Inv m.map.maxPfn :=
    freePages_spec hcpu hinv hmem
  have hkept : ∀ pb ∈ m.pages.live,
      pb ∈ (pages.step (.freePages cpu resv.page resv.order)).live := by
    intro pb hpb
    simp only [System.step, hlive]
    split
    · rw [erase_cons_head]
      exact hpb
    · exact mem_cons_of_mem _ hpb
  exact ⟨hm.withPages hinv' hkept, hm.grows_withPages hkept⟩

theorem Reserves.append (h : Reserves m bytes (some resv, m')) (hm : m.Ok) {m'' : Machine}
    (happ : m'.appendSegment resv.segment = some m'') :
    m''.Ok ∧ m.Grows m'' ∧
      m''.heap = { m.heap with segments := m.heap.segments ++ [resv.segment] } ∧
      m.heap.segments.length < maxHeapSegments := by
  obtain ⟨⟨pages, hm', hinv, hkept⟩, hblock⟩ := h
  obtain rfl : m' = { m with pages := pages } := hm'
  obtain ⟨hlive, hspan, hnext, hlt, hsize⟩ := hblock resv rfl
  simp only at hlive
  rw [appendSegment] at happ
  split at happ
  · cases happ
  rename_i hlen
  cases happ
  simp only at hlen
  have hok := hm.withPages hinv hkept
  have hmem : (resv.page, resv.order) ∈ pages.live := by
    rw [hlive]
    exact mem_cons_self
  -- the block of the new segment is apart from all blocks there were
  have hfresh : ∀ pb ∈ m.pages.live,
      (m.map.span pb).Disjoint (m.map.span (resv.page, resv.order)) := by
    intro pb hpb
    have hpair := hinv.conserved.disjoint
    rw [hlive, pairwise_cons] at hpair
    exact (DirectMap.span_disjoint (hpair.1 pb hpb)).symm
  refine ⟨⟨hinv, ?_, ?_, ?_, ?_⟩, ⟨rfl, rfl, hkept, fun pb hpb hf => ?_, fun i seg hseg => ?_, ?_⟩,
    rfl, by omega⟩
  · exact forall_mem_append.2 ⟨hm.valid, forall_mem_singleton.2 ⟨hnext.ge, by omega⟩⟩
  · exact forall_mem_append.2 ⟨hok.owned, forall_mem_singleton.2 ⟨hlt, _, hmem, hspan⟩⟩
  · refine pairwise_append.2 ⟨hm.apart, pairwise_singleton _ _, ?_⟩
    intro seg hseg seg' hseg'
    obtain ⟨-, pb, hpb, hseg⟩ := hm.owned seg hseg
    rw [mem_singleton.1 hseg', hspan, hseg]
    exact hfresh pb hpb
  · simp only [setSegments, length_append, length_singleton]
    omega
  · refine forall_mem_append.2 ⟨hf, forall_mem_singleton.2 fun heq => ?_⟩
    have heq : _ = m.map.span pb := hspan.symm.trans heq
    have hdisj := hfresh pb hpb
    have hpos := m.map.span_nonempty pb
    rw [heq] at hdisj
    simp only [Span.Disjoint] at hdisj
    omega
  · refine ⟨seg, ?_, .refl (hm.valid seg (mem_iff_getElem?.2 ⟨i, hseg⟩))⟩
    obtain ⟨hi, -⟩ := List.getElem?_eq_some_iff.1 hseg
    exact (getElem?_append_left hi).trans hseg
  · simp only [setSegments, usedIn, map_append, sum_append]
    omega

/-- What `grow_heap_once` does: it adds a segment with room for the request, or
none. -/
structure GrowsOnce (m : Machine) (size : ℕ) (res : Bool × Machine) : Prop where
  ok : res.2.Ok
  grows : m.Grows res.2
  count : res.2.heap.liveAllocations = m.heap.liveAllocations
  initialized : res.2.heap.initialized = m.heap.initialized
  added : res.1 = true → m.heap.segments.length < maxHeapSegments ∧
    ∃ seg : HeapSegment, res.2.heap.segments = m.heap.segments ++ [seg] ∧ seg.next + size < 2 ^ 64

/-- The new segment has room for a request that is larger than its alignment. -/
theorem GrowsOnce.fits {size : ℕ} (h : GrowsOnce m size (true, m'))
    (hsize : layout.align - 1 ≤ size) (hf : ∀ seg ∈ m.heap.segments, seg.Fits layout) :
    ∀ seg ∈ m'.heap.segments, seg.Fits layout := by
  obtain ⟨-, seg, hsegs, hroom⟩ := h.added rfl
  intro seg' hseg'
  rw [show m'.heap.segments = m.heap.segments ++ [seg] from hsegs] at hseg'
  rcases mem_append.1 hseg' with hseg' | hseg'
  · exact hf seg' hseg'
  · rw [mem_singleton.1 hseg', HeapSegment.Fits]
    omega

theorem growHeapOnce_spec (h : m.Ok) (hcpu : cpu < maxCpus) (size : ℕ) :
    GrowsOnce m size (m.growHeapOnce cpu size) := by
  rw [growHeapOnce]
  cases htarget : growTargetFor size with
  | none => exact ⟨h, .refl h.valid, rfl, rfl, nofun⟩
  | some target =>
    have hres := reserveSegment_spec h target
    have hle := growTargetFor_le htarget
    simp only
    generalize m.reserveSegment target = res at hres ⊢
    obtain ⟨hok, hgrows, hheap⟩ := hres.keeps h
    have hcount := congrArg HeapState.liveAllocations hheap
    have hinit := congrArg HeapState.initialized hheap
    rcases res with ⟨_ | resv, m'⟩
    · exact ⟨hok, hgrows, hcount, hinit, nofun⟩
    obtain ⟨-, -, hnext, hlt, hroom⟩ := hres.block resv rfl
    simp only
    cases happ : if m'.heap.initialized then m'.appendSegment resv.segment else none with
    | none =>
      obtain ⟨hok, hgrows⟩ := hres.release h hcpu
      exact ⟨hok, hgrows, hcount, hinit, nofun⟩
    | some m'' =>
      split at happ
      · obtain ⟨hok, hgrows, hheap', hlen⟩ := hres.append h happ
        refine ⟨hok, hgrows, ?_, ?_, fun _ => ⟨hlen, resv.segment, ?_, by omega⟩⟩
        all_goals simp only [hheap']
      · cases happ

/-! ### The loops -/

/-- What `SimpleHeap::alloc` does: a block is handed out above all the blocks of
its segment and counted, or none is. -/
structure Serves (layout : Layout) (m : Machine) (res : ℕ × Machine) : Prop where
  ok : res.2.Ok
  grows : m.Grows res.2
  aligned : layout.align ∣ res.1
  null : res.1 = 0 → res.2.heap.liveAllocations = m.heap.liveAllocations
  count : res.1 ≠ 0 →
    res.2.heap.liveAllocations = satAdd u64Max m.heap.liveAllocations 1 ∧
    usedIn m.heap.segments + layout.size ≤ usedIn res.2.heap.segments
  block : res.1 ≠ 0 → ∃ seg' ∈ res.2.heap.segments,
    seg'.start ≤ res.1 ∧ res.1 + layout.size ≤ seg'.next ∧
    ∀ seg ∈ m.heap.segments, seg.span = seg'.span → seg.next ≤ res.1

theorem Serves.of_null (h : m'.Ok) (hgrows : m.Grows m')
    (hcount : m'.heap.liveAllocations = m.heap.liveAllocations) : Serves layout m (0, m') :=
  ⟨h, hgrows, Nat.dvd_zero _, fun _ => hcount, fun h => absurd rfl h, fun h => absurd rfl h⟩

theorem Serves.of_grows {res : ℕ × Machine} (hgrows : m.Grows m')
    (hcount : m'.heap.liveAllocations = m.heap.liveAllocations) (h : Serves layout m' res) :
    Serves layout m res where
  ok := h.ok
  grows := hgrows.trans h.grows
  aligned := h.aligned
  null hnull := (h.null hnull).trans hcount
  count hp := by
    obtain ⟨hlive, hused⟩ := h.count hp
    rw [hcount] at hlive
    exact ⟨hlive, (Nat.add_le_add_right hgrows.used _).trans hused⟩
  block hp := by
    obtain ⟨seg', hseg', hstart, hend, hold⟩ := h.block hp
    refine ⟨seg', hseg', hstart, hend, fun seg hseg hspan => ?_⟩
    obtain ⟨seg1, hseg1, hmoves⟩ := hgrows.rises.mem hseg
    exact hmoves.next.trans (hold seg1 hseg1 (hmoves.span.trans hspan))

theorem Ok.setSegments (h : m.Ok) (hmoves : List.Forall₂ Moves m.heap.segments segs) :
    (m.setSegments segs).Ok ∧ m.Grows (m.setSegments segs) := by
  have hback := moves_back hmoves
  have hlen : segs.length = m.heap.segments.length := hmoves.length_eq.symm
  refine ⟨⟨h.pages, fun seg' hseg' => ?_, fun seg' hseg' => ?_, ?_, hlen.trans_le h.few⟩,
    ⟨rfl, rfl, fun _ hpb => hpb, fun pb _ hf seg' hseg' => ?_, rises_of_forall₂ hmoves,
      usedIn_le hmoves⟩⟩
  · obtain ⟨seg, hseg, hm⟩ := hback seg' hseg'
    exact hm.valid (h.valid seg hseg)
  · obtain ⟨seg, hseg, hm⟩ := hback seg' hseg'
    obtain ⟨hstop, pb, hpb, hspan⟩ := h.owned seg hseg
    exact ⟨by rwa [hm.stop], pb, hpb, hm.span.trans hspan⟩
  · have hpair : (m.heap.segments.map HeapSegment.span).Pairwise Span.Disjoint :=
      pairwise_map.2 h.apart
    rw [← moves_spans hmoves] at hpair
    exact pairwise_map.1 hpair
  · obtain ⟨seg, hseg, hm⟩ := hback seg' hseg'
    rw [hm.span]
    exact hf seg hseg

/-- Once the rounds exceed the segments that can be added, more of them change
nothing. -/
theorem allocLoop_spec (hcpu : cpu < maxCpus) (hreq : layout.align - 1 ≤ required) (n : ℕ)
    (h : m.Ok) (hf : ∀ seg ∈ m.heap.segments, seg.Fits layout) :
    Serves layout m (allocLoop cpu layout required n m) ∧
      (maxHeapSegments < n + m.heap.segments.length →
        allocLoop cpu layout required n m = allocLoop cpu layout required (n + 1) m) := by
  induction n generalizing m with
  | zero =>
    refine ⟨.of_null h (.refl h.valid) rfl, fun hn => ?_⟩
    have := h.few
    omega
  | succ n ih =>
    rw [allocLoop, allocLoop]
    split
    swap
    · exact ⟨.of_null h (.refl h.valid) rfl, fun _ => rfl⟩
    have hin := allocIn_spec h.valid hf
    generalize allocIn layout m.heap.segments = res at hin ⊢
    obtain ⟨ptr, segs⟩ := res
    obtain ⟨hok, hgrows⟩ := h.setSegments hin.moves
    by_cases hnull : ptr = 0
    · -- all segments are full: grow and try again
      simp only [hnull, ne_eq, not_true_eq_false, if_false]
      have hgrow := growHeapOnce_spec hok hcpu required
      generalize (m.setSegments segs).growHeapOnce cpu required = res at hgrow ⊢
      rcases res with ⟨_ | _, m'⟩
      · exact ⟨.of_null hgrow.ok (hgrows.trans hgrow.grows) hgrow.count, fun _ => rfl⟩
      obtain ⟨hserves, hrounds⟩ := ih hgrow.ok (hgrow.fits hreq (hin.fits hnull))
      refine ⟨.of_grows (hgrows.trans hgrow.grows) hgrow.count hserves, fun hn => hrounds ?_⟩
      obtain ⟨-, seg, hsegs, -⟩ := hgrow.added rfl
      rw [show m'.heap.segments = segs ++ [seg] from hsegs, length_append, length_singleton,
        ← hin.moves.length_eq]
      omega
    · simp only [ne_eq, hnull, not_false_eq_true, if_true]
      obtain ⟨seg, hseg, seg', hseg', hmoves, hnext, hend⟩ := hin.block hnull
      have hused := hin.used
      rw [if_neg hnull] at hused
      have hlow := (h.valid seg hseg).1
      refine ⟨⟨⟨hok.pages, hok.valid, hok.owned, hok.apart, hok.few⟩,
        ⟨rfl, rfl, hgrows.live, hgrows.foreign, hgrows.rises, hgrows.used⟩, hin.aligned,
        fun h => absurd h hnull, fun _ => ⟨rfl, hused⟩, fun _ => ⟨seg', hseg', ?_, hend.le, ?_⟩⟩,
        fun _ => trivial⟩
      · rw [hmoves.start]
        exact hlow.trans hnext
      · -- a segment with these addresses is the one the block was taken from
        intro seg0 hseg0 hspan
        rw [h.eq_of_span hseg0 hseg (hspan.trans hmoves.span)]
        exact hnext

/-- A request of `init_heap` is halved at most as often as its logarithm says. -/
theorem initLoop_spec (hcpu : cpu < maxCpus) (n remain request : ℕ) (h : m.Ok) :
    (initLoop cpu n remain request m).Ok ∧
      m.Grows (initLoop cpu n remain request m) ∧
      (initLoop cpu n remain request m).heap.liveAllocations = m.heap.liveAllocations ∧
      (request ≤ maxChunkSize →
        24 * (maxHeapSegments - m.heap.segments.length) + Nat.log2 request < n →
        initLoop cpu n remain request m = initLoop cpu (n + 1) remain request m) := by
  induction n generalizing remain request m with
  | zero => exact ⟨h, .refl h.valid, rfl, fun _ hn => absurd hn (Nat.not_lt_zero _)⟩
  | succ n ih =>
    rw [initLoop, initLoop]
    split
    · exact ⟨h, .refl h.valid, rfl, fun _ _ => rfl⟩
    have hres := reserveSegment_spec h request
    generalize m.reserveSegment request = res at hres ⊢
    obtain ⟨hok, hgrows, hheap⟩ := hres.keeps h
    have hcount := congrArg HeapState.liveAllocations hheap
    rcases res with ⟨_ | resv, m'⟩
    · simp only
      split
      · rename_i hlarge
        obtain ⟨hok', hgrows', hcount', hrounds⟩ := ih remain (request / 2) hok
        refine ⟨hok', hgrows.trans hgrows', hcount'.trans hcount, fun hreq hn =>
          hrounds (by omega) ?_⟩
        simp only [pageSize] at hlarge
        have hlog : Nat.log2 request = Nat.log2 (request / 2) + 1 := by
          rw [Nat.log2_def, if_pos (by omega)]
        rw [show m'.heap = m.heap from hheap]
        omega
      · exact ⟨hok, hgrows, hcount, fun _ _ => rfl⟩
    · simp only
      cases happ : m'.appendSegment resv.segment with
      | none =>
        obtain ⟨hok, hgrows⟩ := hres.release h hcpu
        exact ⟨hok, hgrows, hcount, fun _ _ => rfl⟩
      | some m'' =>
        obtain ⟨hok, hgrows, hheap', hlen⟩ := hres.append h happ
        simp only
        generalize remain - (resv.segment.stop - resv.segment.start) = remain'
        obtain ⟨hok', hgrows', hcount, hrounds⟩ :=
          ih remain' (max (min remain' maxChunkSize) pageSize) hok
        have hmax : maxChunkSize = 2 ^ 22 := by decide
        refine ⟨hok', hgrows.trans hgrows', hcount.trans (by rw [hheap']), fun _ hn =>
          hrounds ?_ ?_⟩
        · simp only [pageSize]
          omega
        have hlog : Nat.log2 (max (min remain' maxChunkSize) pageSize) < 23 := by
          refine (Nat.log2_lt ?_).2 ?_ <;> simp only [pageSize] <;> omega
        rw [hheap', length_append, length_singleton]
        omega

end Machine

end JanuaryOs.Alloc

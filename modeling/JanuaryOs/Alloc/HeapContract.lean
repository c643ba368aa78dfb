import JanuaryOs.Alloc.HeapSpec

/-!
# The contract of the global allocator, over whole runs

A run is made of the calls of the allocator's users, of the calls that others
make of the page allocator, and of writes to memory. Next to the machine it
keeps the blocks that are in use and who served each of them. `kmalloc` is
assumed to meet its contract: what it returns lies in a block of frames that is
not a segment of the heap, and overlaps nothing else it has handed out. The
users do not write to the headers, and the bytes in front of a block of
`SimpleHeap` do not look like a header when the block is given back.

`HeapSegment::alloc` rounds its pointer up without a check. If that wraps, the
segment continues at the bottom of the address space, climbs over everything
there is and hands out its own blocks again. So the contract holds in the runs
in which no pointer is rounded beyond the last address
(`global_alloc_contract`), and not in others (`rounding_wraps_to_live_block`).
-/

namespace JanuaryOs.Alloc

open Lib Phys List Function

/-! ### Blocks -/

/-- Who served a block. -/
inductive Origin
  /-- A block of size zero, whose address is the alignment. -/
  | dangling
  | simple
  /-- The slab allocator, with the pointer `kmalloc` returned. -/
  | kmalloc (raw : ℕ)
  deriving Repr, DecidableEq

/-- The pointer `kmalloc` returned. -/
def Origin.raw : Origin → Option ℕ
  | .kmalloc raw => some raw
  | _ => none

/-- The bytes that are asked of `kmalloc`, if it returns `raw`. -/
def Layout.room (layout : Layout) (raw : ℕ) : Span :=
  ⟨raw, raw + (layout.size + (layout.align - 1) + headerSize)⟩

/-- A block in use. -/
structure Block where
  ptr : ℕ
  layout : Layout
  origin : Origin
  deriving DecidableEq

namespace Block

/-- The header in front of a block, if it has one. -/
def header (b : Block) : Span :=
  match b.origin with
  | .kmalloc _ => ⟨b.ptr - headerSize, b.ptr⟩
  | _ => ⟨b.ptr, b.ptr⟩

/-- The block together with its header. -/
def extent (b : Block) : Span := ⟨b.header.start, b.ptr + b.layout.size⟩

/-- `kmalloc` served the block, and what it handed out meets `P`. -/
def RoomMeets (b : Block) (P : Span → Prop) : Prop :=
  match b.origin with
  | .kmalloc raw => P (b.layout.room raw)
  | _ => True

instance (P : Span → Prop) [DecidablePred P] : (b : Block) → Decidable (b.RoomMeets P)
  | ⟨_, layout, .kmalloc raw⟩ => inferInstanceAs (Decidable (P (layout.room raw)))
  | ⟨_, _, .dangling⟩ | ⟨_, _, .simple⟩ => .isTrue trivial

end Block

/-! ### Runs -/

/-- The machine and the users of the allocator. -/
structure Client where
  machine : Machine
  live : List Block

inductive HeapOp
  /-- Somebody else calls the page allocator. -/
  | pages (op : PhysOp)
  | init (cpu targetSize : ℕ)
  /-- `kmalloc` is the answer of `kmalloc`, if it is called. -/
  | alloc (cpu : ℕ) (layout : Layout) (slub : Bool) (kmalloc : ℕ)
  | dealloc (b : Block)
  | write (addr : ℕ) (byte : UInt8)

namespace Client

def boot (map : DirectMap) (reserved : Pfn → Bool) (mem : ByteMem) : Client :=
  ⟨⟨map, .boot map.maxPfn reserved, .new, mem⟩, []⟩

def originOf (layout : Layout) (slub : Bool) (kmalloc : ℕ) : Origin :=
  if layout.size = 0 then .dangling else if slub then .kmalloc kmalloc else .simple

variable (s : Client)

/-- A block that was allocated, unless it is null. -/
def served (layout : Layout) (origin : Origin) (res : ℕ × Machine) : Client :=
  ⟨res.2, if res.1 = 0 then s.live else ⟨res.1, layout, origin⟩ :: s.live⟩

def step : HeapOp → Client
  | .pages op => { s with machine := { s.machine with pages := s.machine.pages.step op } }
  | .init cpu targetSize => { s with machine := s.machine.initHeap cpu targetSize }
  | .alloc cpu layout slub kmalloc =>
    s.served layout (originOf layout slub kmalloc) (s.machine.alloc cpu layout slub kmalloc)
  | .dealloc b => ⟨(s.machine.dealloc b.ptr b.layout).2, s.live.erase b⟩
  | .write addr byte =>
    { s with machine := { s.machine with mem := update s.machine.mem addr byte } }

/-- The contract of `kmalloc`: the room it returns lies in a block of frames
that is not a segment, and overlaps no other room it has handed out. -/
def KmallocMeets (room : Span) : Prop :=
  (∃ pb ∈ s.machine.pages.live, s.machine.Foreign pb ∧ room.Within (s.machine.map.span pb)) ∧
    ∀ b ∈ s.live, b.RoomMeets room.Disjoint
deriving Decidable

/-- The frames are neither a segment nor what `kmalloc` has handed out. -/
def Unused (pb : ℕ × ℕ) : Prop :=
  s.machine.Foreign pb ∧
    ∀ b ∈ s.live, b.RoomMeets fun room => ¬ room.Within (s.machine.map.span pb)
deriving Decidable

/-- The bytes in front of a block of `SimpleHeap` do not form a header of it. -/
def Headless (b : Block) : Prop :=
  b.origin = .simple → s.machine.kfreeAligned b.ptr b.layout = none
deriving Decidable

/-- What is assumed of the calls. -/
def Contract : HeapOp → Prop
  | .pages op => s.machine.pages.Allowed op ∧ ∀ pb ∈ PhysOp.frees op, s.Unused pb
  | .init cpu _ => cpu < maxCpus
  | .alloc cpu layout slub kmalloc =>
    cpu < maxCpus ∧
      (layout.size ≠ 0 → slub = true → kmalloc ≠ 0 → s.KmallocMeets (layout.room kmalloc))
  | .dealloc b => b ∈ s.live ∧ s.Headless b
  | .write addr _ => ∀ b ∈ s.live, ¬ b.header.Has addr

instance : (op : HeapOp) → Decidable (s.Contract op)
  | .pages _ => inferInstanceAs (Decidable (_ ∧ ∀ pb ∈ PhysOp.frees _, _))
  | .init .. => inferInstanceAs (Decidable (_ < _))
  | .alloc .. => inferInstanceAs (Decidable (_ < _ ∧ (_ → _ → _ → _)))
  | .dealloc _ => inferInstanceAs (Decidable (_ ∧ _))
  | .write .. => inferInstanceAs (Decidable (∀ b ∈ s.live, _))

/-- No pointer of `SimpleHeap` is rounded up beyond the last address. -/
def NoWrap : HeapOp → Prop
  | .alloc _ layout slub _ =>
    layout.size ≠ 0 → slub = false → ∀ seg ∈ s.machine.heap.segments, seg.Fits layout
  | _ => True

instance : (op : HeapOp) → Decidable (s.NoWrap op)
  | .alloc .. => inferInstanceAs (Decidable (_ → _ → ∀ seg ∈ s.machine.heap.segments, _))
  | .pages _ | .init .. | .dealloc _ | .write .. => inferInstanceAs (Decidable True)

/-- Memory of `SimpleHeap` is handed out again: the pointer of a segment is
lower than before. -/
def Recycles (s s' : Client) : Prop :=
  ∃ (i : ℕ) (seg seg' : HeapSegment), s.machine.heap.segments[i]? = some seg ∧
    s'.machine.heap.segments[i]? = some seg' ∧ seg'.next < seg.next

/-- The contract of the allocator. -/
structure Sound (s : Client) : Prop where
  aligned : ∀ b ∈ s.live, b.layout.align ∣ b.ptr
  disjoint : s.live.Pairwise fun a b => a.extent.Disjoint b.extent
  /-- `kfree` gets what `kmalloc` returned for the block, and only for blocks of
  `kmalloc`. -/
  freed : ∀ b ∈ s.live, s.Headless b →
    (s.machine.dealloc b.ptr b.layout).1 = b.origin.raw
  /-- `SimpleHeap` does not take back what it has not served. -/
  kept : ∀ b ∈ s.live, b.origin ≠ .simple → (s.machine.dealloc b.ptr b.layout).2 = s.machine
  /-- Nothing of `SimpleHeap` is in use when it starts over. -/
  recycled : ∀ op, s.Contract op → s.NoWrap op → Recycles s (s.step op) →
    ∀ b ∈ (s.step op).live, b.origin ≠ .simple

/-! ### The invariant -/

/-- A block of `SimpleHeap` is below the pointer of a segment. -/
structure Bumped (m : Machine) (b : Block) : Prop where
  size : b.layout.size ≠ 0
  ptr : b.ptr ≠ 0
  aligned : b.layout.align ∣ b.ptr
  segment : ∃ seg ∈ m.heap.segments, seg.start ≤ b.ptr ∧ b.ptr + b.layout.size ≤ seg.next

/-- A block of `kmalloc` has a header that leads back to what `kmalloc`
returned. -/
structure Headed (m : Machine) (b : Block) (raw : ℕ) : Prop where
  size : b.layout.size ≠ 0
  raw_ne : raw ≠ 0
  user : b.ptr = alignUp (satAdd u64Max raw headerSize) b.layout.align
  low : raw + headerSize ≤ b.ptr
  high : b.ptr + b.layout.size ≤ (b.layout.room raw).stop
  magicWord : m.mem.load (b.ptr - headerSize) = globalAllocMagic
  rawWord : m.mem.load (b.ptr - headerSize + 8) = raw
  checksum : m.mem.load (b.ptr - headerSize + 16) = raw ^^^ b.ptr ^^^ globalAllocMagic
  page : ∃ pb ∈ m.pages.live, m.Foreign pb ∧ (b.layout.room raw).Within (m.map.span pb)

/-- Where a block in use is. -/
def Placed (m : Machine) (b : Block) : Prop :=
  match b.origin with
  | .dangling => b.layout.size = 0 ∧ b.ptr = b.layout.align
  | .simple => Bumped m b
  | .kmalloc raw => Headed m b raw

/-- The blocks `SimpleHeap` has to count. -/
def simpleCount (live : List Block) : ℕ := live.countP (·.origin = .simple)

structure Inv (s : Client) : Prop where
  ok : s.machine.Ok
  counted : s.machine.heap.liveAllocations = simpleCount s.live
  used : s.machine.heap.liveAllocations ≤ usedIn s.machine.heap.segments
  placed : ∀ b ∈ s.live, Placed s.machine b
  disjoint : s.live.Pairwise fun a b => a.extent.Disjoint b.extent

variable {m m' : Machine} {s : Client} {b : Block} {raw : ℕ} {mem : ByteMem}

/-! ### Where blocks are -/

theorem Headed.extent_within (h : Headed m b raw) (ho : b.origin = .kmalloc raw) :
    b.extent.Within (b.layout.room raw) := by
  have hlow := h.low
  have hhigh := h.high
  simp only [Span.Within, Block.extent, Block.header, ho, Layout.room] at *
  omega

theorem dangling_disjoint (ho : b.origin = .dangling) (hsize : b.layout.size = 0) (a : Span) :
    a.Disjoint b.extent := by
  simp only [Span.Disjoint, Block.extent, Block.header, ho]
  omega

/-- A block stays where it is if its segment only rises, nothing is written to
its header and its frames are kept. -/
theorem Placed.frame (h : Placed m b) (hmap : m'.map = m.map)
    (hsegs : b.origin = .simple → ∀ seg ∈ m.heap.segments,
      ∃ seg' ∈ m'.heap.segments, seg'.start = seg.start ∧ seg.next ≤ seg'.next)
    (hmem : ∀ x, b.header.Has x → m'.mem x = m.mem x)
    (hpage : ∀ raw, b.origin = .kmalloc raw → ∀ pb ∈ m.pages.live, m.Foreign pb →
      (b.layout.room raw).Within (m.map.span pb) → pb ∈ m'.pages.live ∧ m'.Foreign pb) :
    Placed m' b := by
  unfold Placed at h ⊢
  split at h
  · exact h
  · rename_i ho
    obtain ⟨seg, hseg, hstart, hnext⟩ := h.segment
    obtain ⟨seg', hseg', hsame, hup⟩ := hsegs ho seg hseg
    exact ⟨h.size, h.ptr, h.aligned, seg', hseg', hsame.trans_le hstart, hnext.trans hup⟩
  · rename_i raw ho
    obtain ⟨pb, hpb, hf, hwithin⟩ := h.page
    obtain ⟨hpb', hf'⟩ := hpage raw ho pb hpb hf hwithin
    have hlow := h.low
    have hword : ∀ k, k + 8 ≤ headerSize →
        m'.mem.load (b.ptr - headerSize + k) = m.mem.load (b.ptr - headerSize + k) := by
      intro k hk
      refine ByteMem.load_congr fun x h1 h2 => hmem x ?_
      simp only [Span.Has, Block.header, ho]
      omega
    have h0 : m'.mem.load (b.ptr - headerSize) = m.mem.load (b.ptr - headerSize) :=
      hword 0 (by decide)
    exact ⟨h.size, h.raw_ne, h.user, h.low, h.high, h0.trans h.magicWord,
      (hword 8 (by decide)).trans h.rawWord, (hword 16 (by decide)).trans h.checksum, pb, hpb',
      hf', by rwa [hmap]⟩

theorem Placed.grows (h : Placed m b) (hgrows : m.Grows m') : Placed m' b := by
  refine h.frame hgrows.map (fun _ seg hseg => ?_) (fun _ _ => by rw [hgrows.mem])
    fun _ _ pb hpb hf _ => ⟨hgrows.live pb hpb, hgrows.foreign pb hpb hf⟩
  obtain ⟨seg', hseg', hmoves⟩ := hgrows.rises.mem hseg
  exact ⟨seg', hseg', hmoves.start, hmoves.next⟩

theorem Placed.withMem (h : Placed m b) (hmem : ∀ x, b.header.Has x → mem x = m.mem x) :
    Placed { m with mem := mem } b :=
  h.frame rfl (fun _ seg hseg => ⟨seg, hseg, rfl, le_rfl⟩) hmem fun _ _ _ hpb hf _ => ⟨hpb, hf⟩

variable {layout : Layout} {cpu : ℕ} {res : ℕ × Machine} {op : HeapOp}

/-- What `SimpleHeap` serves is apart from everything in use. -/
theorem Inv.bumped_disjoint (h : s.Inv) (hserves : Machine.Serves layout s.machine res)
    (hnull : res.1 ≠ 0) (hb : b ∈ s.live) :
    Span.Disjoint ⟨res.1, res.1 + layout.size⟩ b.extent := by
  obtain ⟨seg', hseg', hstart, hend, hold⟩ := hserves.block hnull
  have hok := hserves.ok
  have hgrows := hserves.grows
  have hwithin : Span.Within ⟨res.1, res.1 + layout.size⟩ seg'.span :=
    ⟨hstart, hend.trans (hok.valid seg' hseg').2⟩
  have hplaced := h.placed b hb
  unfold Placed at hplaced
  split at hplaced
  · rename_i ho
    exact dangling_disjoint ho hplaced.1 _
  · rename_i ho
    obtain ⟨seg, hseg, hlow, hhigh⟩ := hplaced.segment
    have hext : b.extent = ⟨b.ptr, b.ptr + b.layout.size⟩ := by
      simp only [Block.extent, Block.header, ho]
    rw [hext]
    by_cases hspan : seg.span = seg'.span
    · have := hold seg hseg hspan
      simp only [Span.Disjoint]
      omega
    obtain ⟨seg1, hseg1, hmoves⟩ := hgrows.rises.mem hseg
    have hne : seg' ≠ seg1 := fun heq => hspan (by rw [heq, hmoves.span])
    have : Std.Symm fun a b : HeapSegment => a.span.Disjoint b.span :=
      ⟨fun _ _ hdisj => hdisj.symm⟩
    refine (hok.apart.forall hseg' hseg1 hne).mono hwithin ?_
    rw [hmoves.span]
    exact ⟨hlow, hhigh.trans (h.ok.valid seg hseg).2⟩
  · rename_i raw ho
    obtain ⟨pb, hpb, hf, hpage⟩ := hplaced.page
    have hdisj := hok.foreign_disjoint hseg' (hgrows.live pb hpb) (hgrows.foreign pb hpb hf)
    rw [hgrows.map] at hdisj
    exact hdisj.mono hwithin ((hplaced.extent_within ho).trans hpage)

theorem Inv.room_disjoint (h : s.Inv) {room : Span} (hmeets : s.KmallocMeets room)
    (hb : b ∈ s.live) : room.Disjoint b.extent := by
  obtain ⟨⟨pb, hpb, hf, hroom⟩, hrooms⟩ := hmeets
  have hplaced := h.placed b hb
  unfold Placed at hplaced
  split at hplaced
  · rename_i ho
    exact dangling_disjoint ho hplaced.1 _
  · rename_i ho
    obtain ⟨seg, hseg, hlow, hhigh⟩ := hplaced.segment
    have hext : b.extent.Within seg.span := by
      have := (h.ok.valid seg hseg).2
      simp only [Span.Within, Block.extent, Block.header, ho, HeapSegment.span]
      omega
    exact ((h.ok.foreign_disjoint hseg hpb hf).mono hext hroom).symm
  · rename_i raw ho
    have hdisj := hrooms b hb
    rw [Block.RoomMeets, ho] at hdisj
    exact hdisj.mono ⟨le_rfl, le_rfl⟩ (hplaced.extent_within ho)

/-! ### Steps -/

theorem Inv.of_grows (h : s.Inv) (hok : m'.Ok) (hgrows : s.machine.Grows m')
    (hcount : m'.heap.liveAllocations = s.machine.heap.liveAllocations) : Inv ⟨m', s.live⟩ where
  ok := hok
  counted := hcount.trans h.counted
  used := hcount.trans_le (h.used.trans hgrows.used)
  placed b hb := (h.placed b hb).grows hgrows
  disjoint := h.disjoint

/-- The other users of the page allocator take nothing away. -/
theorem Inv.pages (h : s.Inv) {op : PhysOp} (hok : s.Contract (.pages op)) :
    (s.step (.pages op)).Inv := by
  obtain ⟨hallowed, hunused⟩ := hok
  have hkept : ∀ pb ∈ s.machine.pages.live, (∀ pb' ∈ PhysOp.frees op, pb' ≠ pb) →
      pb ∈ (s.machine.pages.step op).live :=
    fun pb hpb hne => mem_live_step hpb fun hfrees => hne pb hfrees rfl
  refine ⟨⟨h.ok.pages.step hallowed, h.ok.valid, fun seg hseg => ?_, h.ok.apart, h.ok.few⟩,
    h.counted, h.used, fun b hb => ?_, h.disjoint⟩
  · obtain ⟨hstop, pb, hpb, hspan⟩ := h.ok.owned seg hseg
    refine ⟨hstop, pb, hkept pb hpb fun pb' hpb' heq => ?_, hspan⟩
    exact (hunused pb' hpb').1 seg hseg (heq ▸ hspan)
  · refine (h.placed b hb).frame rfl (fun _ seg hseg => ⟨seg, hseg, rfl, le_rfl⟩) (fun _ _ => rfl)
      fun raw ho pb hpb hf hwithin => ⟨hkept pb hpb fun pb' hpb' heq => ?_, hf⟩
    have hroom := (hunused pb' hpb').2 b hb
    rw [Block.RoomMeets, ho, heq] at hroom
    exact hroom hwithin

theorem initHeap_spec (h : m.Ok) (hcpu : cpu < maxCpus) (targetSize : ℕ) :
    (m.initHeap cpu targetSize).Ok ∧ m.Grows (m.initHeap cpu targetSize) ∧
      (m.initHeap cpu targetSize).heap.liveAllocations = m.heap.liveAllocations := by
  rw [Machine.initHeap]
  split
  · exact ⟨h, .refl h.valid, rfl⟩
  have hmark : Machine.Ok { m with heap := { m.heap with initialized := true } } :=
    ⟨h.pages, h.valid, h.owned, h.apart, h.few⟩
  have hgrows : m.Grows { m with heap := { m.heap with initialized := true } } :=
    ⟨rfl, rfl, fun _ hpb => hpb, fun _ _ hf => hf, rises_of_forall₂ (moves_refl h.valid), le_rfl⟩
  obtain ⟨hok, hgrows', hcount, -⟩ := Machine.initLoop_spec hcpu Machine.initRounds
    (max targetSize pageSize) (max (min (max targetSize pageSize) maxChunkSize) pageSize) hmark
  exact ⟨hok, hgrows.trans hgrows', hcount⟩

theorem simpleAlloc_spec (h : m.Ok) (hcpu : cpu < maxCpus)
    (hf : ∀ seg ∈ m.heap.segments, seg.Fits layout) :
    Machine.Serves layout m (m.simpleAlloc cpu layout) := by
  rw [Machine.simpleAlloc]
  cases hadd : checkedAdd layout.size (layout.align - 1) with
  | none => exact .of_null h (.refl h.valid) rfl
  | some required =>
    obtain ⟨hreq, -⟩ := checkedAdd_eq_some.1 hadd
    exact (Machine.allocLoop_spec hcpu (by omega) _ h hf).1

/-- The count of `SimpleHeap` never saturates: its blocks are not empty, and all
segments together are small. -/
theorem Inv.count_lt (h : s.Inv) : s.machine.heap.liveAllocations < u64Max := by
  have hseg : ∀ seg ∈ s.machine.heap.segments, seg.used ≤ 2 ^ 22 := by
    intro seg hseg
    obtain ⟨-, pb, hpb, hspan⟩ := h.ok.owned seg hseg
    have hnext := (h.ok.valid seg hseg).2
    have horder := (live_block h.ok.pages hpb).1
    have hpow : 2 ^ pb.2 ≤ 2 ^ 10 := Nat.pow_le_pow_right (by decide) (by
      simp only [maxOrder] at horder
      omega)
    have hstop := s.machine.map.span_stop pb
    rw [← hspan] at hstop
    simp only [HeapSegment.span, HeapSegment.used, pageSize] at *
    omega
  have hsum := usedIn_le_mul hseg
  have hfew := h.ok.few
  have hused := h.used
  simp only [maxHeapSegments, u64Max] at *
  omega

theorem Inv.simple (h : s.Inv) (hsize : layout.size ≠ 0)
    (hserves : Machine.Serves layout s.machine res) : (s.served layout .simple res).Inv := by
  unfold served
  by_cases hnull : res.1 = 0
  · rw [if_pos hnull]
    exact h.of_grows hserves.ok hserves.grows (hserves.null hnull)
  rw [if_neg hnull]
  obtain ⟨hcount, hused⟩ := hserves.count hnull
  obtain ⟨seg', hseg', hstart, hend, -⟩ := hserves.block hnull
  have hlt := h.count_lt
  have hsum : res.2.heap.liveAllocations = s.machine.heap.liveAllocations + 1 := by
    rw [hcount, satAdd, min_eq_right (by omega)]
  refine ⟨hserves.ok, ?_, ?_, ?_, ?_⟩
  · rw [hsum, h.counted]
    simp [simpleCount]
  · have := h.used
    simp only at hused ⊢
    omega
  · refine forall_mem_cons.2 ⟨?_, fun b hb => (h.placed b hb).grows hserves.grows⟩
    exact ⟨hsize, hnull, hserves.aligned, seg', hseg', hstart, hend⟩
  · exact pairwise_cons.2 ⟨fun b hb => h.bumped_disjoint hserves hnull hb, h.disjoint⟩

theorem writeHeader_load (mem : ByteMem) (raw user : ℕ) (hraw : raw < 2 ^ 64)
    (huser : user < 2 ^ 64) :
    (writeHeader mem raw user).load (user - headerSize) = globalAllocMagic ∧
      (writeHeader mem raw user).load (user - headerSize + 8) = raw ∧
      (writeHeader mem raw user).load (user - headerSize + 16)
        = raw ^^^ user ^^^ globalAllocMagic := by
  have hmagic : globalAllocMagic < 2 ^ 64 := by decide
  have hsum : raw ^^^ user ^^^ globalAllocMagic < 2 ^ 64 :=
    Nat.xor_lt_two_pow (Nat.xor_lt_two_pow hraw huser) hmagic
  unfold writeHeader
  refine ⟨?_, ?_, ByteMem.load_store hsum⟩
  · rw [ByteMem.load_store_of_disjoint (by omega), ByteMem.load_store_of_disjoint (by omega),
      ByteMem.load_store hmagic]
  · rw [ByteMem.load_store_of_disjoint (by omega), ByteMem.load_store hraw]

theorem writeHeader_of_not_has {raw user x : ℕ} (h : headerSize ≤ user)
    (hx : ¬ Span.Has ⟨user - headerSize, user⟩ x) : writeHeader mem raw user x = mem x := by
  simp only [headerSize] at h
  simp only [Span.Has, headerSize] at hx
  unfold writeHeader
  rw [ByteMem.store_of_not_has, ByteMem.store_of_not_has, ByteMem.store_of_not_has]
  all_goals
    simp only [Span.Has, headerSize]
    omega

theorem Inv.kmalloc (h : s.Inv) (hsize : layout.size ≠ 0) {raw : ℕ}
    (hmeets : raw ≠ 0 → s.KmallocMeets (layout.room raw)) :
    (s.served layout (.kmalloc raw) (s.machine.kmallocAligned layout raw)).Inv := by
  have hsame : (s.served layout (.kmalloc raw) (0, s.machine)).Inv := h
  rw [Machine.kmallocAligned]
  cases kmallocRequest layout with
  | none => exact hsame
  | some request =>
    simp only
    by_cases hraw : raw = 0
    · rw [if_pos hraw]
      exact hsame
    rw [if_neg hraw]
    specialize hmeets hraw
    obtain ⟨pb, hpb, hf, hwithin⟩ := hmeets.1
    have hfits := s.machine.map.fits
    have hspan := live_span h.ok.pages hpb
    have hroom := hwithin.2
    have hpos := layout.align_pos
    simp only [Layout.room] at hroom
    have hsum : satAdd u64Max raw headerSize = raw + headerSize := by
      simp only [satAdd, u64Max]
      omega
    obtain ⟨hlow, hhigh⟩ := alignUp_bounds (raw + headerSize) hpos (by omega)
    simp only [hsum]
    have huser : alignUp (satAdd u64Max raw headerSize) layout.align
        = alignUp (raw + headerSize) layout.align := by rw [hsum]
    generalize alignUp (raw + headerSize) layout.align = user at *
    have hne : user ≠ 0 := by
      simp only [headerSize] at hlow
      omega
    obtain ⟨hmagic, hrawWord, hcheck⟩ :=
      writeHeader_load s.machine.mem raw user (by omega) (by omega)
    have hheaded : Headed { s.machine with mem := writeHeader s.machine.mem raw user }
        ⟨user, layout, .kmalloc raw⟩ raw :=
      ⟨hsize, hraw, huser.symm, hlow, by simp only [Layout.room]; omega, hmagic, hrawWord, hcheck,
        pb, hpb, hf, hwithin⟩
    have hextent := hheaded.extent_within rfl
    unfold served
    rw [if_neg hne]
    refine ⟨⟨h.ok.pages, h.ok.valid, h.ok.owned, h.ok.apart, h.ok.few⟩, ?_, h.used, ?_, ?_⟩
    · rw [h.counted]
      simp [simpleCount]
    · refine forall_mem_cons.2 ⟨hheaded, fun b hb => ?_⟩
      refine (h.placed b hb).withMem fun x hx =>
        writeHeader_of_not_has (by omega) fun hnew => ?_
      -- the new header is part of the room, the old one part of its block
      have hdisj := h.room_disjoint hmeets hb
      refine Span.disjoint_iff.1 hdisj x (hextent.has ?_) ?_
      · have := hnew.1
        have := hnew.2
        simp only [Span.Has, Block.extent, Block.header] at *
        omega
      · have := hx.1
        have := hx.2
        have : b.header.stop = b.ptr := by
          rw [Block.header]
          split <;> rfl
        simp only [Span.Has, Block.extent]
        omega
    · exact pairwise_cons.2
        ⟨fun b hb => (h.room_disjoint hmeets hb).mono hextent ⟨le_rfl, le_rfl⟩, h.disjoint⟩

theorem Inv.dangling (h : s.Inv) (hsize : layout.size = 0) :
    (s.served layout .dangling (layout.align, s.machine)).Inv := by
  unfold served
  rw [if_neg layout.align_pos.ne']
  refine ⟨h.ok, ?_, h.used, ?_, ?_⟩
  · rw [h.counted]
    simp [simpleCount]
  · exact forall_mem_cons.2 ⟨⟨hsize, rfl⟩, h.placed⟩
  · exact pairwise_cons.2
      ⟨fun b _ => (dangling_disjoint (b := ⟨layout.align, layout, .dangling⟩) rfl hsize _).symm,
        h.disjoint⟩

theorem Inv.alloc (h : s.Inv) {kmalloc : ℕ} {slub : Bool}
    (hok : s.Contract (.alloc cpu layout slub kmalloc))
    (hwrap : s.NoWrap (.alloc cpu layout slub kmalloc)) :
    (s.step (.alloc cpu layout slub kmalloc)).Inv := by
  rw [step, Machine.alloc, originOf]
  by_cases hsize : layout.size = 0
  · rw [if_pos hsize, if_pos hsize]
    exact h.dangling hsize
  rw [if_neg hsize, if_neg hsize]
  cases slub with
  | true => exact h.kmalloc hsize (hok.2 hsize rfl)
  | false => exact h.simple hsize (simpleAlloc_spec h.ok hok.1 (hwrap hsize rfl))

/-- A header leads back to what `kmalloc` returned. -/
theorem Headed.kfreeAligned (h : Headed m b raw) (hok : m.Ok) :
    m.kfreeAligned b.ptr b.layout = some raw := by
  obtain ⟨pb, hpb, -, hwithin⟩ := h.page
  have hspan := live_span hok.pages hpb
  have hfits := m.map.fits
  have hlow := h.low
  have hbase := hwithin.1
  have htop := hwithin.2
  simp only [Layout.room] at hbase htop
  have hmap : m.map.isDirectMapPtr raw = true := by
    have hheader : headerSize = 24 := rfl
    refine DirectMap.isDirectMapPtr_of_le (by omega) (by omega) ?_
    simp only [u64Max]
    omega
  have huser : ¬ b.ptr < headerSize := by omega
  have hle : ¬ raw > b.ptr := by omega
  simp only [Machine.kfreeAligned, if_neg huser, h.magicWord, h.rawWord, h.checksum, hmap, ← h.user,
    h.raw_ne, hle, ne_eq, not_true_eq_false, Bool.true_eq_false, or_self, if_false]

/-- What `dealloc` does with a block in use. -/
theorem Inv.dealloc_eq (h : s.Inv) (hb : b ∈ s.live) (hhead : s.Headless b) :
    s.machine.dealloc b.ptr b.layout
      = (b.origin.raw, if b.origin = .simple then s.machine.simpleDealloc else s.machine) := by
  have hplaced := h.placed b hb
  unfold Placed at hplaced
  rw [Machine.dealloc]
  split at hplaced
  · rename_i ho
    rw [if_pos (.inr hplaced.1), ho]
    rfl
  · rename_i ho
    have hne : ¬ (b.ptr = 0 ∨ b.layout.size = 0) := not_or.2 ⟨hplaced.ptr, hplaced.size⟩
    rw [if_neg hne, hhead ho, ho]
    rfl
  · rename_i raw ho
    have hlow := hplaced.low
    have hraw := hplaced.raw_ne
    have hne : ¬ (b.ptr = 0 ∨ b.layout.size = 0) := not_or.2 ⟨by omega, hplaced.size⟩
    rw [if_neg hne, hplaced.kfreeAligned h.ok, ho]
    rfl

/-- Segments start over: they are the same blocks of frames. -/
theorem Machine.Ok.reset (h : m.Ok) (heap : HeapState)
    (hheap : heap.segments = m.heap.segments.map (·.reset)) :
    Machine.Ok { m with heap := heap } ∧
      ∀ pb, m.Foreign pb → Machine.Foreign { m with heap := heap } pb := by
  have hback : ∀ seg' ∈ heap.segments, ∃ seg ∈ m.heap.segments, seg.reset = seg' := by
    intro seg' hseg'
    rw [hheap] at hseg'
    exact mem_map.1 hseg'
  refine ⟨⟨h.pages, fun seg' hseg' => ?_, fun seg' hseg' => ?_, ?_, ?_⟩, fun pb hf seg' hseg' => ?_⟩
  · obtain ⟨seg, hseg, rfl⟩ := hback seg' hseg'
    exact ⟨le_rfl, (h.valid seg hseg).1.trans (h.valid seg hseg).2⟩
  · obtain ⟨seg, hseg, rfl⟩ := hback seg' hseg'
    exact h.owned seg hseg
  · simp only [hheap]
    exact pairwise_map.2 h.apart
  · simp only [hheap, length_map]
    exact h.few
  · obtain ⟨seg, hseg, rfl⟩ := hback seg' hseg'
    exact hf seg hseg

/-- A block of `SimpleHeap` is given back; it may have been the last one. -/
theorem Inv.simpleDealloc (h : s.Inv) (hb : b ∈ s.live) (ho : b.origin = .simple) :
    Inv ⟨s.machine.simpleDealloc, s.live.erase b⟩ ∧
      (simpleCount (s.live.erase b) ≠ 0 →
        s.machine.simpleDealloc.heap.segments = s.machine.heap.segments) := by
  have hcount : simpleCount (s.live.erase b) = s.machine.heap.liveAllocations - 1 := by
    rw [h.counted, simpleCount, simpleCount, countP_erase, if_pos ⟨hb, by simpa using ho⟩]
  have hpos : s.machine.heap.liveAllocations ≠ 0 := by
    rw [h.counted, simpleCount, ← Nat.pos_iff_ne_zero, countP_pos_iff]
    exact ⟨b, hb, by simpa using ho⟩
  have hsub : (s.live.erase b).Sublist s.live := erase_sublist
  have hdisj := h.disjoint.sublist hsub
  rw [Machine.simpleDealloc, if_neg hpos]
  by_cases hlast : s.machine.heap.liveAllocations - 1 = 0
  · simp only [if_pos hlast]
    obtain ⟨hok, hforeign⟩ := Machine.Ok.reset h.ok
      ⟨s.machine.heap.initialized, s.machine.heap.segments.map (·.reset),
        s.machine.heap.liveAllocations - 1⟩ rfl
    refine ⟨⟨hok, hcount.symm, by simp only; omega, fun b' hb' => ?_, hdisj⟩,
      fun hne => absurd (hcount.trans hlast) hne⟩
    refine (h.placed b' (hsub.mem hb')).frame rfl (fun ho' => ?_) (fun _ _ => rfl)
      fun _ _ pb hpb hf _ => ⟨hpb, hforeign pb hf⟩
    have hnone := countP_eq_zero.1 (hcount.trans hlast) b' hb'
    simp [ho'] at hnone
  · simp only [if_neg hlast]
    refine ⟨⟨⟨h.ok.pages, h.ok.valid, h.ok.owned, h.ok.apart, h.ok.few⟩, hcount.symm,
      (Nat.sub_le _ _).trans h.used, fun b' hb' => ?_, hdisj⟩, fun _ => trivial⟩
    exact (h.placed b' (hsub.mem hb')).frame rfl (fun _ seg hseg => ⟨seg, hseg, rfl, le_rfl⟩)
      (fun _ _ => rfl) fun _ _ _ hpb hf _ => ⟨hpb, hf⟩

theorem Inv.dealloc (h : s.Inv) (hok : s.Contract (.dealloc b)) : (s.step (.dealloc b)).Inv := by
  obtain ⟨hb, hhead⟩ := hok
  rw [step, h.dealloc_eq hb hhead]
  simp only
  split
  · rename_i ho
    exact (h.simpleDealloc hb ho).1
  rename_i ho
  have hcount : simpleCount (s.live.erase b) = simpleCount s.live := by
    rw [simpleCount, simpleCount, countP_erase, if_neg (by simp [ho]), Nat.sub_zero]
  exact ⟨h.ok, h.counted.trans hcount.symm, h.used,
    fun b' hb' => h.placed b' (mem_of_mem_erase hb'), h.disjoint.sublist erase_sublist⟩

theorem Inv.write (h : s.Inv) {addr : ℕ} {byte : UInt8} (hok : s.Contract (.write addr byte)) :
    (s.step (.write addr byte)).Inv := by
  refine ⟨⟨h.ok.pages, h.ok.valid, h.ok.owned, h.ok.apart, h.ok.few⟩, h.counted, h.used,
    fun b hb => ?_, h.disjoint⟩
  refine (h.placed b hb).withMem fun x hx => update_of_ne ?_ _ _
  rintro rfl
  exact hok b hb hx

theorem Inv.step (h : s.Inv) (hok : s.Contract op) (hwrap : s.NoWrap op) : (s.step op).Inv := by
  cases op with
  | pages op => exact h.pages hok
  | init cpu targetSize =>
    obtain ⟨hok', hgrows, hcount⟩ := initHeap_spec h.ok hok targetSize
    exact h.of_grows hok' hgrows hcount
  | alloc cpu layout slub kmalloc => exact h.alloc hok hwrap
  | dealloc b => exact h.dealloc hok
  | write addr byte => exact h.write hok

theorem inv_boot (map : DirectMap) (reserved : Pfn → Bool) (mem : ByteMem) :
    (boot map reserved mem).Inv :=
  ⟨⟨System.inv_boot map.maxPfn reserved, nofun, nofun, .nil, Nat.zero_le _⟩, rfl, le_rfl, nofun,
    .nil⟩

/-! ### The contract -/

theorem not_recycles {s' : Client}
    (h : Rises s.machine.heap.segments s'.machine.heap.segments) : ¬ Recycles s s' := by
  rintro ⟨i, seg, seg', hseg, hseg', hlt⟩
  obtain ⟨seg1, hseg1, hmoves⟩ := h i seg hseg
  obtain rfl := Option.some.inj (hseg'.symm.trans hseg1)
  exact absurd hmoves.next (Nat.not_le.2 hlt)

/-- Only a deallocation lets pointers fall, and only the last one. -/
theorem Inv.recycled (h : s.Inv) (hok : s.Contract op) (hwrap : s.NoWrap op)
    (hrec : Recycles s (s.step op)) : ∀ b ∈ (s.step op).live, b.origin ≠ .simple := by
  have hsame : ∀ {s' : Client}, s'.machine.heap.segments = s.machine.heap.segments →
      ¬ Recycles s s' := by
    intro s' heq
    refine not_recycles ?_
    rw [heq]
    exact rises_of_forall₂ (moves_refl h.ok.valid)
  cases op with
  | pages op
  | write addr byte => exact absurd hrec (hsame rfl)
  | init cpu targetSize =>
    exact absurd hrec (not_recycles (initHeap_spec h.ok hok targetSize).2.1.rises)
  | alloc cpu layout slub kmalloc =>
    refine absurd hrec ?_
    rw [Client.step, Machine.alloc]
    by_cases hsize : layout.size = 0
    · rw [if_pos hsize]
      exact hsame rfl
    rw [if_neg hsize]
    cases slub with
    | true =>
      refine hsame ?_
      show (s.machine.kmallocAligned layout kmalloc).2.heap.segments = _
      rw [Machine.kmallocAligned]
      cases kmallocRequest layout with
      | none => rfl
      | some request =>
        simp only
        split <;> rfl
    | false =>
      exact not_recycles (simpleAlloc_spec h.ok hok.1 (hwrap hsize rfl)).grows.rises
  | dealloc b =>
    obtain ⟨hb, hhead⟩ := hok
    rw [Client.step, h.dealloc_eq hb hhead] at hrec ⊢
    by_cases ho : b.origin = .simple
    · simp only [if_pos ho] at hrec ⊢
      -- pointers fall only when nothing is counted any more
      by_cases hzero : simpleCount (s.live.erase b) = 0
      · intro b' hb'
        simpa using countP_eq_zero.1 hzero b' hb'
      · exact absurd hrec (hsame ((h.simpleDealloc hb ho).2 hzero))
    · simp only [if_neg ho] at hrec
      exact absurd hrec (hsame rfl)

theorem Inv.sound (h : s.Inv) : s.Sound where
  aligned b hb := by
    have hplaced := h.placed b hb
    unfold Placed at hplaced
    split at hplaced
    · exact hplaced.2 ▸ dvd_rfl
    · exact hplaced.aligned
    · rw [hplaced.user]
      exact alignUp_dvd _ _
  disjoint := h.disjoint
  freed b hb hhead := by rw [h.dealloc_eq hb hhead]
  kept b hb ho := by rw [h.dealloc_eq hb fun h => absurd h ho, if_neg ho]
  recycled op hok hwrap := h.recycled hok hwrap

/-- On every machine and in every run of the global allocator in which no
pointer of `SimpleHeap` is rounded up beyond the last address, blocks are
aligned and, with their headers, disjoint; `kfree` gets exactly what `kmalloc`
returned, `SimpleHeap` only its own blocks, and it starts over only when none of
them is in use. -/
theorem global_alloc_contract (map : DirectMap) (reserved : Pfn → Bool) (mem : ByteMem)
    {ops : List HeapOp}
    (hrun : Run (Guarded (fun s op => s.Contract op ∧ s.NoWrap op) (ofFun step))
      (boot map reserved mem) ops s) : s.Sound := by
  refine Inv.sound (hrun.invariant Inv ?_ (inv_boot map reserved mem))
  rintro s op s' hs ⟨⟨hok, hwrap⟩, rfl⟩
  exact hs.step hok hwrap

/-- The layout with an alignment of `2 ^ k`. -/
def layoutOf (size k : ℕ) (h : size + 2 ^ k ≤ 2 ^ 63) : Layout := ⟨size, 2 ^ k, ⟨k, rfl⟩, h⟩

/-- A block of `SimpleHeap` and one of `kmalloc`, which are given back after the
other allocator was used. -/
def orderlyOps : List HeapOp :=
  [.pages (.initZoneBuddy .dma 256 512), .init 0 4096, .alloc 0 (layoutOf 16 3 (by decide)) false 0,
    .pages (.allocPages 0 gfpKernel),
    .alloc 0 (layoutOf 100 6 (by decide)) true 0xFFFF800000101000,
    .write 0xFFFF800000101040 7, .write 0xFFFF800000100000 1,
    .dealloc ⟨0xFFFF800000100000, layoutOf 16 3 (by decide), .simple⟩,
    .alloc 0 (layoutOf 8 12 (by decide)) false 0,
    .dealloc ⟨0xFFFF800000101040, layoutOf 100 6 (by decide), .kmalloc 0xFFFF800000101000⟩]

theorem global_alloc_contract_orderly :
    ∃ s, Run (Guarded (fun s op => s.Contract op ∧ s.NoWrap op) (ofFun step))
        (boot .sample (fun _ => false) fun _ => 0) orderlyOps s ∧
      s.Sound ∧ s.live.map Block.ptr = [0xFFFF800000100000] :=
  Run.exists_of_exec_total (by decide) fun _ hrun hlive =>
    ⟨global_alloc_contract _ _ _ hrun, hlive⟩

/-- A request whose alignment wraps the pointer of the segment, requests that
bring the pointer back up, and one more. -/
def wrappingOps : List HeapOp :=
  [.pages (.initZoneBuddy .dma 256 512), .init 0 1048576,
    .alloc 0 (layoutOf 16 3 (by decide)) false 0, .alloc 0 (layoutOf 8 62 (by decide)) false 0,
    .alloc 0 (layoutOf (2 ^ 63 - 1) 0 (by decide)) false 0,
    .alloc 0 (layoutOf (2 ^ 62) 0 (by decide)) false 0,
    .alloc 0 (layoutOf 0x3FFF8000000FFFF9 0 (by decide)) false 0,
    .alloc 0 (layoutOf 16 3 (by decide)) false 0]

/-- After the wrap a block is handed out that is in use already. -/
theorem rounding_wraps_to_live_block :
    ∃ s, Run (Guarded Contract (ofFun step)) (boot .sample (fun _ => false) fun _ => 0)
      wrappingOps s ∧ ¬ s.Sound := by
  refine Run.exists_of_exec_total (Q := fun s => ¬ (s.live.map Block.extent).Pairwise Span.Disjoint)
    (by decide) fun s _ hpair hsound => ?_
  exact hpair (pairwise_map.2 hsound.disjoint)

end Client

end JanuaryOs.Alloc

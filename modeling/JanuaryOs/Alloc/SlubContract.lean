import JanuaryOs.Alloc.SlubSpec

/-!
# The contract of `kmalloc` and `kfree`, over whole runs

A run is made of calls of the slab allocator, of calls that others make of the
page allocator, and of changes others make to memory and to page descriptors.
The others do not give back frames of the slab allocator, do not touch the
descriptors of its frames, and do not write to the links of free objects. Next
to the state a run keeps the blocks in use.

The size of a large request is rounded up to pages without a check. A request
for nearly all addresses wraps to zero pages, and is served with one page;
`kmalloc_contract` is about the runs without such requests,
`huge_request_gets_one_page` is one with it.
-/

namespace JanuaryOs.Alloc

open Lib Phys Slub Function List

/-! ### Runs -/

/-- A block in use: where it is, what was asked for, and the frames it was
served from. -/
structure Kblock where
  ptr : ℕ
  size : ℕ
  source : Held
  deriving DecidableEq

/-- What `kfree` should find for a block that was served from these frames. -/
def Held.found (h : Held) : Found :=
  match h.cache with
  | some c => .object c h.pfn
  | none => .large h.pfn h.order

/-- The bytes a block of these frames has. -/
def Held.capacity (h : Held) : ℕ :=
  match h.cache with
  | some c => cacheSize c
  | none => 2 ^ h.order * pageSize

def Kblock.span (b : Kblock) : Span := ⟨b.ptr, b.ptr + b.source.capacity⟩

/-- The slab allocator and its users. -/
structure SlubClient where
  slub : Slub
  live : List Kblock

inductive SlubOp
  /-- Somebody else calls the page allocator. -/
  | pages (op : PhysOp)
  /-- Somebody else changes the descriptor of a frame. -/
  | desc (pfn : ℕ) (d : Desc)
  | write (addr : ℕ) (byte : UInt8)
  | initKmallocCaches
  | kmalloc (size : ℕ) (gfp : GfpFlags)
  | kfree (cpu : ℕ) (b : Kblock)

namespace SlubClient

def boot (map : DirectMap) (reserved : Pfn → Bool) (desc : ℕ → Desc) (mem : ByteMem) :
    SlubClient where
  slub :=
    { map := map
      pages := .boot map.maxPfn reserved
      initialized := false
      caches := fun _ => ⟨none, 0, 0⟩
      desc := desc
      mem := mem
      largeAllocCount := 0
      largeAllocPages := 0
      held := [] }
  live := []

def sourceOf (s : Slub) (ptr : ℕ) : Held :=
  (s.held.find? fun h => (s.map.span h.block).Has ptr).getD ⟨0, 0, none⟩

variable (s : SlubClient)

/-- A block that was allocated, unless it is null. -/
def served (size : ℕ) (res : ℕ × Slub) : SlubClient :=
  ⟨res.2, if res.1 = 0 then s.live else ⟨res.1, size, sourceOf res.2 res.1⟩ :: s.live⟩

def step : SlubOp → SlubClient
  | .pages op => { s with slub := { s.slub with pages := s.slub.pages.step op } }
  | .desc pfn d => { s with slub := s.slub.modifyDesc pfn fun _ => d }
  | .write addr byte =>
    { s with slub := { s.slub with mem := update s.slub.mem addr byte } }
  | .initKmallocCaches => { s with slub := { s.slub with initialized := true } }
  | .kmalloc size gfp => s.served size (s.slub.kmalloc size gfp)
  | .kfree cpu b => ⟨s.slub.kfree cpu b.ptr, s.live.erase b⟩

def InUse (live : List Kblock) (x : ℕ) : Prop := ∃ b ∈ live, b.ptr = x
deriving Decidable

/-- What is assumed of the calls. -/
def Contract : SlubOp → Prop
  | .pages op =>
    s.slub.pages.Allowed op ∧ ∀ pb ∈ PhysOp.frees op, ∀ h ∈ s.slub.held, h.block ≠ pb
  | .desc pfn _ => ∀ h ∈ s.slub.held, ¬ (h.pfn ≤ pfn ∧ pfn < h.pfn + 2 ^ h.order)
  | .write addr _ => ∀ h ∈ s.slub.held, ∀ c ∈ h.cache,
    ∀ x ∈ objectsAt c (s.slub.pageVirt h.pfn), InUse s.live x ∨ ¬ Span.Has ⟨x, x + 8⟩ addr
  | .initKmallocCaches | .kmalloc .. => True
  | .kfree cpu b => cpu < maxCpus ∧ b ∈ s.live

instance : (op : SlubOp) → Decidable (s.Contract op)
  | .pages _ => inferInstanceAs (Decidable (_ ∧ ∀ pb ∈ PhysOp.frees _, ∀ h ∈ s.slub.held, _))
  | .desc .. => inferInstanceAs (Decidable (∀ h ∈ s.slub.held, _))
  | .write .. => inferInstanceAs (Decidable (∀ h ∈ s.slub.held, ∀ c ∈ h.cache, ∀ x ∈ _, _))
  | .initKmallocCaches | .kmalloc .. => inferInstanceAs (Decidable True)
  | .kfree .. => inferInstanceAs (Decidable (_ ∧ _))

/-- The size of a request can be rounded up to pages. -/
def NoWrap : SlubOp → Prop
  | .kmalloc size _ => size + (pageSize - 1) < 2 ^ 64
  | _ => True

instance : (op : SlubOp) → Decidable (NoWrap op)
  | .kmalloc .. => inferInstanceAs (Decidable (_ < _))
  | .pages _ | .desc .. | .write .. | .initKmallocCaches | .kfree .. =>
    inferInstanceAs (Decidable True)

/-- The free list of a slab is `l`: it has the objects that are not in use. -/
def FreeList (s : Slub) (live : List Kblock) (h : Held) (c : ℕ) (l : List ℕ) : Prop :=
  Chain (nextFree s.mem) (ofPtr (s.desc h.pfn).lruPrev) l ∧ l.Nodup ∧
    ∀ x, x ∈ l ↔ x ∈ objectsAt c (s.pageVirt h.pfn) ∧ ¬ InUse live x

/-- The list of a cache is `l`: it has all slabs of the cache. -/
def SlabList (s : Slub) (c : ℕ) (l : List ℕ) : Prop :=
  Chain (fun pfn => (s.desc pfn).lruNext) (s.caches c).slabList l ∧ l.Nodup ∧
    ∀ pfn, pfn ∈ l ↔ ⟨pfn, cacheOrder c, some c⟩ ∈ s.held

/-- The contract of the slab allocator. -/
structure Sound (s : SlubClient) : Prop where
  large : ∀ b ∈ s.live, b.size ≤ b.source.capacity
  aligned : ∀ b ∈ s.live, 8 ∣ b.ptr
  inside : ∀ b ∈ s.live, b.source ∈ s.slub.held ∧
    b.span.Within (s.slub.map.span b.source.block)
  owned : ∀ h ∈ s.slub.held, h.block ∈ s.slub.pages.live
  disjoint : s.live.Pairwise fun a b => a.span.Disjoint b.span
  /-- `kfree` finds what a block was served from. -/
  found : ∀ b ∈ s.live, s.slub.find b.ptr = some b.source.found
  free : ∀ h ∈ s.slub.held, ∀ c, h.cache = some c → ∃ l, FreeList s.slub s.live h c l
  slabs : s.slub.held.Nodup ∧ ∀ c < kmallocNumCaches, ∃ l, SlabList s.slub c l
  allocatedCount : ∀ c < kmallocNumCaches,
    (s.slub.caches c).allocated = s.live.countP (·.source.cache = some c)
  slabCount : ∀ c < kmallocNumCaches,
    (s.slub.caches c).slabs = s.slub.held.countP (·.cache = some c)
  /-- Nothing is held for blocks that were freed. -/
  returned : s.live = [] → s.slub.held = []

/-! ### The invariant -/

/-- A slab: its descriptors lead to its cache, and its free list is right. -/
structure SlabOk (s : Slub) (live : List Kblock) (h : Held) (c : ℕ) : Prop where
  cache : c < kmallocNumCaches
  order : h.order = cacheOrder c
  ready : s.initialized = true
  desc : ∀ q, h.pfn ≤ q → q < h.pfn + 2 ^ h.order →
    (s.desc q).slab = true ∧ (s.desc q).owner = .slab ∧ (s.desc q).cache = some c
  free : ∃ l, FreeList s live h c l

/-- A large allocation: its descriptor has the order. -/
def LargeOk (s : Slub) (h : Held) : Prop :=
  (s.desc h.pfn).slab = false ∧ (s.desc h.pfn).order = h.order

/-- A block in use is an object of its slab, or the large allocation. -/
structure BlockOk (s : Slub) (b : Kblock) : Prop where
  held : b.source ∈ s.held
  size : b.size ≤ b.source.capacity
  object : ∀ c, b.source.cache = some c → b.ptr ∈ objectsAt c (s.pageVirt b.source.pfn)
  whole : b.source.cache = none → b.ptr = s.pageVirt b.source.pfn

/-- What holds also while a slab is given back. -/
structure Core (s : Slub) (live : List Kblock) : Prop where
  pages : s.pages.Inv s.map.maxPfn
  owned : ∀ h ∈ s.held, h.block ∈ s.pages.live
  apart : s.held.Pairwise fun a b => Apart a.block b.block
  slab : ∀ h ∈ s.held, ∀ c, h.cache = some c → SlabOk s live h c
  large : ∀ h ∈ s.held, h.cache = none → LargeOk s h
  lists : ∀ c < kmallocNumCaches, ∃ l, SlabList s c l
  placed : ∀ b ∈ live, BlockOk s b
  ptrs : (live.map (·.ptr)).Nodup
  allocatedCount : ∀ c < kmallocNumCaches,
    (s.caches c).allocated = live.countP (·.source.cache = some c)
  slabCount : ∀ c < kmallocNumCaches, (s.caches c).slabs = s.held.countP (·.cache = some c)

structure Inv (s : SlubClient) : Prop where
  core : Core s.slub s.live
  /-- Something of every block of frames is in use. -/
  busy : ∀ h ∈ s.slub.held, ∃ b ∈ s.live, b.source = h

variable {s s' : Slub} {live live' : List Kblock} {h h' : Held} {b : Kblock} {c x : ℕ}

/-! ### Frames -/

namespace Core

section

variable (hc : Core s live) (hh : h ∈ s.held)

include hc hh

theorem pageVirt_eq : s.pageVirt h.pfn = (s.map.span h.block).start := by
  rw [← live_physToVirt hc.pages (hc.owned h hh), Held.block, pageVirt]

theorem pfn_lt : h.pfn < s.map.maxPfn := by
  have hblock := (live_block hc.pages (hc.owned h hh)).2.2
  have hpos := Nat.two_pow_pos h.order
  simp only [Held.block] at hblock
  omega

theorem apart_of_ne (hh' : h' ∈ s.held) (hne : h ≠ h') : Apart h.block h'.block := by
  have : Std.Symm fun a b : Held => Apart a.block b.block := ⟨fun _ _ => Or.symm⟩
  exact hc.apart.forall hh hh' hne

theorem eq_of_has (hh' : h' ∈ s.held) (hx : (s.map.span h.block).Has x)
    (hx' : (s.map.span h'.block).Has x) : h = h' := by
  by_contra hne
  exact Span.disjoint_iff.1 (DirectMap.span_disjoint (hc.apart_of_ne hh hh' hne)) x hx hx'

theorem sourceOf_eq (hx : (s.map.span h.block).Has x) : sourceOf s x = h := by
  unfold sourceOf
  cases hfind : s.held.find? fun h => decide ((s.map.span h.block).Has x) with
  | none => exact absurd (decide_eq_true hx) (find?_eq_none.1 hfind h hh)
  | some h' =>
    have hx' := find?_some hfind
    exact hc.eq_of_has (mem_of_find?_eq_some hfind) hh (of_decide_eq_true hx') hx

theorem object_within (hcache : h.cache = some c)
    (hx : x ∈ objectsAt c (s.pageVirt h.pfn)) :
    Span.Within ⟨x, x + cacheSize c⟩ (s.map.span h.block) := by
  have hslab := hc.slab h hh c hcache
  have hwithin := objectsAt_within hslab.cache hx
  rw [hc.pageVirt_eq hh] at hwithin
  have hstop := s.map.span_stop h.block
  rw [show h.block.2 = cacheOrder c from hslab.order] at hstop
  refine ⟨hwithin.1, ?_⟩
  rw [hstop]
  exact hwithin.2

theorem word_has (hcache : h.cache = some c) (hx : x ∈ objectsAt c (s.pageVirt h.pfn)) {y : ℕ}
    (hy : Span.Has ⟨x, x + 8⟩ y) :
    (s.map.span h.block).Has y := by
  have hsize := (cacheShape (hc.slab h hh c hcache).cache).size
  exact (hc.object_within hh hcache hx).has ⟨hy.1, hy.2.trans_le (Nat.add_le_add_left hsize x)⟩

theorem object_has (hcache : h.cache = some c)
    (hx : x ∈ objectsAt c (s.pageVirt h.pfn)) : (s.map.span h.block).Has x :=
  hc.word_has hh hcache hx ⟨le_rfl, Nat.lt_add_of_pos_right (by decide)⟩

omit hh

/-- A block in use lies in the frames it was served from. -/
theorem span_within (hb : b ∈ live) : b.span.Within (s.map.span b.source.block) := by
  have hblock := hc.placed b hb
  cases hcache : b.source.cache with
  | some c =>
    have hwithin := hc.object_within hblock.held hcache (hblock.object c hcache)
    rwa [Kblock.span, Held.capacity, hcache]
  | none =>
    have hptr := hblock.whole hcache
    rw [hc.pageVirt_eq hblock.held] at hptr
    rw [Kblock.span, Held.capacity, hcache, hptr]
    exact ⟨le_rfl, (s.map.span_stop b.source.block).ge⟩

theorem has_ptr (hb : b ∈ live) : (s.map.span b.source.block).Has b.ptr := by
  refine (hc.span_within hb).has ⟨le_rfl, ?_⟩
  have hpos : 0 < b.source.capacity := by
    unfold Held.capacity
    split
    · exact Nat.two_pow_pos _
    · exact Nat.mul_pos (Nat.two_pow_pos _) (by decide)
  simp only [Kblock.span]
  omega

theorem disjoint : live.Pairwise fun a b => a.span.Disjoint b.span := by
  refine (pairwise_map.1 hc.ptrs).imp_of_mem ?_
  intro a b ha hb hne
  by_cases hsource : a.source = b.source
  · have hblock := hc.placed a ha
    have hblock' := hc.placed b hb
    cases hcache : a.source.cache with
    | none =>
      have hcache' : b.source.cache = none := hsource ▸ hcache
      exact absurd ((hblock.whole hcache).trans (hsource ▸ (hblock'.whole hcache').symm)) hne
    | some c =>
      have hcache' : b.source.cache = some c := hsource ▸ hcache
      have hb' := hblock'.object c hcache'
      rw [← hsource] at hb'
      have hdisj := objectsAt_disjoint (hblock.object c hcache) hb' hne
      simp only [Span.Disjoint, Kblock.span, Held.capacity, hcache, hcache']
      omega
  · have happ := hc.apart_of_ne (hc.placed a ha).held (hc.placed b hb).held hsource
    exact (DirectMap.span_disjoint happ).mono (hc.span_within ha) (hc.span_within hb)

/-- Rounding the frame of an object down leads to its slab. -/
theorem slabHead_source (hb : b ∈ live) (hcache : b.source.cache = some c) :
    slabHead c ((b.ptr - s.map.offset) / pageSize) = b.source.pfn := by
  have hheld := (hc.placed b hb).held
  have hlive := hc.owned _ hheld
  have horder : b.source.block.2 = cacheOrder c := (hc.slab _ hheld c hcache).order
  obtain ⟨-, hlow, hhigh⟩ := virtToPhysDirectMap_eq hc.pages hlive (hc.has_ptr hb)
  rw [horder] at hhigh
  exact slabHead_eq (horder ▸ (live_block hc.pages hlive).2.1) hlow hhigh

theorem find_eq (hb : b ∈ live) : s.find b.ptr = some b.source.found := by
  have hblock := hc.placed b hb
  have hlive := hc.owned _ hblock.held
  obtain ⟨hphys, hlow, hhigh⟩ := virtToPhysDirectMap_eq hc.pages hlive (hc.has_ptr hb)
  simp only [Slub.find, hphys]
  cases hcache : b.source.cache with
  | some c =>
    have hslab := hc.slab _ hblock.held c hcache
    obtain ⟨h1, h2, h3⟩ := hslab.desc _ hlow hhigh
    simp only [h1, h2, h3, hslab.ready, if_true, ne_eq, not_true_eq_false, if_false,
      hc.slabHead_source hb hcache, Held.found, hcache]
  | none =>
    obtain ⟨h1, h2⟩ := hc.large _ hblock.held hcache
    have hptr := hblock.whole hcache
    rw [hc.pageVirt_eq hblock.held] at hptr
    have hpfn : (b.ptr - s.map.offset) / pageSize = b.source.pfn := by
      rw [hptr]
      simp [DirectMap.span, Held.block, pageSize]
    have hpage : b.ptr % pageSize = 0 := by
      obtain ⟨k, hk⟩ := s.map.aligned
      rw [hptr]
      simp [DirectMap.span, hk, Nat.add_mod]
    simp only [hpfn, h1, h2, hpage, Bool.false_eq_true, if_false, ne_eq, not_true_eq_false,
      Held.found, hcache]

end

end Core

/-! ### Frames that a call does not touch -/

/-- Everything but the link to the next slab. -/
structure SameDesc (d d' : Desc) : Prop where
  slab : d'.slab = d.slab
  owner : d'.owner = d.owner
  cache : d'.cache = d.cache
  order : d'.order = d.order
  lruPrev : d'.lruPrev = d.lruPrev

theorem SameDesc.refl (d : Desc) : SameDesc d d := ⟨rfl, rfl, rfl, rfl, rfl⟩

def HasFrame (h : Held) (q : ℕ) : Prop := h.pfn ≤ q ∧ q < h.pfn + 2 ^ h.order

theorem hasFrame_head (h : Held) : HasFrame h h.pfn :=
  ⟨le_rfl, Nat.lt_add_of_pos_right (Nat.two_pow_pos _)⟩

variable {cpu pfn q size : ℕ} {l : List ℕ}

theorem not_hasFrame (happ : Apart h.block h'.block) (hq : HasFrame h q) : ¬ HasFrame h' q := by
  simp only [Apart, Held.block, HasFrame] at *
  omega

theorem Core.frame_unique (hc : Core s live) (hh : h ∈ s.held) (hh' : h' ∈ s.held)
    (hq : HasFrame h q) (hq' : HasFrame h' q) : h = h' := by
  by_contra hne
  exact not_hasFrame (hc.apart_of_ne hh hh' hne) hq hq'

/-- A slab stays right if its descriptors, the links of its free objects and the
use of its objects stay. -/
theorem SlabOk.frame (hok : SlabOk s live h c) (hmap : s'.map = s.map)
    (hready : s'.initialized = true) (hdesc : ∀ q, HasFrame h q → SameDesc (s.desc q) (s'.desc q))
    (hmem : ∀ x ∈ objectsAt c (s.pageVirt h.pfn), ¬ InUse live x → s'.mem.load x = s.mem.load x)
    (hlive : ∀ x ∈ objectsAt c (s.pageVirt h.pfn), InUse live' x ↔ InUse live x) :
    SlabOk s' live' h c where
  cache := hok.cache
  order := hok.order
  ready := hready
  desc q h1 h2 := by
    have hsame := hdesc q ⟨h1, h2⟩
    rw [hsame.slab, hsame.owner, hsame.cache]
    exact hok.desc q h1 h2
  free := by
    obtain ⟨l, hchain, hnodup, hmem'⟩ := hok.free
    have hvirt : s'.pageVirt h.pfn = s.pageVirt h.pfn := by rw [pageVirt, pageVirt, hmap]
    refine ⟨l, ?_, hnodup, fun x => ?_⟩
    · rw [(hdesc _ (hasFrame_head h)).lruPrev]
      refine hchain.congr fun x hx => ?_
      obtain ⟨hobj, hfree⟩ := (hmem' x).1 hx
      rw [nextFree_eq, nextFree_eq, hmem x hobj hfree]
    · rw [hvirt, hmem']
      exact and_congr_right fun hx => not_congr (hlive x hx).symm

/-- The list of a cache stays right if the links of its slabs stay. -/
theorem SlabList.frame (hl : SlabList s c l)
    (hhead : (s'.caches c).slabList = (s.caches c).slabList)
    (hheld : ∀ pfn, (⟨pfn, cacheOrder c, some c⟩ : Held) ∈ s'.held ↔
      (⟨pfn, cacheOrder c, some c⟩ : Held) ∈ s.held)
    (hnext : ∀ h ∈ s.held, (s'.desc h.pfn).lruNext = (s.desc h.pfn).lruNext) :
    SlabList s' c l := by
  obtain ⟨hchain, hnodup, hmem⟩ := hl
  refine ⟨?_, hnodup, fun pfn => (hmem pfn).trans (hheld pfn).symm⟩
  rw [hhead]
  exact hchain.congr fun pfn hpfn => hnext _ ((hmem pfn).1 hpfn)

theorem BlockOk.frame (hb : BlockOk s b) (hmap : s'.map = s.map) (hheld : b.source ∈ s'.held) :
    BlockOk s' b where
  held := hheld
  size := hb.size
  object c hc := by
    have hobj := hb.object c hc
    rwa [pageVirt, hmap, ← pageVirt]
  whole hc := by
    have hptr := hb.whole hc
    rwa [pageVirt, hmap, ← pageVirt]

/-- Outside a block of frames nothing changes but the links of slabs. -/
structure Outside (s : Slub) (live : List Kblock) (h : Held) (s' : Slub) (live' : List Kblock) :
    Prop where
  map : s'.map = s.map
  initialized : s'.initialized = s.initialized
  desc : ∀ q, ¬ HasFrame h q → SameDesc (s.desc q) (s'.desc q)
  mem : ∀ y, ¬ (s.map.span h.block).Has y → s'.mem y = s.mem y
  inUse : ∀ y, ¬ (s.map.span h.block).Has y → (InUse live' y ↔ InUse live y)

section

variable (ho : Outside s live h s' live') (hc : Core s live) (hh' : h' ∈ s.held)
  (happ : Apart h'.block h.block)

include ho hc hh' happ

theorem Outside.slab (hcache : h'.cache = some c) : SlabOk s' live' h' c := by
  have hok := hc.slab h' hh' c hcache
  have hout : ∀ y, (s.map.span h'.block).Has y → ¬ (s.map.span h.block).Has y :=
    Span.disjoint_iff.1 (DirectMap.span_disjoint happ)
  refine hok.frame ho.map (ho.initialized.trans hok.ready)
    (fun q hq => ho.desc q (not_hasFrame happ hq)) (fun y hy _ => ?_)
    fun y hy => ho.inUse y (hout y (hc.object_has hh' hcache hy))
  exact ByteMem.load_congr fun z h1 h2 =>
    ho.mem z (hout z (hc.word_has hh' hcache hy ⟨h1, h2⟩))

theorem Outside.large (hcache : h'.cache = none) : LargeOk s' h' := by
  have hsame := ho.desc _ (not_hasFrame happ (hasFrame_head h'))
  rw [LargeOk, hsame.slab, hsame.order]
  exact hc.large h' hh' hcache

end

/-! ### Calls of others -/

section

variable (hc : Core s live) {pages : System} (hinv : pages.Inv s.map.maxPfn)
  (howned : ∀ h ∈ s.held, h.block ∈ pages.live)

include hc hinv howned

/-- Others leave the frames of the slab allocator, their descriptors and the
links of free objects as they are. -/
theorem Core.keep {ready : Bool} {desc : ℕ → Desc} {mem : ByteMem}
    (hready : s.initialized = true → ready = true)
    (hdesc : ∀ h ∈ s.held, ∀ q, HasFrame h q → desc q = s.desc q)
    (hmem : ∀ h ∈ s.held, ∀ c, h.cache = some c → ∀ x ∈ objectsAt c (s.pageVirt h.pfn),
      ¬ InUse live x → mem.load x = s.mem.load x) :
    Core { s with pages := pages, initialized := ready, desc := desc, mem := mem } live where
  pages := hinv
  owned := howned
  apart := hc.apart
  slab h hh c hcache := by
    have hok := hc.slab h hh c hcache
    refine hok.frame rfl (hready hok.ready) (fun q hq => ?_) (hmem h hh c hcache) fun _ _ => Iff.rfl
    exact hdesc h hh q hq ▸ .refl _
  large h hh hcache := by
    simp only [LargeOk, hdesc h hh _ (hasFrame_head h)]
    exact hc.large h hh hcache
  lists c hcn := by
    obtain ⟨l, hl⟩ := hc.lists c hcn
    exact ⟨l, hl.frame rfl (fun _ => Iff.rfl) fun h hh =>
      congrArg Desc.lruNext (hdesc h hh _ (hasFrame_head h))⟩
  placed b hb := (hc.placed b hb).frame rfl (hc.placed b hb).held
  ptrs := hc.ptrs
  allocatedCount := hc.allocatedCount
  slabCount := hc.slabCount

/-- The page allocator has changed, and the frames of the slab allocator are in
use there. -/
theorem Core.withPages : Core { s with pages := pages } live :=
  hc.keep hinv howned id (fun _ _ _ _ => rfl) fun _ _ _ _ _ _ _ => rfl

end

theorem Inv.pages {s : SlubClient} (hi : s.Inv) {op : PhysOp} (hok : s.Contract (.pages op)) :
    (s.step (.pages op)).Inv := by
  refine ⟨hi.core.withPages (hi.core.pages.step hok.1) fun h hh => ?_, hi.busy⟩
  exact mem_live_step (hi.core.owned h hh) fun hfrees => hok.2 _ hfrees h hh rfl

theorem Inv.desc {s : SlubClient} (hi : s.Inv) {d : Desc} (hok : s.Contract (.desc pfn d)) :
    (s.step (.desc pfn d)).Inv := by
  refine ⟨hi.core.keep hi.core.pages hi.core.owned id (fun h hh q hq => update_of_ne ?_ _ _)
    fun _ _ _ _ _ _ _ => rfl, hi.busy⟩
  rintro rfl
  exact hok h hh hq

theorem Inv.write {s : SlubClient} (hi : s.Inv) {addr : ℕ} {byte : UInt8}
    (hok : s.Contract (.write addr byte)) : (s.step (.write addr byte)).Inv := by
  refine ⟨hi.core.keep hi.core.pages hi.core.owned id (fun _ _ _ _ => rfl)
    fun h hh c hcache x hx hfree => ?_, hi.busy⟩
  refine ByteMem.load_congr fun y h1 h2 => update_of_ne ?_ _ _
  rintro rfl
  exact (hok h hh c hcache x hx).resolve_left hfree ⟨h1, h2⟩

theorem Inv.initKmallocCaches {s : SlubClient} (hi : s.Inv) : (s.step .initKmallocCaches).Inv :=
  ⟨hi.core.keep hi.core.pages hi.core.owned (fun _ => rfl) (fun _ _ _ _ => rfl)
    fun _ _ _ _ _ _ _ => rfl, hi.busy⟩

/-! ### Allocation -/

theorem nodup_length_le {n : ℕ} (hl : l.Nodup) (h : ∀ x ∈ l, x < n) : l.length ≤ n := by
  have hsub : l ⊆ List.range n := fun x hx => mem_range.2 (h x hx)
  simpa using (hl.subperm hsub).length_le

theorem mem_ptrs : x ∈ live.map (·.ptr) ↔ InUse live x := by simp [InUse]

namespace Core

theorem ptr_bounds (hc : Core s live) (hh : h ∈ s.held) (hx : (s.map.span h.block).Has x) :
    x ≠ 0 ∧ x < 2 ^ 64 := by
  have hspan := live_span hc.pages (hc.owned h hh)
  have hpos := s.map.pos
  have hfits := s.map.fits
  have hlow := hx.1
  have hhigh := hx.2
  omega

theorem ptr_ne_inUse (hc : Core s live) (hx : InUse live x) : x ≠ 0 ∧ x < 2 ^ 64 := by
  obtain ⟨b, hb, rfl⟩ := hx
  exact hc.ptr_bounds (hc.placed b hb).held (hc.has_ptr hb)

/-- There are fewer blocks in use than addresses, and one more makes no
difference. -/
theorem live_lt (hc : Core s live) : live.length < 2 ^ 64 ∧
    (x ≠ 0 → x < 2 ^ 64 → ¬ InUse live x → live.length + 1 < 2 ^ 64) := by
  have hlt : ∀ y ∈ live.map (·.ptr), y < 2 ^ 64 := fun y hy =>
    (hc.ptr_ne_inUse (mem_ptrs.1 hy)).2
  have hnodup : (0 :: live.map (·.ptr)).Nodup :=
    nodup_cons.2 ⟨fun h => (hc.ptr_ne_inUse (mem_ptrs.1 h)).1 rfl, hc.ptrs⟩
  refine ⟨?_, fun hne hx hunused => ?_⟩
  · have hlen := nodup_length_le hnodup (forall_mem_cons.2 ⟨Nat.two_pow_pos 64, hlt⟩)
    simp only [length_cons, length_map] at hlen
    omega
  · have hnew : x ∉ 0 :: live.map (·.ptr) := by
      rw [mem_cons, mem_ptrs]
      exact not_or.2 ⟨hne, hunused⟩
    have hlen := nodup_length_le (nodup_cons.2 ⟨hnew, hnodup⟩)
      (forall_mem_cons.2 ⟨hx, forall_mem_cons.2 ⟨Nat.two_pow_pos 64, hlt⟩⟩)
    simp only [length_cons, length_map] at hlen
    omega

theorem ptrs_cons (hc : Core s live) (hunused : ¬ InUse live b.ptr) :
    ((b :: live).map (·.ptr)).Nodup :=
  nodup_cons.2 ⟨fun hin => hunused (mem_ptrs.1 hin), hc.ptrs⟩

theorem slabList_length (hc : Core s live) (hl : SlabList s c l) : l.length ≤ s.map.maxPfn :=
  nodup_length_le hl.2.1 fun pfn hpfn => hc.pfn_lt ((hl.2.2 pfn).1 hpfn)

end Core

theorem inUse_cons {x : ℕ} : InUse (b :: live) x ↔ b.ptr = x ∨ InUse live x := by
  simp [InUse]

theorem inUse_cons_of_not_has {sp : Span} (hhas : sp.Has b.ptr) (hx : ¬ sp.Has x) :
    InUse (b :: live) x ↔ InUse live x := by
  rw [inUse_cons]
  refine or_iff_right ?_
  rintro rfl
  exact hx hhas

theorem mem_rest_iff {objs rest : List ℕ} (hnodup : (b.ptr :: rest).Nodup)
    (hmem : ∀ y, y ∈ b.ptr :: rest ↔ y ∈ objs ∧ ¬ InUse live y) (y : ℕ) :
    y ∈ rest ↔ y ∈ objs ∧ ¬ InUse (b :: live) y := by
  have hy := hmem y
  rw [mem_cons] at hy
  rw [inUse_cons, not_or]
  constructor
  · intro hin
    obtain ⟨hobj, hunused⟩ := hy.1 (.inr hin)
    exact ⟨hobj, fun heq => (nodup_cons.1 hnodup).1 (heq ▸ hin), hunused⟩
  · rintro ⟨hobj, hne, hunused⟩
    exact (hy.2 ⟨hobj, hunused⟩).resolve_left (Ne.symm hne)

section

variable {α : Type} {f : α → Option ℕ} {a : α} {as : List α} {n n' : ℕ → ℕ}
  (hn : ∀ c < kmallocNumCaches, n c = as.countP (f · = some c)) (ha : f a = some c)
  (hsame : ∀ c', c' ≠ c → n' c' = n c')

include hn ha hsame

/-- One more entry of a cache is counted, without a wrap. -/
theorem counted_cons (hlen : as.length + 1 < 2 ^ 64) (hone : n' c = u64Add (n c) 1) :
    ∀ c' < kmallocNumCaches, n' c' = (a :: as).countP (f · = some c') := by
  intro c' hc'
  have hle : as.countP (f · = some c') ≤ as.length := countP_le_length
  rw [countP_cons, ha]
  by_cases hcc : c' = c
  · subst hcc
    rw [hone, hn c' hc', u64Add, Nat.mod_eq_of_lt (by omega), if_pos (by simp)]
  · rw [hsame c' hcc, hn c' hc', if_neg (by simpa using Ne.symm hcc), Nat.add_zero]

theorem counted_erase [DecidableEq α] (hmem : a ∈ as) (hone : n' c = n c - 1) :
    ∀ c' < kmallocNumCaches, n' c' = (as.erase a).countP (f · = some c') := by
  intro c' hc'
  rw [countP_erase, ← hn c' hc', ha]
  by_cases hcc : c' = c
  · subst hcc
    rw [hone, if_pos ⟨hmem, by simp⟩]
  · rw [hsame c' hcc, if_neg (by simp [Ne.symm hcc]), Nat.sub_zero]

end

/-- The free list of one slab changes, and the count of its cache. -/
structure Relinks (s : Slub) (h : Held) (s' : Slub) : Prop where
  map : s'.map = s.map
  pages : s'.pages = s.pages
  initialized : s'.initialized = s.initialized
  held : s'.held = s.held
  other : ∀ q, q ≠ h.pfn → s'.desc q = s.desc q
  head : s'.desc h.pfn = { s.desc h.pfn with lruPrev := (s'.desc h.pfn).lruPrev }
  mem : ∀ y, ¬ (s.map.span h.block).Has y → s'.mem y = s.mem y
  caches : ∀ c, (s'.caches c).slabList = (s.caches c).slabList ∧
    (s'.caches c).slabs = (s.caches c).slabs

theorem Relinks.outside (hr : Relinks s h s')
    (hlive : ∀ y, ¬ (s.map.span h.block).Has y → (InUse live' y ↔ InUse live y)) :
    Outside s live h s' live' := by
  refine ⟨hr.map, hr.initialized, fun q hq => ?_, hr.mem, hlive⟩
  rw [hr.other q fun heq => hq (heq ▸ hasFrame_head h)]
  exact .refl _

theorem Core.relinks (hc : Core s live) (hh : h ∈ s.held) (hcache : h.cache = some c)
    (hr : Relinks s h s') (hfree : ∃ l, FreeList s' live' h c l)
    (hplaced : ∀ b ∈ live', BlockOk s b) (hptrs : (live'.map (·.ptr)).Nodup)
    (hlive : ∀ x, ¬ (s.map.span h.block).Has x → (InUse live' x ↔ InUse live x))
    (hcount : ∀ c < kmallocNumCaches,
      (s'.caches c).allocated = live'.countP (·.source.cache = some c)) : Core s' live' where
  pages := by
    rw [hr.pages, hr.map]
    exact hc.pages
  owned := by
    rw [hr.pages, hr.held]
    exact hc.owned
  apart := by
    rw [hr.held]
    exact hc.apart
  slab h' hh' c' hcache' := by
    rw [hr.held] at hh'
    by_cases heq : h' = h
    · subst heq
      obtain rfl : c = c' := Option.some.inj (hcache.symm.trans hcache')
      have hslab := hc.slab h' hh c hcache
      refine ⟨hslab.cache, hslab.order, hr.initialized.trans hslab.ready, fun q h1 h2 => ?_, hfree⟩
      have hdesc := hslab.desc q h1 h2
      by_cases hq : q = h'.pfn
      · subst hq
        rw [hr.head]
        exact hdesc
      · rwa [hr.other q hq]
    · -- objects of other slabs are elsewhere
      exact (hr.outside hlive).slab hc hh' (hc.apart_of_ne hh' hh heq) hcache'
  large h' hh' hcache' := by
    rw [hr.held] at hh'
    refine (hr.outside hlive).large hc hh' (hc.apart_of_ne hh' hh ?_) hcache'
    rintro rfl
    cases hcache.symm.trans hcache'
  lists c' hc' := by
    obtain ⟨l, hl⟩ := hc.lists c' hc'
    refine ⟨l, hl.frame (hr.caches c').1 (fun _ => by rw [hr.held]) fun h' _ => ?_⟩
    by_cases hpfn : h'.pfn = h.pfn
    · rw [hpfn, hr.head]
    · rw [hr.other _ hpfn]
  placed b hb := (hplaced b hb).frame hr.map (by rw [hr.held]; exact (hplaced b hb).held)
  ptrs := hptrs
  allocatedCount := hcount
  slabCount c' hc' := by
    rw [(hr.caches c').2, hr.held]
    exact hc.slabCount c' hc'

theorem Core.fromPartial (hc : Core s live) (hcn : c < kmallocNumCaches) {ptr : ℕ}
    (hsize : size ≤ cacheSize c) (hres : s.allocFromPartial c = some (ptr, s')) :
    ∃ h ∈ s'.held, ptr ≠ 0 ∧ (s'.map.span h.block).Has ptr ∧
      Core s' (⟨ptr, size, h⟩ :: live) ∧ s'.held = s.held := by
  obtain ⟨l, hl⟩ := hc.lists c hcn
  unfold allocFromPartial at hres
  rw [findFrom_eq hl.1 (hc.slabList_length hl)] at hres
  cases hfind : l.find? fun pfn => decide ((s.desc pfn).lruPrev ≠ 0) with
  | none =>
    rw [hfind] at hres
    cases hres
  | some page =>
    rw [hfind] at hres
    cases hres
    have hhead : (s.desc page).lruPrev ≠ 0 := by simpa using find?_some hfind
    have hh : ⟨page, cacheOrder c, some c⟩ ∈ s.held :=
      (hl.2.2 page).1 (mem_of_find?_eq_some hfind)
    obtain ⟨free, hchain, hnodup, hmem⟩ := (hc.slab _ hh c rfl).free
    generalize hx : (s.desc page).lruPrev = x at *
    -- the object is the first one of the chain
    obtain _ | ⟨x', rest⟩ := free
    · exact absurd (hchain.symm.trans (ofPtr_of_ne hhead)) nofun
    obtain ⟨hx', hrest⟩ := hchain
    obtain rfl : x = x' := Option.some.inj ((ofPtr_of_ne hhead).symm.trans hx')
    obtain ⟨hobj, hunused⟩ := (hmem x).1 mem_cons_self
    have hhas := hc.object_has hh rfl hobj
    have hblock : BlockOk s ⟨x, size, ⟨page, cacheOrder c, some c⟩⟩ :=
      ⟨hh, hsize, fun c' hc' => Option.some.inj hc' ▸ hobj, nofun⟩
    refine ⟨⟨page, cacheOrder c, some c⟩, hh, hhead, hhas, ?_, rfl⟩
    refine hc.relinks hh rfl ⟨rfl, rfl, rfl, rfl, fun q hq => ?_, ?_, fun _ _ => rfl,
      fun c' => ?_⟩ ⟨rest, ?_, (nodup_cons.1 hnodup).2, mem_rest_iff hnodup hmem⟩
      (forall_mem_cons.2 ⟨hblock, hc.placed⟩) ?_ (fun y hy => ?_) ?_
    · exact update_of_ne hq _ _
    · simp [modifyDesc, modifyCache]
    · by_cases hcc : c' = c
      · subst hcc
        simp [modifyDesc, modifyCache]
      · simp [modifyDesc, modifyCache, hcc]
    · simpa [modifyDesc, modifyCache, nextFree_eq] using hrest
    · exact hc.ptrs_cons hunused
    · exact inUse_cons_of_not_has hhas hy
    · have hbound := hc.ptr_bounds hh hhas
      refine counted_cons hc.allocatedCount rfl (fun c' hcc => ?_)
        (hc.live_lt.2 hbound.1 hbound.2 hunused) ?_
      · simp [modifyDesc, modifyCache, hcc]
      · simp [modifyDesc, modifyCache]

/-- A block of frames is new: nothing changes outside it. -/
structure Extends (s : Slub) (h : Held) (s' : Slub) : Prop where
  map : s'.map = s.map
  initialized : s'.initialized = s.initialized
  held : s'.held = h :: s.held
  pages : s'.pages.Inv s.map.maxPfn
  live : s'.pages.live = h.block :: s.pages.live
  desc : ∀ q, ¬ HasFrame h q → s'.desc q = s.desc q
  mem : ∀ y, ¬ (s.map.span h.block).Has y → s'.mem y = s.mem y

namespace Extends

section

variable (he : Extends s h s')

include he

theorem apart (hc : Core s live) (hh' : h' ∈ s.held) :
    Apart h.block h'.block := by
  have hpair := he.pages.conserved.disjoint
  rw [he.live, pairwise_cons] at hpair
  exact hpair.1 _ (hc.owned h' hh')

theorem not_hasFrame (hc : Core s live) (hh' : h' ∈ s.held)
    (hq : HasFrame h' q) : ¬ HasFrame h q :=
  SlubClient.not_hasFrame (he.apart hc hh').symm hq

theorem not_has (hc : Core s live) (hh' : h' ∈ s.held)
    (hx : (s.map.span h'.block).Has x) : ¬ (s.map.span h.block).Has x :=
  Span.disjoint_iff.1 (DirectMap.span_disjoint (he.apart hc hh').symm) x hx

theorem not_inUse (hc : Core s live) (hx : (s.map.span h.block).Has x) :
    ¬ InUse live x := by
  rintro ⟨b, hb, rfl⟩
  exact he.not_has hc (hc.placed b hb).held (hc.has_ptr hb) hx

theorem owned : h.block ∈ s'.pages.live := by
  rw [he.live]
  exact mem_cons_self

theorem mem_held : h ∈ s'.held := by
  rw [he.held]
  exact mem_cons_self

theorem pageVirt_eq : s'.pageVirt h.pfn = (s.map.span h.block).start := by
  have hinv := he.pages
  rw [← he.map] at hinv
  rw [← he.map, ← live_physToVirt hinv he.owned, Held.block, pageVirt]

theorem outside (hhas : (s.map.span h.block).Has b.ptr) :
    Outside s live h s' (b :: live) := by
  refine ⟨he.map, he.initialized, fun q hq => ?_, he.mem, fun y hy => ?_⟩
  · rw [he.desc q hq]
    exact .refl _
  · exact inUse_cons_of_not_has hhas hy

end

end Extends

theorem Core.extends (hc : Core s live) (he : Extends s h s')
    (hblock : BlockOk s' b) (hhas : (s.map.span h.block).Has b.ptr)
    (hslab : ∀ c, h.cache = some c → SlabOk s' (b :: live) h c)
    (hlarge : h.cache = none → LargeOk s' h) (hlists : ∀ c < kmallocNumCaches, ∃ l, SlabList s' c l)
    (hcount : ∀ c < kmallocNumCaches,
      (s'.caches c).allocated = (b :: live).countP (·.source.cache = some c))
    (hslabs : ∀ c < kmallocNumCaches, (s'.caches c).slabs = s'.held.countP (·.cache = some c)) :
    Core s' (b :: live) where
  pages := by
    rw [he.map]
    exact he.pages
  owned := by
    rw [he.held, he.live]
    exact forall_mem_cons.2
      ⟨mem_cons_self, fun h' hh' => mem_cons_of_mem _ (hc.owned h' hh')⟩
  apart := by
    rw [he.held]
    exact pairwise_cons.2 ⟨fun h' hh' => he.apart hc hh', hc.apart⟩
  slab := by
    rw [he.held]
    exact forall_mem_cons.2 ⟨hslab, fun h' hh' c' hcache' =>
      (he.outside hhas).slab hc hh' (he.apart hc hh').symm hcache'⟩
  large := by
    rw [he.held]
    exact forall_mem_cons.2 ⟨hlarge, fun h' hh' hcache' =>
      (he.outside hhas).large hc hh' (he.apart hc hh').symm hcache'⟩
  lists := hlists
  placed := by
    refine forall_mem_cons.2 ⟨hblock, fun b' hb' => (hc.placed b' hb').frame he.map ?_⟩
    rw [he.held]
    exact mem_cons_of_mem _ (hc.placed b' hb').held
  ptrs := hc.ptrs_cons (he.not_inUse hc hhas)
  allocatedCount := hcount
  slabCount := hslabs

theorem allocPages_cases (hc : Core s live) (order : ℕ) (gfp : GfpFlags) (cache : Option ℕ) :
    (∃ s', s.allocPages order gfp cache = (none, s') ∧ Core s' live ∧ s'.held = s.held) ∨
      ∃ pfn s', s.allocPages order gfp cache = (some pfn, s') ∧
        Extends s ⟨pfn, order, cache⟩ s' ∧ s'.desc pfn = ⟨false, .allocated, none, order, none, 0⟩ ∧
        s'.caches = s.caches := by
  have hinv : (s.pages.step (.allocPages order gfp)).Inv s.map.maxPfn := hc.pages.step trivial
  have hlive := live_allocPages s.pages order gfp
  rw [Slub.allocPages]
  generalize s.pages.step (.allocPages order gfp) = pages at hinv hlive
  cases hres : (s.pages.phys.allocPages order gfp).1 with
  | none =>
    rw [hres] at hlive
    refine .inl ⟨_, rfl, hc.withPages hinv fun h hh => ?_, rfl⟩
    rw [hlive]
    exact hc.owned h hh
  | some pfn =>
    rw [hres] at hlive
    refine .inr ⟨pfn, _, rfl, ⟨rfl, rfl, rfl, hinv, hlive, fun q hq => ?_, fun _ _ => rfl⟩, ?_,
      rfl⟩
    · refine update_of_ne ?_ _ _
      rintro rfl
      exact hq (hasFrame_head _)
    · exact update_self ..

theorem Core.largeAlloc (hc : Core s live) (count pages : ℕ) {order : ℕ}
    (he : Extends s ⟨pfn, order, none⟩ s')
    (hdesc : s'.desc pfn = ⟨false, .allocated, none, order, none, 0⟩)
    (hcaches : s'.caches = s.caches) (hsize : size ≤ 2 ^ order * pageSize) :
    Core { s' with largeAllocCount := count, largeAllocPages := pages }
      (⟨s'.pageVirt pfn, size, ⟨pfn, order, none⟩⟩ :: live) := by
  have hspan := s.map.span_nonempty (pfn, order)
  have hvirt := he.pageVirt_eq
  refine hc.extends (h := ⟨pfn, order, none⟩) ⟨he.map, he.initialized, he.held, he.pages, he.live,
    he.desc, he.mem⟩ ⟨?_, hsize, nofun, fun _ => rfl⟩ ?_ nofun (fun _ => ?_) (fun c hcn => ?_)
    (fun c hcn => ?_) fun c hcn => ?_
  · exact he.mem_held
  · rw [show s'.pageVirt pfn = _ from hvirt]
    exact ⟨le_rfl, hspan⟩
  · exact ⟨congrArg Desc.slab hdesc, congrArg Desc.order hdesc⟩
  · obtain ⟨l, hl⟩ := hc.lists c hcn
    refine ⟨l, hl.frame (by rw [hcaches]) (fun p => ?_) fun h' hh' => ?_⟩
    · simp [he.held]
    · exact congrArg Desc.lruNext (he.desc _ (he.not_hasFrame hc hh' (hasFrame_head h')))
  · simp only [hcaches]
    rw [countP_cons_of_neg (by simp)]
    exact hc.allocatedCount c hcn
  · simp only [hcaches, he.held]
    rw [countP_cons_of_neg (by simp)]
    exact hc.slabCount c hcn

theorem Core.pfns_nodup (hc : Core s live) : (s.held.map (·.pfn)).Nodup := by
  refine pairwise_map.2 (hc.apart.imp fun {a b} happ (heq : a.pfn = b.pfn) => ?_)
  exact not_hasFrame happ (hasFrame_head a) (heq ▸ hasFrame_head b)

theorem Core.held_length (hc : Core s live) : s.held.length ≤ s.map.maxPfn := by
  have hlen := nodup_length_le (n := s.map.maxPfn) hc.pfns_nodup fun pfn hpfn => by
    obtain ⟨h, hh, rfl⟩ := mem_map.1 hpfn
    exact hc.pfn_lt hh
  rwa [length_map] at hlen

theorem objectsAt_cons (hcn : c < kmallocNumCaches) (start : ℕ) :
    ∃ rest, objectsAt c start = start :: rest := by
  have hmany := (cacheShape hcn).many
  obtain ⟨n, hn⟩ : ∃ n, cacheObjects c = n + 1 := ⟨cacheObjects c - 1, by omega⟩
  rw [objectsAt, hn, range_succ_eq_map, map_cons, Nat.zero_mul, Nat.add_zero]
  exact ⟨_, rfl⟩

@[simp] theorem installSlab_pageVirt : (s.installSlab c pfn).2.pageVirt q = s.pageVirt q := rfl

theorem installSlab_desc (hq : HasFrame ⟨pfn, cacheOrder c, some c⟩ q) :
    ((s.installSlab c pfn).2.desc q).slab = true ∧ ((s.installSlab c pfn).2.desc q).owner = .slab ∧
      ((s.installSlab c pfn).2.desc q).cache = some c := by
  have hmark : pfn ≤ q ∧ q < pfn + 2 ^ cacheOrder c := hq
  by_cases heq : q = pfn
  · subst heq
    simp [installSlab, modifyDesc, modifyDescs, modifyCache, hmark.2]
  · simp [installSlab, modifyDesc, modifyDescs, modifyCache, hmark.1, hmark.2, heq]

/-- The first page of a new slab has the free list behind the first object, and
leads to the slabs there were. -/
theorem installSlab_head (hfirst : (s.installSlab c pfn).1 ≠ 0) :
    ofPtr ((s.installSlab c pfn).2.desc pfn).lruPrev
        = nextFree (s.installSlab c pfn).2.mem (s.installSlab c pfn).1 ∧
      ((s.installSlab c pfn).2.desc pfn).lruNext = (s.caches c).slabList := by
  have hfirst' : (threadObjects s.mem (objectsAt c (s.pageVirt pfn))).2 ≠ 0 := hfirst
  simp [installSlab, modifyDesc, modifyDescs, modifyCache, nextFree_eq, hfirst']

theorem installSlab_other (hq : ¬ HasFrame ⟨pfn, cacheOrder c, some c⟩ q) :
    (s.installSlab c pfn).2.desc q = s.desc q := by
  have hne : q ≠ pfn := by
    rintro rfl
    exact hq (hasFrame_head ⟨q, cacheOrder c, some c⟩)
  have hout : ¬ (pfn ≤ q ∧ q < pfn + 2 ^ cacheOrder c) := hq
  simp only [installSlab, modifyDesc, modifyDescs, modifyCache, update_of_ne hne,
    if_neg hout]

theorem installSlab_caches (s : Slub) (c pfn : ℕ) :
    (s.installSlab c pfn).2.caches c
        = ⟨some pfn, u64Add (s.caches c).allocated 1, u64Add (s.caches c).slabs 1⟩ ∧
      ∀ c', c' ≠ c → (s.installSlab c pfn).2.caches c' = s.caches c' := by
  refine ⟨?_, fun c' hcc => ?_⟩
  · simp [installSlab, modifyDesc, modifyDescs, modifyCache]
  · simp [installSlab, modifyDesc, modifyDescs, modifyCache, hcc]

/-- A new slab, from which the first object is handed out. -/
theorem Core.installSlab (hc : Core s live) (hcn : c < kmallocNumCaches)
    (hready : s.initialized = true) (hsize : size ≤ cacheSize c)
    (he : Extends s ⟨pfn, cacheOrder c, some c⟩ s') (hcaches : s'.caches = s.caches) :
    (s.map.span (pfn, cacheOrder c)).Has (s'.installSlab c pfn).1 ∧
      (s'.installSlab c pfn).2.held = s'.held ∧
      Core (s'.installSlab c pfn).2
        (⟨(s'.installSlab c pfn).1, size, ⟨pfn, cacheOrder c, some c⟩⟩ :: live) := by
  have hshape := cacheShape hcn
  have hvirt : s'.pageVirt pfn = (s.map.span (pfn, cacheOrder c)).start := he.pageVirt_eq
  have hstop := s.map.span_stop (pfn, cacheOrder c)
  have hspan := live_span he.pages he.owned
  have hpos := s.map.pos
  have hfits := s.map.fits
  obtain ⟨rest, hrest⟩ := objectsAt_cons hcn (s'.pageVirt pfn)
  have hobj : ∀ x ∈ objectsAt c (s'.pageVirt pfn),
      Span.Within ⟨x, x + cacheSize c⟩ (s.map.span (pfn, cacheOrder c)) := by
    intro x hx
    have hwithin := objectsAt_within hcn hx
    rw [hvirt] at hwithin
    exact ⟨hwithin.1, hwithin.2.trans hstop.ge⟩
  have hbound : ∀ x ∈ objectsAt c (s'.pageVirt pfn), x ≠ 0 ∧ x < 2 ^ 64 := by
    intro x hx
    have h1 := (hobj x hx).1
    have h2 := (hobj x hx).2
    have hsize' := hshape.size
    simp only [Held.block] at hspan h1 h2
    omega
  obtain ⟨hthread, -, hsame⟩ :=
    threadObjects_spec s'.mem (objectsAt_pairwise hcn) hbound
  have hchain : Chain (nextFree (s'.installSlab c pfn).2.mem) (ofPtr (s'.installSlab c pfn).1)
      (objectsAt c (s'.pageVirt pfn)) := hthread
  -- the first object is the start of the slab
  have hptr : (s'.installSlab c pfn).1 = s'.pageVirt pfn := by
    show (threadObjects s'.mem (objectsAt c (s'.pageVirt pfn))).2 = _
    rw [hrest]
    rfl
  have hstart : s'.pageVirt pfn ∈ objectsAt c (s'.pageVirt pfn) := by
    rw [hrest]
    exact mem_cons_self
  have hhas : (s.map.span (pfn, cacheOrder c)).Has (s'.installSlab c pfn).1 := by
    rw [hptr, hvirt]
    exact ⟨le_rfl, s.map.span_nonempty _⟩
  have hne : (s'.installSlab c pfn).1 ≠ 0 := by
    rw [hptr]
    exact (hbound _ hstart).1
  obtain ⟨hprev, hnext⟩ := installSlab_head hne
  obtain ⟨hcache, hcache'⟩ := installSlab_caches s' c pfn
  have he' : Extends s ⟨pfn, cacheOrder c, some c⟩ (s'.installSlab c pfn).2 := by
    refine ⟨he.map, he.initialized, he.held, he.pages, he.live, fun q hq => ?_, fun y hy => ?_⟩
    · rw [installSlab_other hq]
      exact he.desc q hq
    · refine (hsame y fun obj hobj' hy' => hy ?_).trans (he.mem y hy)
      refine (hobj obj hobj').has ⟨hy'.1, hy'.2.trans_le ?_⟩
      have := hshape.size
      simp only
      omega
  refine ⟨hhas, rfl, hc.extends he' ⟨?_, hsize, fun c' hc' => ?_, nofun⟩ hhas (fun c' hc' => ?_)
    nofun (fun c' hc' => ?_) ?_ ?_⟩
  · exact he'.mem_held
  · obtain rfl : c = c' := Option.some.inj hc'
    rw [hptr, installSlab_pageVirt]
    exact hstart
  · obtain rfl : c = c' := Option.some.inj hc'
    have hnodup := objectsAt_nodup (s'.pageVirt pfn) hcn
    have hunused : ∀ x ∈ objectsAt c (s'.pageVirt pfn), ¬ InUse live x := by
      intro x hx
      refine he.not_inUse hc ((hobj x hx).has ⟨le_rfl, ?_⟩)
      have := hshape.size
      simp only
      omega
    rw [hrest, ← hptr] at hnodup
    refine ⟨hcn, rfl, he.initialized.trans hready, fun q h1 h2 => installSlab_desc ⟨h1, h2⟩, rest,
      ?_, (nodup_cons.1 hnodup).2, mem_rest_iff hnodup fun x => ?_⟩
    · -- the chain behind its first object
      rw [hprev, hptr]
      rw [hrest] at hchain
      exact hchain.2
    · rw [hptr, ← hrest]
      exact (and_iff_left_of_imp (hunused x)).symm
  · obtain ⟨l, hl⟩ := hc.lists c' hc'
    have hlinks : ∀ h' ∈ s.held, ((s'.installSlab c pfn).2.desc h'.pfn).lruNext
        = (s.desc h'.pfn).lruNext := fun h' hh' =>
      congrArg Desc.lruNext (he'.desc _ (he'.not_hasFrame hc hh' (hasFrame_head h')))
    by_cases hcc : c' = c
    · subst hcc
      have hnew : pfn ∉ l := fun hin =>
        he.not_hasFrame hc ((hl.2.2 pfn).1 hin) (hasFrame_head _) (hasFrame_head _)
      refine ⟨pfn :: l, ⟨by rw [hcache], ?_⟩, nodup_cons.2 ⟨hnew, hl.2.1⟩, fun p => ?_⟩
      · simp only [hnext, hcaches]
        exact hl.1.congr fun p hp => hlinks _ ((hl.2.2 p).1 hp)
      · rw [he'.held, mem_cons, mem_cons, hl.2.2 p]
        simp
    · refine ⟨l, hl.frame (by rw [hcache' c' hcc, hcaches]) (fun p => ?_) hlinks⟩
      rw [he'.held, mem_cons]
      exact or_iff_right fun h => hcc (Option.some.inj (congrArg Held.cache h))
  · have hbound := hbound _ hstart
    rw [← hptr] at hbound
    exact counted_cons hc.allocatedCount rfl (fun c' hcc => by rw [hcache' c' hcc, hcaches])
      (hc.live_lt.2 hbound.1 hbound.2 (he.not_inUse hc hhas)) (by rw [hcache, hcaches])
  · have hlen := hc.held_length
    simp only [pageSize] at hfits
    rw [he'.held]
    exact counted_cons hc.slabCount rfl (fun c' hcc => by rw [hcache' c' hcc, hcaches]) (by omega)
      (by rw [hcache, hcaches])

/-- What `KmemCache::alloc` and `kmalloc` do: a block is served from frames that
are held, or none is, and frames that nothing is served from are not obtained. -/
def Serves (s : SlubClient) (size : ℕ) (res : ℕ × Slub) : Prop :=
  (res.1 = 0 ∧ Core res.2 s.live ∧ res.2.held = s.slub.held) ∨
    ∃ h, res.1 ≠ 0 ∧ (res.2.map.span h.block).Has res.1 ∧ h ∈ res.2.held ∧
      Core res.2 (⟨res.1, size, h⟩ :: s.live) ∧ ∀ h' ∈ res.2.held, h' = h ∨ h' ∈ s.slub.held

theorem Inv.served {s : SlubClient} (hi : s.Inv) {res : ℕ × Slub} (hs : Serves s size res) :
    (s.served size res).Inv := by
  unfold SlubClient.served
  rcases hs with ⟨hnull, hcore, hheld⟩ | ⟨h, hnull, hhas, hh, hcore, hheld⟩
  · rw [if_pos hnull]
    refine ⟨hcore, ?_⟩
    rw [hheld]
    exact hi.busy
  rw [if_neg hnull, hcore.sourceOf_eq hh hhas]
  refine ⟨hcore, fun h' hh' => ?_⟩
  rcases hheld h' hh' with rfl | hold
  · exact ⟨_, mem_cons_self, rfl⟩
  · obtain ⟨b, hb, hsource⟩ := hi.busy h' hold
    exact ⟨b, mem_cons_of_mem _ hb, hsource⟩

theorem cacheAlloc_spec {s : SlubClient} (hi : s.Inv) (hcn : c < kmallocNumCaches)
    (hsize : size ≤ cacheSize c) (gfp : GfpFlags) : Serves s size (s.slub.cacheAlloc c gfp) := by
  have hc := hi.core
  rw [cacheAlloc]
  by_cases hready : s.slub.initialized = true
  swap
  · rw [if_neg hready]
    exact .inl ⟨rfl, hc, rfl⟩
  rw [if_pos hready]
  cases hpartial : s.slub.allocFromPartial c with
  | some res =>
    obtain ⟨ptr, s'⟩ := res
    obtain ⟨h, hh, hnull, hhas, hcore, hheld⟩ := hc.fromPartial hcn hsize hpartial
    exact .inr ⟨h, hnull, hhas, hh, hcore, fun h' hh' => .inr (hheld ▸ hh')⟩
  | none =>
    simp only [allocNewSlab]
    rcases allocPages_cases hc (cacheOrder c) gfp (some c) with
      ⟨s', hs', hcore, hheld⟩ | ⟨pfn, s', hs', he, -, hcaches⟩
    · rw [hs']
      exact .inl ⟨rfl, hcore, hheld⟩
    obtain ⟨hhas, hheld, hcore⟩ := hc.installSlab hcn hready hsize he hcaches
    rw [hs']
    rw [← he.map] at hhas
    refine .inr ⟨⟨pfn, cacheOrder c, some c⟩, ?_, hhas, he.mem_held, hcore, fun h' hh' => ?_⟩
    · exact (hcore.ptr_bounds he.mem_held hhas).1
    · rw [show (s'.installSlab c pfn).2.held = _ from he.held] at hh'
      exact mem_cons.1 hh'

/-- The pages of a large request are enough, if rounding up does not wrap. -/
theorem largeOrder_room (h : size + (pageSize - 1) < 2 ^ 64) :
    size ≤ 2 ^ largeOrder size * pageSize := by
  have hsum : u64Add size (pageSize - 1) = size + (pageSize - 1) := Nat.mod_eq_of_lt h
  have hroom := Nat.mul_le_mul_right pageSize
    (le_two_pow_getOrder (u64Add size (pageSize - 1) / pageSize))
  rw [largeOrder]
  refine le_trans ?_ hroom
  rw [hsum]
  simp only [pageSize]
  omega

theorem kmalloc_spec {s : SlubClient} (hi : s.Inv) (gfp : GfpFlags)
    (hwrap : size + (pageSize - 1) < 2 ^ 64) : Serves s size (s.slub.kmalloc size gfp) := by
  have hc := hi.core
  rw [kmalloc]
  split
  · rcases allocPages_cases hc (largeOrder size) gfp none with
      ⟨s', hs', hcore, hheld⟩ | ⟨pfn, s', hs', he, hdesc, hcaches⟩
    · rw [hs']
      exact .inl ⟨rfl, hcore, hheld⟩
    rw [hs']
    have hcore := hc.largeAlloc (u64Add s'.largeAllocCount 1)
      (u64Add s'.largeAllocPages (2 ^ largeOrder size)) he hdesc hcaches
      (largeOrder_room hwrap)
    have hhas := hcore.has_ptr mem_cons_self
    refine .inr ⟨_, (hcore.ptr_bounds he.mem_held hhas).1, hhas, he.mem_held, hcore,
      fun h' hh' => ?_⟩
    exact mem_cons.1 (he.held ▸ hh')
  · cases hfind : findKmallocCache size with
    | none => exact .inl ⟨rfl, hc, rfl⟩
    | some c =>
      obtain ⟨hcn, hsize⟩ := findKmallocCache_spec hfind
      exact cacheAlloc_spec hi hcn hsize gfp

/-! ### Deallocation -/

theorem inUse_erase (hptrs : (live.map (·.ptr)).Nodup) (hb : b ∈ live) {x : ℕ} :
    InUse (live.erase b) x ↔ InUse live x ∧ x ≠ b.ptr := by
  have hnodup : live.Nodup := hptrs.of_map _
  constructor
  · rintro ⟨b', hb', rfl⟩
    rw [hnodup.mem_erase_iff] at hb'
    exact ⟨⟨b', hb'.2, rfl⟩, fun heq => hb'.1 (inj_on_of_nodup_map hptrs hb'.2 hb heq)⟩
  · rintro ⟨⟨b', hb', rfl⟩, hne⟩
    exact ⟨b', hnodup.mem_erase_iff.2 ⟨fun heq => hne (heq ▸ rfl), hb'⟩, rfl⟩

theorem u64Sub_one {n : ℕ} (h1 : n ≠ 0) (h2 : n < 2 ^ 64) : u64Sub n 1 = n - 1 := by
  unfold u64Sub
  omega

/-- Blocks of frames are given back from which nothing is in use. -/
structure Drops (s : Slub) (h : Held) (s' : Slub) : Prop where
  map : s'.map = s.map
  initialized : s'.initialized = s.initialized
  mem : s'.mem = s.mem
  held : s'.held = s.held.erase h
  pages : s'.pages.Inv s.map.maxPfn
  live : ∀ h' ∈ s.held, h' ≠ h → h'.block ∈ s'.pages.live
  desc : ∀ q, ¬ HasFrame h q → SameDesc (s.desc q) (s'.desc q)
  allocated : ∀ c, (s'.caches c).allocated = (s.caches c).allocated

section

variable (hc : Core s live)

include hc

theorem Core.held_nodup : s.held.Nodup := hc.pfns_nodup.of_map _

theorem Core.drops (hd : Drops s h s') (hh : h ∈ s.held)
    (hunused : ∀ b ∈ live, b.source ≠ h) (hlists : ∀ c < kmallocNumCaches, ∃ l, SlabList s' c l)
    (hslabs : ∀ c < kmallocNumCaches, (s'.caches c).slabs = s'.held.countP (·.cache = some c)) :
    Core s' live := by
  have hkept : ∀ h', h' ∈ s'.held ↔ h' ≠ h ∧ h' ∈ s.held := by
    intro h'
    rw [hd.held, hc.held_nodup.mem_erase_iff]
  have ho : Outside s live h s' live :=
    ⟨hd.map, hd.initialized, hd.desc, fun y _ => by rw [hd.mem], fun _ _ => Iff.rfl⟩
  refine ⟨by rw [hd.map]; exact hd.pages, fun h' hh' => ?_, ?_, fun h' hh' c hcache => ?_,
    fun h' hh' hcache => ?_, hlists, fun b hb => ?_, hc.ptrs, fun c hcn => ?_, hslabs⟩
  · exact hd.live h' ((hkept h').1 hh').2 ((hkept h').1 hh').1
  · rw [hd.held]
    exact hc.apart.sublist erase_sublist
  · obtain ⟨hne, hold⟩ := (hkept h').1 hh'
    exact ho.slab hc hold (hc.apart_of_ne hold hh hne) hcache
  · obtain ⟨hne, hold⟩ := (hkept h').1 hh'
    exact ho.large hc hold (hc.apart_of_ne hold hh hne) hcache
  · have hblock := hc.placed b hb
    exact hblock.frame hd.map ((hkept _).2 ⟨hunused b hb, hblock.held⟩)
  · rw [hd.allocated]
    exact hc.allocatedCount c hcn

theorem freePages_pages (hcpu : cpu < maxCpus) (hh : h ∈ s.held) :
    (s.pages.step (.freePages cpu h.pfn h.order)).Inv s.map.maxPfn ∧
      ∀ h' ∈ s.held, h' ≠ h →
        h'.block ∈ (s.pages.step (.freePages cpu h.pfn h.order)).live := by
  refine ⟨freePages_spec hcpu hc.pages (hc.owned h hh), fun h' hh' hne => ?_⟩
  refine mem_live_step (hc.owned h' hh') fun hfrees => ?_
  -- the block of another entry is another block
  have hblock : h.block = h'.block := Option.some.inj hfrees
  exact hne (inj_on_of_nodup_map hc.pfns_nodup hh' hh (congrArg Prod.fst hblock).symm)

theorem Core.freeLarge {count pages : ℕ} (hcpu : cpu < maxCpus) (hb : b ∈ live)
    (hcache : b.source.cache = none) :
    Core ({ s with largeAllocCount := count, largeAllocPages := pages }.freePages cpu b.source)
      (live.erase b) := by
  have hblock := hc.placed b hb
  obtain ⟨hinv, hlive⟩ := freePages_pages hc hcpu hblock.held
  -- first the block is not in use any more
  have hcore : Core s (live.erase b) := by
    refine ⟨hc.pages, hc.owned, hc.apart, fun h hh c hcache' => ?_, hc.large, hc.lists,
      fun b' hb' => hc.placed b' (mem_of_mem_erase hb'), ?_, fun c hcn => ?_, hc.slabCount⟩
    · refine (hc.slab h hh c hcache').frame rfl (hc.slab h hh c hcache').ready (fun _ _ => .refl _)
        (fun _ _ _ => rfl) fun x hx => ?_
      rw [inUse_erase hc.ptrs hb]
      refine and_iff_left ?_
      rintro rfl
      have heq := hc.eq_of_has hh hblock.held (hc.object_has hh hcache' hx) (hc.has_ptr hb)
      rw [heq, hcache] at hcache'
      cases hcache'
    · exact hc.ptrs.sublist (erase_sublist.map _)
    · rw [countP_erase, if_neg (by simp [hcache]), Nat.sub_zero]
      exact hc.allocatedCount c hcn
  refine hcore.drops (h := b.source) ⟨rfl, rfl, rfl, rfl, hinv, hlive, fun _ _ => .refl _,
    fun _ => rfl⟩ hblock.held (fun b' hb' hsource => ?_) (fun c hcn => ?_) fun c hcn => ?_
  · have hptr := (inUse_erase hc.ptrs hb).1 ⟨b', hb', rfl⟩
    have hwhole := (hc.placed b' (mem_of_mem_erase hb')).whole (hsource ▸ hcache)
    rw [hsource, ← hblock.whole hcache] at hwhole
    exact hptr.2 hwhole
  · obtain ⟨l, hl⟩ := hc.lists c hcn
    refine ⟨l, hl.frame rfl (fun p => ?_) fun _ _ => rfl⟩
    refine mem_erase_of_ne fun heq => ?_
    rw [← heq] at hcache
    cases hcache
  · show (s.caches c).slabs = (s.held.erase b.source).countP _
    rw [countP_erase, if_neg (by simp [hcache]), Nat.sub_zero]
    exact hc.slabCount c hcn

/-- An object is put back on the free list of its slab. -/
theorem Core.pushFree (hb : b ∈ live) (hcache : b.source.cache = some c) :
    Core (s.pushFree c b.source.pfn b.ptr) (live.erase b) := by
  have hblock := hc.placed b hb
  have hh := hblock.held
  have hslab := hc.slab _ hh c hcache
  have hsize := (cacheShape hslab.cache).size
  have hobj := hblock.object c hcache
  have hbound := hc.ptr_bounds hh (hc.has_ptr hb)
  obtain ⟨l, hchain, hnodup, hmem⟩ := hslab.free
  have hused : InUse live b.ptr := ⟨b, hb, rfl⟩
  have hnew : b.ptr ∉ l := fun hin => ((hmem _).1 hin).2 hused
  -- the old head is a pointer, so the word holds it
  have hhead : (s.desc b.source.pfn).lruPrev < 2 ^ 64 := by
    cases l with
    | nil =>
      have hnil : ofPtr (s.desc b.source.pfn).lruPrev = none := hchain
      unfold ofPtr at hnil
      split at hnil
      · omega
      · cases hnil
    | cons x xs =>
      obtain ⟨hx, -⟩ := ofPtr_eq_some hchain.1
      have hxobj := ((hmem x).1 mem_cons_self).1
      rw [hx]
      exact (hc.ptr_bounds hh (hc.object_has hh hcache hxobj)).2
  have hcount := hc.allocatedCount c hslab.cache
  have hpos : live.countP (·.source.cache = some c) ≠ 0 := by
    rw [← Nat.pos_iff_ne_zero, countP_pos_iff]
    exact ⟨b, hb, by simpa using hcache⟩
  have hlt : live.countP (·.source.cache = some c) < 2 ^ 64 :=
    countP_le_length.trans_lt (hc.live_lt (x := 0)).1
  refine hc.relinks hh hcache ⟨rfl, rfl, rfl, rfl, fun q hq => ?_, ?_, fun y hy => ?_, fun c' => ?_⟩
    ⟨b.ptr :: l, ⟨?_, ?_⟩, nodup_cons.2 ⟨hnew, hnodup⟩, fun y => ?_⟩
    (fun b' hb' => hc.placed b' (mem_of_mem_erase hb'))
    (hc.ptrs.sublist (erase_sublist.map _)) (fun y hy => ?_)
    (counted_erase hc.allocatedCount hcache (fun c' hcc => ?_) hb ?_)
  · exact update_of_ne hq _ _
  · simp [Slub.pushFree, modifyDesc, modifyCache]
  · exact ByteMem.store_of_not_has fun hy' => hy (hc.word_has hh hcache hobj hy')
  · by_cases hcc : c' = c
    · subst hcc
      simp [Slub.pushFree, modifyDesc, modifyCache]
    · simp [Slub.pushFree, modifyDesc, modifyCache, hcc]
  · simp [Slub.pushFree, modifyDesc, modifyCache, ofPtr_of_ne hbound.1]
  · -- behind the object the chain is as it was: the words of other objects are elsewhere
    have hload : (s.pushFree c b.source.pfn b.ptr).mem.load b.ptr
        = (s.desc b.source.pfn).lruPrev := ByteMem.load_store hhead
    rw [nextFree_eq, hload]
    refine hchain.congr fun y hy => ?_
    have hyobj := ((hmem y).1 hy).1
    have hdisj := objectsAt_disjoint hyobj hobj (ne_of_mem_of_not_mem hy hnew)
    rw [nextFree_eq, nextFree_eq]
    refine congrArg ofPtr (ByteMem.load_store_of_disjoint ?_)
    omega
  · rw [mem_cons, hmem, inUse_erase hc.ptrs hb]
    constructor
    · rintro (rfl | ⟨hyobj, hunused⟩)
      · exact ⟨hobj, fun h => h.2 rfl⟩
      · exact ⟨hyobj, fun h => hunused h.1⟩
    · rintro ⟨hyobj, hunused⟩
      by_cases hy : y = b.ptr
      · exact .inl hy
      · exact .inr ⟨hyobj, fun h => hunused ⟨h, hy⟩⟩
  · rw [inUse_erase hc.ptrs hb]
    refine and_iff_left ?_
    rintro rfl
    exact hy (hc.has_ptr hb)
  · simp only [Slub.pushFree, modifyDesc, modifyCache, update_of_ne hcc]
  · simp only [Slub.pushFree, modifyDesc, modifyCache, update_self]
    exact u64Sub_one (hcount ▸ hpos) (hcount ▸ hlt)

omit hc in
theorem caches_release (s : Slub) (links : Links ℕ) :
    (((s.relink c links).clearSlab c pfn).freePages cpu h).caches
      = update s.caches c ⟨links.head, (s.caches c).allocated, (s.caches c).slabs - 1⟩ := by
  simp [freePages, clearSlab, modifyCache, modifyDescs, modifyDesc, Slub.relink]

theorem SlabList.relink {slabs : List ℕ} {links : Links ℕ}
    (hentry : h = ⟨h.pfn, cacheOrder c, some c⟩) (hslabs : SlabList s c slabs)
    (hchain : Chain links.next links.head (slabs.erase h.pfn))
    (hsame : ∀ q, q ∉ slabs → links.next q = (s.desc q).lruNext) {c' : ℕ}
    (hcn : c' < kmallocNumCaches) :
    ∃ l, SlabList (((s.relink c links).clearSlab c h.pfn).freePages cpu h) c' l := by
  -- the other marks of a descriptor do not matter
  have hnext : ∀ q, ((((s.relink c links).clearSlab c h.pfn).freePages cpu h).desc q).lruNext
      = links.next q := by
    intro q
    simp only [freePages, clearSlab, modifyCache, modifyDescs, modifyDesc]
    split <;> by_cases hq : q = h.pfn <;> simp [hq, Slub.relink]
  have hheld : ∀ pfn, ⟨pfn, cacheOrder c', some c'⟩ ∈
      (((s.relink c links).clearSlab c h.pfn).freePages cpu h).held ↔
        (⟨pfn, cacheOrder c', some c'⟩ : Held) ≠ h ∧ ⟨pfn, cacheOrder c', some c'⟩ ∈ s.held :=
    fun pfn => hc.held_nodup.mem_erase_iff
  by_cases hcc : c' = c
  · subst hcc
    refine ⟨slabs.erase h.pfn, ?_, hslabs.2.1.erase _, fun pfn => ?_⟩
    · rw [caches_release, update_self]
      exact hchain.congr fun q _ => hnext q
    · rw [hslabs.2.1.mem_erase_iff, hslabs.2.2, hheld, hentry]
      simp
  · obtain ⟨l, hl, hnodup, hmem⟩ := hc.lists c' hcn
    refine ⟨l, ?_, hnodup, fun pfn => ?_⟩
    · rw [caches_release, update_of_ne hcc]
      refine hl.congr fun q hq => (hnext q).trans (hsame q fun hq' => ?_)
      have heq := hc.frame_unique ((hmem q).1 hq) ((hslabs.2.2 q).1 hq') (hasFrame_head _)
        (hasFrame_head _)
      exact hcc (Option.some.inj (congrArg Held.cache heq))
    · rw [hheld, hmem, hentry]
      simp [hcc]

/-- A slab is given back if all its objects are free; otherwise one of them is
in use. -/
theorem Core.releaseSlab (hcpu : cpu < maxCpus) (hh : h ∈ s.held)
    (hcache : h.cache = some c) :
    Core (s.releaseSlab cpu c h.pfn) live ∧
      ((s.releaseSlab cpu c h.pfn).held = s.held.erase h ∨
        (s.releaseSlab cpu c h.pfn).held = s.held ∧ ∃ b ∈ live, b.source = h) := by
  have hslab := hc.slab h hh c hcache
  obtain ⟨l, hchain, hnodup, hmem⟩ := hslab.free
  have hsub : l ⊆ objectsAt c (s.pageVirt h.pfn) := fun x hx => ((hmem x).1 hx).1
  have hperm := hnodup.subperm hsub
  have hlen : l.length ≤ cacheObjects c := by
    have := hperm.length_le
    rwa [objectsAt_length] at this
  have hfree : s.freeObjectsInPage c h.pfn = l.length := countFrom_eq hchain (by omega)
  rw [Slub.releaseSlab, hfree]
  by_cases hall : l.length = cacheObjects c
  swap
  · rw [if_neg hall]
    refine ⟨hc, .inr ⟨rfl, ?_⟩⟩
    -- some object is not on the list
    by_contra hnone
    have hnone : ∀ b ∈ live, b.source ≠ h := fun b hb heq => hnone ⟨b, hb, heq⟩
    refine hall (hlen.antisymm ?_)
    have hsub' : objectsAt c (s.pageVirt h.pfn) ⊆ l := by
      intro x hx
      refine (hmem x).2 ⟨hx, ?_⟩
      rintro ⟨b, hb, rfl⟩
      exact hnone b hb (hc.eq_of_has (hc.placed b hb).held hh (hc.has_ptr hb)
        (hc.object_has hh hcache hx))
    have := ((objectsAt_nodup _ hslab.cache).subperm hsub').length_le
    rwa [objectsAt_length] at this
  rw [if_pos hall]
  -- no object is in use
  have hunused : ∀ b ∈ live, b.source ≠ h := by
    intro b hb hsource
    have hobj := (hc.placed b hb).object c (hsource ▸ hcache)
    rw [hsource] at hobj
    have hin : b.ptr ∈ l :=
      (hperm.perm_of_length_le (by rw [objectsAt_length]; omega)).mem_iff.2 hobj
    exact ((hmem _).1 hin).2 ⟨b, hb, rfl⟩
  have hentry : h = ⟨h.pfn, cacheOrder c, some c⟩ := by
    rw [← hcache, ← hslab.order]
  obtain ⟨slabs, hslabs⟩ := hc.lists c hslab.cache
  have hin : h.pfn ∈ slabs := (hslabs.2.2 _).2 (hentry ▸ hh)
  obtain ⟨links, hlinks, hchain', hsame⟩ :=
    unlink_spec ⟨(s.caches c).slabList, fun pfn => (s.desc pfn).lruNext⟩ hslabs.1
      hslabs.2.1 hin (hc.slabList_length hslabs)
  obtain ⟨hinv, hlive⟩ := freePages_pages hc hcpu hh
  have hremove : s.removeFromPartial c h.pfn = some (s.relink c links) := by
    rw [removeFromPartial, hlinks, Option.map_some]
  rw [hremove, ← hentry]
  refine ⟨hc.drops (h := h) ⟨rfl, rfl, rfl, rfl, hinv, hlive, fun q hq => ?_, fun c' => ?_⟩ hh
    hunused (fun c' hcn => SlabList.relink hc hentry hslabs hchain' hsame hcn)
    (counted_erase hc.slabCount hcache (fun c' hcc => ?_) hh ?_), .inl rfl⟩
  · -- outside the slab only the links of slabs may have changed
    have hq1 : q ≠ h.pfn := fun heq => hq (heq ▸ hasFrame_head h)
    have hq2 : ¬ (h.pfn ≤ q ∧ q < h.pfn + 2 ^ cacheOrder c) := by
      rw [← hslab.order]
      exact hq
    simp only [freePages, clearSlab, modifyCache, modifyDescs, modifyDesc, if_neg hq2,
      update_of_ne hq1]
    exact ⟨rfl, rfl, rfl, rfl, rfl⟩
  · rw [caches_release]
    by_cases hcc : c' = c
    · rw [hcc, update_self]
    · rw [update_of_ne hcc]
  · rw [caches_release, update_of_ne hcc]
  · rw [caches_release, update_self]

end

/-- Something is in use of every block of frames that stays. -/
theorem Inv.kfree {s : SlubClient} (hi : s.Inv) (hcpu : cpu < maxCpus) (hb : b ∈ s.live) :
    (s.step (.kfree cpu b)).Inv := by
  have hc := hi.core
  have hblock := hc.placed b hb
  have hne := (hc.ptr_bounds hblock.held (hc.has_ptr hb)).1
  -- what is in use of other blocks of frames stays in use
  have hother : ∀ h ∈ s.slub.held, h ≠ b.source → ∃ b' ∈ s.live.erase b, b'.source = h := by
    intro h hh hsource
    obtain ⟨b', hb', rfl⟩ := hi.busy h hh
    exact ⟨b', (mem_erase_of_ne fun heq => hsource (congrArg Kblock.source heq)).2 hb', rfl⟩
  have hkept : ∀ {h}, h ∈ s.slub.held.erase b.source → h ≠ b.source ∧ h ∈ s.slub.held :=
    fun hh => hc.held_nodup.mem_erase_iff.1 hh
  have hfind := hc.find_eq hb
  show Inv ⟨s.slub.kfree cpu b.ptr, s.live.erase b⟩
  rw [Slub.kfree, if_neg hne, hfind, Held.found]
  cases hcache : b.source.cache with
  | none =>
    have hentry : (⟨b.source.pfn, b.source.order, none⟩ : Held) = b.source := by
      rw [← hcache]
    simp only [hentry]
    refine ⟨hc.freeLarge hcpu hb hcache, fun h hh => ?_⟩
    exact hother h (hkept hh).2 (hkept hh).1
  | some c =>
    have hphys := virtToPhysDirectMap_eq hc.pages (hc.owned _ hblock.held) (hc.has_ptr hb)
    simp only [cacheFree, hphys.1, hc.slabHead_source hb hcache]
    have hpushed := hc.pushFree hb hcache
    obtain ⟨hcore, hheld⟩ := hpushed.releaseSlab hcpu (h := b.source) hblock.held hcache
    refine ⟨hcore, fun h hh => ?_⟩
    rcases hheld with hheld | ⟨hheld, hbusy⟩
    · simp only [hheld] at hh
      exact hother h (hkept hh).2 (hkept hh).1
    simp only [hheld] at hh
    by_cases hsource : h = b.source
    · exact hsource ▸ hbusy
    · exact hother h hh hsource

/-! ### Runs -/

theorem Inv.step {s : SlubClient} {op : SlubOp} (hi : s.Inv) (hcon : s.Contract op)
    (hwrap : NoWrap op) : (s.step op).Inv := by
  cases op with
  | pages op => exact hi.pages hcon
  | desc pfn d => exact hi.desc hcon
  | write addr byte => exact hi.write hcon
  | initKmallocCaches => exact hi.initKmallocCaches
  | kmalloc size gfp => exact hi.served (kmalloc_spec hi gfp hwrap)
  | kfree cpu b => exact hi.kfree hcon.1 hcon.2

theorem inv_boot (map : DirectMap) (reserved : Pfn → Bool) (desc : ℕ → Desc) (mem : ByteMem) :
    (boot map reserved desc mem).Inv :=
  ⟨⟨System.inv_boot map.maxPfn reserved, nofun, .nil, nofun, nofun,
    fun _ _ => ⟨[], rfl, .nil, fun _ => ⟨nofun, nofun⟩⟩, nofun, .nil, fun _ _ => rfl,
    fun _ _ => rfl⟩, nofun⟩

theorem Core.aligned (hc : Core s live) (hb : b ∈ live) : 8 ∣ b.ptr := by
  have hblock := hc.placed b hb
  have hstart : 8 ∣ s.pageVirt b.source.pfn := by
    rw [hc.pageVirt_eq hblock.held]
    have hpage : 8 ∣ pageSize := by decide
    exact Nat.dvd_add (hpage.trans s.map.aligned) (hpage.mul_left _)
  cases hcache : b.source.cache with
  | none => exact hblock.whole hcache ▸ hstart
  | some c =>
    exact objectsAt_aligned (hc.slab _ hblock.held c hcache).cache hstart (hblock.object c hcache)

theorem Inv.sound {s : SlubClient} (hi : s.Inv) : s.Sound where
  large b hb := (hi.core.placed b hb).size
  aligned _ hb := hi.core.aligned hb
  inside b hb := ⟨(hi.core.placed b hb).held, hi.core.span_within hb⟩
  owned := hi.core.owned
  disjoint := hi.core.disjoint
  found _ hb := hi.core.find_eq hb
  free h hh c hcache := (hi.core.slab h hh c hcache).free
  slabs := ⟨hi.core.held_nodup, hi.core.lists⟩
  allocatedCount := hi.core.allocatedCount
  slabCount := hi.core.slabCount
  returned hlive := by
    refine eq_nil_iff_forall_not_mem.2 fun h hh => ?_
    obtain ⟨b, hb, -⟩ := hi.busy h hh
    rw [hlive] at hb
    cases hb

/-- In every run in which the size of no request wraps when it is rounded up to
pages, blocks in use are large enough, aligned and disjoint, `kfree` finds where
they belong, the lists and counters are right, and nothing is held for blocks
that were freed. -/
theorem kmalloc_contract (map : DirectMap) (reserved : Pfn → Bool) (desc : ℕ → Desc) (mem : ByteMem)
    {ops : List SlubOp} {s : SlubClient}
    (hrun : Run (Guarded (fun s op => s.Contract op ∧ NoWrap op) (ofFun step))
      (boot map reserved desc mem) ops s) : s.Sound := by
  refine Inv.sound (hrun.invariant Inv ?_ (inv_boot map reserved desc mem))
  rintro s op s' hs ⟨⟨hok, hwrap⟩, rfl⟩
  exact hs.step hok hwrap

/-- The descriptors before anybody uses them. -/
def freshDesc (_ : ℕ) : Desc := ⟨false, .unknown, none, 0, none, 0⟩

/-- Objects of two caches and a large allocation. A user writes to an object on
a tail page, which is given back, then the rest of its slab, and the large
allocation. -/
def mixedOps : List SlubOp :=
  [.pages (.initZoneBuddy .dma 256 512), .initKmallocCaches, .kmalloc 8192 gfpKernel,
    .kmalloc 5000 gfpKernel, .kmalloc 4096 gfpKernel, .kmalloc 10000 gfpKernel,
    .write 0xFFFF800000102000 7,
    .kfree 0 ⟨0xFFFF800000102000, 5000, ⟨256, 3, some 10⟩⟩,
    .kfree 0 ⟨0xFFFF800000100000, 8192, ⟨256, 3, some 10⟩⟩,
    .kfree 0 ⟨0xFFFF80000010C000, 10000, ⟨268, 2, none⟩⟩]

theorem kmalloc_contract_mixed :
    ∃ s, Run (Guarded (fun s op => s.Contract op ∧ NoWrap op) (ofFun step))
        (boot .sample (fun _ => false) freshDesc fun _ => 0) mixedOps s ∧
      s.Sound ∧ s.slub.held = [⟨264, 2, some 9⟩] :=
  Run.exists_of_exec_total (by decide +kernel) fun _ hrun hheld =>
    ⟨kmalloc_contract _ _ _ _ hrun, hheld⟩

/-- A request for all addresses is served with one page. -/
theorem huge_request_gets_one_page :
    ∃ s, Run (Guarded Contract (ofFun step)) (boot .sample (fun _ => false) freshDesc fun _ => 0)
      [.pages (.initZoneBuddy .dma 256 512), .kmalloc (2 ^ 64 - 1) gfpKernel] s ∧ ¬ s.Sound := by
  refine Run.exists_of_exec_total (Q := fun s => ¬ ∀ b ∈ s.live, b.size ≤ b.source.capacity)
    (by decide) fun s _ hsmall hsound => ?_
  exact hsmall hsound.large

end SlubClient

end JanuaryOs.Alloc

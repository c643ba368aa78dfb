import JanuaryOs.Lib.Blocks
import JanuaryOs.Phys.Buddy

/-!
# Who holds which page frame

A frame is held by a list (a free list of a zone or the cache of a CPU), by a
live allocation, or, while an operation runs, by that operation: it is in hand.
`Holding` says that every frame has as many holders as it should, one if it is
managed, and that flags and counters agree with the lists. Every operation of
the allocators is a sequence of moves of blocks between a list and the hand,
with splits and merges in hand; each move has one lemma here.
-/

namespace JanuaryOs.Phys

open Lib Finset Function

/-! ### Lists -/

/-- The list heads of the allocators. -/
inductive Place
  | area (z : ZoneType) (order : ℕ)
  | pcp (cpu : ℕ) (z : ZoneType)
  deriving DecidableEq

def Place.order : Place → ℕ
  | .area _ o => o
  | .pcp _ _ => 0

def Place.zone : Place → ZoneType
  | .area z _ => z
  | .pcp _ z => z

/-- What the descriptor of a frame on a list says. -/
def Place.Fits : Place → Page → Prop
  | .area _ o, page => page.buddy = true ∧ page.order = o
  | .pcp _ _, page => page.buddy = false ∧ page.owner = .pcp

/-- All list heads there are. -/
def places : Finset Place :=
  (ZoneType.all.toFinset ×ˢ range maxOrder).image (fun x => .area x.1 x.2) ∪
    (range maxCpus ×ˢ ZoneType.all.toFinset).image (fun x => .pcp x.1 x.2)

theorem ZoneType.mem_all (z : ZoneType) : z ∈ ZoneType.all := by cases z <;> simp [ZoneType.all]

variable {z : ZoneType} {m o : ℕ}

theorem area_mem_places (h : o < maxOrder) : .area z o ∈ places := by
  simp only [places, mem_union, mem_image, mem_product, List.mem_toFinset, mem_range]
  exact .inl ⟨(z, o), ⟨z.mem_all, h⟩, rfl⟩

variable {cpu p : ℕ} {pl : Place} {s s' : PhysState}

theorem pcp_mem_places (h : cpu < maxCpus) : .pcp cpu z ∈ places := by
  simp only [places, mem_union, mem_image, mem_product, List.mem_toFinset, mem_range]
  exact .inr ⟨(cpu, z), ⟨h, z.mem_all⟩, rfl⟩

-- never compute the set of all list heads
attribute [irreducible] places

namespace PhysState

def lists (s : PhysState) : Place → List Pfn
  | .area z o => ((s.zones z).freeArea o).freeList
  | .pcp cpu z => (s.pcps cpu z).list

/-- How many blocks on the lists contain a frame. -/
def held (s : PhysState) (f : Pfn) : ℕ := total places (fun pl p => cover p pl.order f) s.lists

theorem held_update {xs : List Pfn} (hpl : pl ∈ places)
    (h : s'.lists = update s.lists pl xs) (f : Pfn) :
    s'.held f + ((s.lists pl).map fun p => cover p pl.order f).sum
      = s.held f + (xs.map fun p => cover p pl.order f).sum := by
  unfold held
  rw [h]
  exact sum_update hpl (fun pl xs => (xs.map fun p => cover p pl.order f).sum) s.lists xs

theorem one_le_held (hpl : pl ∈ places) (hp : p ∈ s.lists pl) : 1 ≤ s.held p := by
  have := le_total (w := fun pl p' => cover p' pl.order p) hpl hp
  rwa [cover_self] at this

theorem lists_addToBuddy (s : PhysState) (z : ZoneType) (p : Pfn) (o : ℕ) :
    (s.addToBuddy z p o).lists = update s.lists (.area z o) (p :: s.lists (.area z o)) := by
  funext pl
  cases pl with
  | pcp c z' => rfl
  | area z' o' =>
    by_cases hz : z' = z
    · subst hz
      by_cases ho : o' = o
      · subst ho
        simp [lists, addToBuddy, modifyZone, modifyPage, Zone.addFree]
      · simp [lists, addToBuddy, modifyZone, modifyPage, Zone.addFree, ho]
    · simp [lists, addToBuddy, modifyZone, modifyPage, hz]

theorem lists_removeFromBuddy (h : s.removeFromBuddy z p o = some s') :
    s'.lists = update s.lists (.area z o) ((s.lists (.area z o)).erase p) := by
  unfold removeFromBuddy at h
  split at h
  · cases h
  cases h
  funext pl
  cases pl with
  | pcp c z' => rfl
  | area z' o' =>
    by_cases hz : z' = z
    · subst hz
      by_cases ho : o' = o
      · subst ho
        simp [lists, modifyZone, modifyPage, Zone.removeFree]
      · simp [lists, modifyZone, modifyPage, Zone.removeFree, ho]
    · simp [lists, modifyZone, modifyPage, hz]

theorem lists_setPcp (s : PhysState) (cpu : ℕ) (z : ZoneType) (inner : PcpInner) :
    (s.setPcp cpu z inner).lists = update s.lists (.pcp cpu z) inner.list := by
  funext pl
  cases pl with
  | area z' o' => rfl
  | pcp c z' =>
    by_cases hc : c = cpu
    · subst hc
      by_cases hz : z' = z
      · subst hz
        simp [lists, setPcp]
      · simp [lists, setPcp, hz]
    · simp [lists, setPcp, hc]

end PhysState

/-! ### Where blocks can be -/

/-- The bounds of a zone, which never change. -/
structure Zone.SameBounds (z z' : Zone) : Prop where
  start : z.startPfn = z'.startPfn
  spanned : z.spannedPages = z'.spannedPages
  initialized : z.initialized = z'.initialized

theorem Zone.SameBounds.trans {z1 z2 z3 : Zone} (h1 : z1.SameBounds z2) (h2 : z2.SameBounds z3) :
    z1.SameBounds z3 :=
  ⟨h1.start.trans h2.start, h1.spanned.trans h2.spanned, h1.initialized.trans h2.initialized⟩

/-- An aligned block inside zone `z` of a machine with `m` frames. -/
structure HasBlock (m : ℕ) (z : ZoneType) (p o : ℕ) : Prop where
  order : o < maxOrder
  aligned : 2 ^ o ∣ p
  start : (PhysState.bootZone m z).startPfn ≤ p
  stop : p + 2 ^ o ≤ (PhysState.bootZone m z).endPfn

theorem fromPhysAddr_page (f : ℕ) :
    ZoneType.fromPhysAddr (f * pageSize)
      = if f < 4096 then .dma else if f < 1048576 then .dma32 else .normal := by
  have h1 : f * pageSize < zoneDmaLimit ↔ f < 4096 := by
    simp only [pageSize, zoneDmaLimit]
    omega
  have h2 : f * pageSize < zoneDma32Limit ↔ f < 1048576 := by
    simp only [pageSize, zoneDma32Limit]
    omega
  simp only [ZoneType.fromPhysAddr, h1, h2]

/-- A frame of a zone: the zone is set up, is the one its address says, and the
frame has a descriptor. -/
theorem bootZone_contains {f : ℕ} (h1 : (PhysState.bootZone m z).startPfn ≤ f)
    (h2 : f < (PhysState.bootZone m z).endPfn) :
    (PhysState.bootZone m z).initialized = true ∧ ZoneType.fromPhysAddr (f * pageSize) = z ∧
      f < m := by
  have hdma : zoneDmaLimit / pageSize = 4096 := by decide
  have hdma32 : zoneDma32Limit / pageSize = 1048576 := by decide
  have huninit : ¬ f < Zone.uninit.endPfn := Nat.not_lt_zero f
  rw [fromPhysAddr_page]
  cases z with
  | dma =>
    simp only [PhysState.bootZone, hdma] at h1 h2 ⊢
    split at h2
    · rename_i hpos
      simp only [if_pos hpos, Zone.init, Zone.endPfn] at h2 ⊢
      exact ⟨trivial, if_pos (by omega), by omega⟩
    · exact absurd h2 huninit
  | dma32 =>
    simp only [PhysState.bootZone, hdma, hdma32] at h1 h2 ⊢
    split at h2
    · rename_i hpos
      simp only [if_pos hpos, Zone.init, Zone.endPfn] at h1 h2 ⊢
      exact ⟨trivial, by rw [if_neg (by omega), if_pos (by omega)], by omega⟩
    · exact absurd h2 huninit
  | normal =>
    simp only [PhysState.bootZone, hdma32] at h1 h2 ⊢
    split at h2
    · rename_i hpos
      simp only [if_pos hpos, Zone.init, Zone.endPfn] at h1 h2 ⊢
      exact ⟨trivial, by rw [if_neg (by omega), if_neg (by omega)], by omega⟩
    · exact absurd h2 huninit

theorem HasBlock.contains {f : ℕ} (h : HasBlock m z p o) (h1 : p ≤ f) (h2 : f < p + 2 ^ o) :
    (PhysState.bootZone m z).initialized = true ∧ ZoneType.fromPhysAddr (f * pageSize) = z ∧
      f < m :=
  bootZone_contains (h.start.trans h1) (h2.trans_le h.stop)

theorem HasBlock.zone (h : HasBlock m z p o) : ZoneType.fromPhysAddr (p * pageSize) = z :=
  (h.contains le_rfl (Nat.lt_add_of_pos_right (Nat.two_pow_pos o))).2.1

theorem HasBlock.split (h : HasBlock m z p (o + 1)) :
    HasBlock m z p o ∧ HasBlock m z (p + 2 ^ o) o := by
  have hdvd : 2 ^ o ∣ p := (pow_dvd_pow 2 (Nat.le_succ o)).trans h.aligned
  have horder := h.order
  have hstart := h.start
  have hstop := h.stop
  exact ⟨⟨by omega, hdvd, hstart, by omega⟩,
    ⟨by omega, Nat.dvd_add hdvd (Nat.dvd_refl _), by omega, by omega⟩⟩

theorem HasBlock.merge (h : HasBlock m z p o) (hb : HasBlock m z (p ^^^ 2 ^ o) o)
    (ho : o + 1 < maxOrder) : HasBlock m z (min p (p ^^^ 2 ^ o)) (o + 1) := by
  have hstart := h.start
  have hstart' := hb.start
  have hstop := h.stop
  have hstop' := hb.stop
  refine ⟨ho, dvd_min_buddy h.aligned, by omega, ?_⟩
  rcases xor_two_pow h.aligned with ⟨-, heq⟩ | ⟨-, heq⟩ <;> omega

/-! ### The invariant -/

/-- What the allocators look at in a descriptor. -/
structure Page.SameRole (page page' : Page) : Prop where
  zoneId : page.zoneId = page'.zoneId
  buddy : page.buddy = page'.buddy
  order : page.order = page'.order
  owner : page.owner = page'.owner
  linked : page.linked = page'.linked

/-- The counters of a zone agree with its free lists. -/
structure Zone.Counted (zone : Zone) : Prop where
  nrFree : ∀ o, (zone.freeArea o).nrFree = (zone.freeArea o).freeList.length
  freePages : zone.freePages = ∑ o ∈ range maxOrder, (zone.freeArea o).nrFree * 2 ^ o

namespace Zone.Counted

variable {zone : Zone}

/-- One area is replaced by `area`, and the free pages are counted anew. -/
theorem setArea (h : zone.Counted) (ho : o < maxOrder) {area : FreeArea} {freePages : ℕ}
    (harea : area.nrFree = area.freeList.length)
    (hfree : freePages + (zone.freeArea o).nrFree * 2 ^ o = zone.freePages + area.nrFree * 2 ^ o) :
    Zone.Counted { zone with freeArea := update zone.freeArea o area, freePages := freePages } := by
  refine ⟨fun o' => ?_, ?_⟩
  · by_cases ho' : o' = o
    · subst ho'
      simpa only [update_self] using harea
    · simpa only [update_of_ne ho'] using h.nrFree o'
  · have hold := h.freePages
    have hsum := sum_update (mem_range.2 ho) (fun i (a : FreeArea) => a.nrFree * 2 ^ i)
      zone.freeArea area
    simp only at hsum ⊢
    omega

theorem addFree (h : zone.Counted) (ho : o < maxOrder) : (zone.addFree p o).Counted := by
  refine h.setArea ho ?_ ?_
  · rw [List.length_cons, h.nrFree]
  · simp only
    ring

/-- The clamp of the counter of free pages is never hit. -/
theorem removeFree (h : zone.Counted) (ho : o < maxOrder) (hp : p ∈ (zone.freeArea o).freeList) :
    (zone.removeFree p o).Counted := by
  have hpos : 0 < (zone.freeArea o).freeList.length := List.length_pos_of_mem hp
  have hnr := h.nrFree o
  have hle : (zone.freeArea o).nrFree * 2 ^ o ≤ zone.freePages := by
    rw [h.freePages]
    exact single_le_sum_of_canonicallyOrdered (f := fun o => (zone.freeArea o).nrFree * 2 ^ o)
      (mem_range.2 ho)
  obtain ⟨k, hk⟩ : ∃ k, (zone.freeArea o).nrFree = k + 1 :=
    ⟨_, (Nat.sub_add_cancel (by omega)).symm⟩
  rw [hk, Nat.add_mul, one_mul] at hle
  refine h.setArea ho ?_ ?_
  · rw [List.length_erase_of_mem hp, hnr]
  · simp only [hk, Nat.add_mul, one_mul, Nat.add_sub_cancel]
    rw [if_neg (by omega)]
    omega

end Zone.Counted

/-- Bounds and counters. -/
structure Books (m : ℕ) (s : PhysState) : Prop where
  maxPfn : s.maxPfn = m
  cpus : s.nrCpus ≤ maxCpus
  layout : ∀ z, (s.zones z).SameBounds (PhysState.bootZone m z)
  counted : ∀ z, (s.zones z).Counted
  count : ∀ c z, (s.pcps c z).count = (s.lists (.pcp c z)).length
  cached : ∀ c z, s.pcpInitialized = false → s.lists (.pcp c z) = []

namespace Books

theorem withPages (h : Books m s) (pages : Pfn → Page) : Books m { s with pages := pages } :=
  ⟨h.maxPfn, h.cpus, h.layout, h.counted, h.count, h.cached⟩

theorem modifyZone (h : Books m s) {f : Zone → Zone}
    (hsame : (f (s.zones z)).SameBounds (s.zones z))
    (hcounted : (f (s.zones z)).Counted) : Books m (s.modifyZone z f) := by
  have hlayout := (forall_update_iff s.zones fun z' zone =>
    zone.SameBounds (PhysState.bootZone m z')).2 ⟨hsame.trans (h.layout z), fun z' _ => h.layout z'⟩
  have hcount : ∀ z', (update s.zones z (f (s.zones z)) z').Counted :=
    (forall_update_iff s.zones fun _ zone => zone.Counted).2
      ⟨hcounted, fun z' _ => h.counted z'⟩
  exact ⟨h.maxPfn, h.cpus, hlayout, hcount, h.count, h.cached⟩

theorem addToBuddy (h : Books m s) (ho : o < maxOrder) : Books m (s.addToBuddy z p o) :=
  (h.withPages _).modifyZone ⟨rfl, rfl, rfl⟩ ((h.counted z).addFree ho)

theorem removeFromBuddy (h : Books m s) (ho : o < maxOrder) (hp : p ∈ s.lists (.area z o))
    (hs : s.removeFromBuddy z p o = some s') : Books m s' := by
  unfold PhysState.removeFromBuddy at hs
  split at hs
  · cases hs
  · cases hs
    exact (h.modifyZone ⟨rfl, rfl, rfl⟩ ((h.counted z).removeFree ho hp)).withPages _

theorem setPcp (h : Books m s) (hinit : s.pcpInitialized = true) {c : ℕ} {inner : PcpInner}
    (hcount : inner.count = inner.list.length) : Books m (s.setPcp c z inner) := by
  refine ⟨h.maxPfn, h.cpus, h.layout, h.counted, fun c' z' => ?_, fun c' z' hno => ?_⟩
  · by_cases hc : c' = c
    · subst hc
      by_cases hz : z' = z
      · subst hz
        simpa [PhysState.setPcp, PhysState.lists] using hcount
      · simpa [PhysState.setPcp, PhysState.lists, hz] using h.count c' z'
    · simpa [PhysState.setPcp, PhysState.lists, hc] using h.count c' z'
  · rw [show (s.setPcp c z inner).pcpInitialized = s.pcpInitialized from rfl, hinit] at hno
    cases hno

end Books

/-- The invariant of the allocators of a machine with `m` frames, with the
blocks `hand` in the hand of the running operation and the allocations `live`.
`M f` is the number of holders of frame `f`: one if it is managed. -/
structure Holding (m : ℕ) (s : PhysState) (hand live : List (Pfn × ℕ)) (M : Pfn → ℕ) : Prop where
  books : Books m s
  zoneId : ∀ f, (s.pages f).zoneId = .fromPhysAddr (f * pageSize)
  coverage : ∀ f, s.held f + coverAll hand f + coverAll live f = M f
  single : ∀ f, M f ≤ 1
  place : ∀ pl, ∀ p ∈ s.lists pl, pl ∈ places
  fits : ∀ pl, ∀ p ∈ s.lists pl, pl.Fits (s.pages p)
  block : ∀ pl, ∀ p ∈ s.lists pl, HasBlock m pl.zone p pl.order
  buddy : ∀ f, (s.pages f).buddy = true → ∃ z o, f ∈ s.lists (.area z o)
  handBlock : ∀ b ∈ hand, ∃ z, HasBlock m z b.1 b.2
  liveBlock : ∀ b ∈ live, ∃ z, HasBlock m z b.1 b.2
  livePage : ∀ b ∈ live, (s.pages b.1).owner = .allocated ∧ (s.pages b.1).linked = false

namespace Holding

variable {hand live : List (Pfn × ℕ)} {M : Pfn → ℕ}

section

variable (h : Holding m s ((p, o) :: hand) live M)

include h

theorem hand_fresh : s.held p = 0 ∧ coverAll hand p = 0 ∧ coverAll live p = 0 := by
  have hcov := h.coverage p
  have hsingle := h.single p
  rw [coverAll_cons, cover_self] at hcov
  omega

theorem not_listed (pl : Place) : p ∉ s.lists pl := by
  intro hp
  have := PhysState.one_le_held (h.place pl p hp) hp
  have := h.hand_fresh.1
  omega

theorem not_buddy : (s.pages p).buddy = false := by
  by_contra hb
  obtain ⟨z, o', hmem⟩ := h.buddy p (by simpa using hb)
  exact h.not_listed _ hmem

theorem ne_live {b : Pfn × ℕ} (hb : b ∈ live) : b.1 ≠ p := by
  rintro rfl
  have := cover_le_coverAll hb b.1
  have := h.hand_fresh.2.2
  rw [cover_self] at *
  omega

end

/-! ### Moves between the lists and the hand -/

/-- A frame gets another descriptor and is put on a list, or taken from it. -/
theorem relist {hand' : List (Pfn × ℕ)} {xs : List Pfn} (page : Page) (h : Holding m s hand live M)
    (hbooks : Books m s') (hlists : s'.lists = update s.lists pl xs)
    (hxs : ∀ f, f ≠ p → (f ∈ xs ↔ f ∈ s.lists pl)) (hpages : s'.pages = update s.pages p page)
    (hzone : page.zoneId = (s.pages p).zoneId)
    (hself : ∀ pl', p ∈ s'.lists pl' →
      pl' ∈ places ∧ pl'.Fits page ∧ HasBlock m pl'.zone p pl'.order)
    (hbuddy : page.buddy = true → ∃ z o, p ∈ s'.lists (.area z o))
    (hcov : ∀ f, s'.held f + coverAll hand' f + coverAll live f = M f)
    (hhand : ∀ b ∈ hand', ∃ z, HasBlock m z b.1 b.2) (hlive : ∀ b ∈ live, b.1 ≠ p) :
    Holding m s' hand' live M := by
  have hother : ∀ f, f ≠ p → s'.pages f = s.pages f := fun f hf => by
    rw [hpages, update_of_ne hf]
  have hpage : s'.pages p = page := by rw [hpages, update_self]
  have hmem : ∀ pl' f, f ≠ p → (f ∈ s'.lists pl' ↔ f ∈ s.lists pl') := by
    intro pl' f hf
    rw [hlists]
    by_cases heq : pl' = pl
    · subst heq
      rw [update_self, hxs f hf]
    · rw [update_of_ne heq]
  have hlisted : ∀ pl' f, f ∈ s'.lists pl' →
      pl' ∈ places ∧ pl'.Fits (s'.pages f) ∧ HasBlock m pl'.zone f pl'.order := by
    intro pl' f hf
    by_cases hfp : f = p
    · subst hfp
      rw [hpage]
      exact hself pl' hf
    · have hold := (hmem pl' f hfp).1 hf
      rw [hother f hfp]
      exact ⟨h.place pl' f hold, h.fits pl' f hold, h.block pl' f hold⟩
  refine ⟨hbooks, fun f => ?_, hcov, h.single, fun pl' f hf => (hlisted pl' f hf).1,
    fun pl' f hf => (hlisted pl' f hf).2.1, fun pl' f hf => (hlisted pl' f hf).2.2, fun f hf => ?_,
    hhand, h.liveBlock, fun b hb => ?_⟩
  · by_cases hf : f = p
    · rw [hf, hpage, hzone, h.zoneId]
    · rw [hother f hf, h.zoneId]
  · by_cases hfp : f = p
    · subst hfp
      exact hbuddy (hpage ▸ hf)
    · obtain ⟨z, o, hold⟩ := h.buddy f (hother f hfp ▸ hf)
      exact ⟨z, o, (hmem _ f hfp).2 hold⟩
  · rw [hother _ (hlive b hb)]
    exact h.livePage b hb

theorem push (pl : Place) (page : Page) (h : Holding m s ((p, pl.order) :: hand) live M)
    (hpl : pl ∈ places) (hblock : HasBlock m pl.zone p pl.order) (hfits : pl.Fits page)
    (hzone : page.zoneId = (s.pages p).zoneId) (hbooks : Books m s')
    (hlists : s'.lists = update s.lists pl (p :: s.lists pl))
    (hpages : s'.pages = update s.pages p page) : Holding m s' hand live M := by
  refine h.relist page hbooks hlists (fun f hf => ?_) hpages hzone (fun pl' hp => ?_)
    (fun hf => ?_) (fun f => ?_) (fun b hb => h.handBlock b (by simp [hb])) fun b hb => h.ne_live hb
  · rw [List.mem_cons]
    exact or_iff_right hf
  · obtain rfl : pl' = pl := by
      by_contra heq
      rw [hlists, update_of_ne heq] at hp
      exact h.not_listed pl' hp
    exact ⟨hpl, hfits, hblock⟩
  · cases pl with
    | area z o => exact ⟨z, o, by rw [hlists, update_self]; exact List.mem_cons_self⟩
    | pcp c z => rw [hfits.1] at hf; cases hf
  · have hcov := h.coverage f
    rw [coverAll_cons] at hcov
    have hheld := PhysState.held_update hpl hlists f
    rw [List.map_cons, List.sum_cons] at hheld
    omega

theorem pop (pl : Place) (page : Page) (h : Holding m s hand live M) (hp : p ∈ s.lists pl)
    (hbuddy : page.buddy = false) (hzone : page.zoneId = (s.pages p).zoneId) (hbooks : Books m s')
    (hlists : s'.lists = update s.lists pl ((s.lists pl).erase p))
    (hpages : s'.pages = update s.pages p page) : Holding m s' ((p, pl.order) :: hand) live M := by
  have hpl := h.place pl p hp
  have hcov : ∀ f, s'.held f + coverAll ((p, pl.order) :: hand) f + coverAll live f = M f := by
    intro f
    have hold := h.coverage f
    have hupd := PhysState.held_update hpl hlists f
    have hperm := ((List.perm_cons_erase hp).map fun p => cover p pl.order f).sum_eq
    rw [List.map_cons, List.sum_cons] at hperm
    rw [coverAll_cons]
    omega
  -- the frame is counted in hand, so it is on no list and not in use
  have hfresh : s'.held p = 0 ∧ coverAll live p = 0 := by
    have h1 := hcov p
    have h2 := h.single p
    rw [coverAll_cons, cover_self] at h1
    omega
  refine h.relist page hbooks hlists (fun f hf => List.mem_erase_of_ne hf) hpages hzone
    (fun pl' hp' => ?_) (fun hf => by rw [hbuddy] at hf; cases hf) hcov
    (List.forall_mem_cons.2 ⟨⟨pl.zone, h.block pl p hp⟩, h.handBlock⟩) fun b hb heq => ?_
  · have hplace : pl' ∈ places := by
      by_cases heq : pl' = pl
      · rwa [heq]
      · rw [hlists, update_of_ne heq] at hp'
        exact h.place pl' p hp'
    have := PhysState.one_le_held hplace hp'
    omega
  · have := cover_le_coverAll hb p
    rw [heq, cover_self] at this
    omega

/-! ### The moves of the allocators -/

theorem addToBuddy (h : Holding m s ((p, o) :: hand) live M) (hb : HasBlock m z p o) :
    Holding m (s.addToBuddy z p o) hand live M :=
  push (.area z o) ((s.pages p).markBuddy o).link h (area_mem_places hb.order) hb
    ⟨rfl, rfl⟩ rfl (h.books.addToBuddy hb.order) (s.lists_addToBuddy z p o) rfl

theorem removeFromBuddy (h : Holding m s hand live M) (hp : p ∈ s.lists (.area z o)) :
    ∃ s', s.removeFromBuddy z p o = some s' ∧ Holding m s' ((p, o) :: hand) live M ∧
      s'.pcpInitialized = s.pcpInitialized := by
  have hb : HasBlock m z p o := h.block _ p hp
  have hnr : ((s.zones z).freeArea o).nrFree ≠ 0 := by
    rw [(h.books.counted z).nrFree o]
    exact (List.length_pos_of_mem hp).ne'
  have hs : s.removeFromBuddy z p o = some _ := if_neg hnr
  exact ⟨_, hs, pop (.area z o) (s.pages p).unlink.clearBuddy h hp rfl rfl
    (h.books.removeFromBuddy hb.order hp hs) (PhysState.lists_removeFromBuddy hs) rfl, rfl⟩

theorem pcpFree (h : Holding m s ((p, 0) :: hand) live M) (hb : HasBlock m z p 0)
    (hcpu : cpu < maxCpus) (hinit : s.pcpInitialized = true) (howner : (s.pages p).owner = .pcp) :
    Holding m (s.pcpFree cpu z p) hand live M := by
  have hcount := h.books.count cpu z
  refine push (.pcp cpu z) (s.pages p).link h (pcp_mem_places hcpu) hb
    ⟨h.not_buddy, howner⟩ rfl ((h.books.setPcp hinit ?_).withPages _) (s.lists_setPcp cpu z _) rfl
  rw [List.length_cons, hcount]
  rfl

theorem pcpAlloc_some (hs : s.pcpAlloc cpu z = some (p, s')) :
    ∃ rest, (s.pcps cpu z).list = p :: rest ∧ s' = (s.setPcp cpu z
      ⟨(s.pcps cpu z).count - 1, rest⟩).modifyPage p (·.unlink) := by
  unfold PhysState.pcpAlloc at hs
  simp only at hs
  split at hs
  · cases hlist : (s.pcps cpu z).list with
    | nil => simp [hlist] at hs
    | cons q rest =>
      simp only [hlist, Option.some.injEq, Prod.mk.injEq] at hs
      obtain ⟨rfl, rfl⟩ := hs
      exact ⟨rest, rfl, rfl⟩
  · cases hs

theorem pcpAlloc (h : Holding m s hand live M) (hs : s.pcpAlloc cpu z = some (p, s')) :
    Holding m s' ((p, 0) :: hand) live M ∧ HasBlock m z p 0 ∧ (s'.pages p).owner = .pcp ∧
      (s'.pages p).linked = false ∧ s'.pcpInitialized = s.pcpInitialized := by
  have hcount : (s.pcps cpu z).count = (s.pcps cpu z).list.length := h.books.count cpu z
  obtain ⟨rest, hlist, rfl⟩ := pcpAlloc_some hs
  have hlists : s.lists (.pcp cpu z) = p :: rest := hlist
  have hq : p ∈ s.lists (.pcp cpu z) := by simp [hlists]
  have hinit : s.pcpInitialized = true := by
    by_contra hno
    rw [h.books.cached cpu z (by simpa using hno)] at hq
    cases hq
  have hfits : (s.pages p).buddy = false ∧ (s.pages p).owner = .pcp := h.fits _ p hq
  refine ⟨pop (.pcp cpu z) (s.pages p).unlink h hq hfits.1 rfl ?_ ?_ rfl,
    h.block _ p hq, ?_, ?_, rfl⟩
  · refine (h.books.setPcp hinit ?_).withPages _
    rw [hcount, hlist]
    rfl
  · rw [hlists, List.erase_cons_head]
    exact s.lists_setPcp cpu z _
  · simp [PhysState.modifyPage, PhysState.setPcp, Page.unlink, hfits.2]
  · simp [PhysState.modifyPage, PhysState.setPcp, Page.unlink]

/-- Change the descriptors of frames that are on no list, or in a way nobody
looks at. -/
theorem withPages (h : Holding m s hand live M) (hzone : ∀ f, (pages f).zoneId = (s.pages f).zoneId)
    (hbuddy : ∀ f, (pages f).buddy = true → (s.pages f).buddy = true)
    (hfits : ∀ pl, ∀ p ∈ s.lists pl, pl.Fits (s.pages p) → pl.Fits (pages p))
    (hlive : ∀ b ∈ live, (pages b.1).owner = (s.pages b.1).owner ∧
      (pages b.1).linked = (s.pages b.1).linked) :
    Holding m { s with pages := pages } hand live M where
  books := h.books.withPages pages
  zoneId f := (hzone f).trans (h.zoneId f)
  coverage := h.coverage
  single := h.single
  place := h.place
  fits pl p hp := hfits pl p hp (h.fits pl p hp)
  block := h.block
  buddy f hf := h.buddy f (hbuddy f hf)
  handBlock := h.handBlock
  liveBlock := h.liveBlock
  livePage b hb := by
    rw [(hlive b hb).1, (hlive b hb).2]
    exact h.livePage b hb

theorem modifyHand (h : Holding m s ((p, o) :: hand) live M) {f : Page → Page}
    (hzone : (f (s.pages p)).zoneId = (s.pages p).zoneId) (hbuddy : (f (s.pages p)).buddy = false) :
    Holding m (s.modifyPage p f) ((p, o) :: hand) live M := by
  refine h.withPages (fun q => ?_) (fun q hq => ?_) (fun pl q hq hfits => ?_) fun b hb => ?_
  · by_cases hqp : q = p
    · subst hqp
      rwa [update_self]
    · rw [update_of_ne hqp]
  · by_cases hqp : q = p
    · subst hqp
      rw [update_self, hbuddy] at hq
      cases hq
    · rwa [update_of_ne hqp] at hq
  · have hqp : q ≠ p := fun hqp => h.not_listed pl (hqp ▸ hq)
    rwa [update_of_ne hqp]
  · rw [update_of_ne (h.ne_live hb)]
    exact ⟨rfl, rfl⟩

/-- Reference counts and the flags of compound pages play no role. -/
theorem sameRole (h : Holding m s hand live M) (hrole : ∀ f, (pages f).SameRole (s.pages f)) :
    Holding m { s with pages := pages } hand live M := by
  refine h.withPages (fun f => (hrole f).zoneId) (fun f hf => (hrole f).buddy ▸ hf)
    (fun pl f _ hfits => ?_) fun b _ => ⟨(hrole b.1).owner, (hrole b.1).linked⟩
  cases pl with
  | area z o => exact ⟨(hrole f).buddy.trans hfits.1, (hrole f).order.trans hfits.2⟩
  | pcp c z => exact ⟨(hrole f).buddy.trans hfits.1, (hrole f).owner.trans hfits.2⟩

/-! ### Moves between the hand and the callers -/

theorem handOut (h : Holding m s ((p, o) :: hand) live M) (howner : (s.pages p).owner = .allocated)
    (hlinked : (s.pages p).linked = false) : Holding m s hand ((p, o) :: live) M where
  books := h.books
  zoneId := h.zoneId
  coverage f := by
    have hcov := h.coverage f
    rw [coverAll_cons] at hcov ⊢
    omega
  single := h.single
  place := h.place
  fits := h.fits
  block := h.block
  buddy := h.buddy
  handBlock b hb := h.handBlock b (List.mem_cons_of_mem _ hb)
  liveBlock b hb := by
    rcases List.mem_cons.1 hb with rfl | hb
    · exact h.handBlock _ List.mem_cons_self
    · exact h.liveBlock b hb
  livePage b hb := by
    rcases List.mem_cons.1 hb with rfl | hb
    · exact ⟨howner, hlinked⟩
    · exact h.livePage b hb

theorem takeBack (h : Holding m s hand live M) (hb : (p, o) ∈ live) :
    Holding m s ((p, o) :: hand) (live.erase (p, o)) M where
  books := h.books
  zoneId := h.zoneId
  coverage f := by
    have hcov := h.coverage f
    have herase : cover p o f + coverAll (live.erase (p, o)) f = coverAll live f :=
      ((List.perm_cons_erase hb).map fun b : ℕ × ℕ => cover b.1 b.2 f).sum_eq.symm
    rw [coverAll_cons]
    omega
  single := h.single
  place := h.place
  fits := h.fits
  block := h.block
  buddy := h.buddy
  handBlock b hb' := by
    rcases List.mem_cons.1 hb' with rfl | hb'
    · exact h.liveBlock _ hb
    · exact h.handBlock b hb'
  liveBlock b hb' := h.liveBlock b (List.mem_of_mem_erase hb')
  livePage b hb' := h.livePage b (List.mem_of_mem_erase hb')

/-! ### Splitting and joining in hand -/

/-- The blocks in hand are replaced by others that contain the same frames. -/
theorem regroup {hand' : List (Pfn × ℕ)} (h : Holding m s hand live M)
    (hcov : ∀ f, coverAll hand' f = coverAll hand f)
    (hblock : ∀ b ∈ hand', ∃ z, HasBlock m z b.1 b.2) : Holding m s hand' live M where
  __ := h
  coverage f := by
    rw [hcov]
    exact h.coverage f
  handBlock := hblock

theorem split (h : Holding m s ((p, o + 1) :: hand) live M) :
    Holding m s ((p + 2 ^ o, o) :: (p, o) :: hand) live M := by
  obtain ⟨z, hb⟩ := h.handBlock _ List.mem_cons_self
  refine h.regroup (fun f => ?_) fun b hb' => ?_
  · simp only [coverAll_cons, cover_split]
    omega
  · rcases List.mem_cons.1 hb' with rfl | hb'
    · exact ⟨z, hb.split.2⟩
    rcases List.mem_cons.1 hb' with rfl | hb'
    · exact ⟨z, hb.split.1⟩
    · exact h.handBlock b (List.mem_cons_of_mem _ hb')

theorem join (h : Holding m s ((p ^^^ 2 ^ o, o) :: (p, o) :: hand) live M) (hb : HasBlock m z p o)
    (hb' : HasBlock m z (p ^^^ 2 ^ o) o) (ho : o + 1 < maxOrder) :
    Holding m s ((min p (p ^^^ 2 ^ o), o + 1) :: hand) live M := by
  refine h.regroup (fun f => ?_) fun b hmem => ?_
  · simp only [coverAll_cons, cover_merge hb.aligned]
    omega
  · rcases List.mem_cons.1 hmem with rfl | hmem
    · exact ⟨z, hb.merge hb' ho⟩
    · exact h.handBlock b (by simp [hmem])

variable {pages : Pfn → Page}
end Holding

end JanuaryOs.Phys

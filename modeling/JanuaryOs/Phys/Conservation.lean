import JanuaryOs.Lib.Trace
import JanuaryOs.Phys.Spec

/-!
# No page frame is lost or handed out twice

A run starts with the state at boot and is a sequence of calls of the
allocators' functions. Next to their state it keeps what the callers know: which
frames were given to the buddy system, and which allocations they hold.
`page_conservation` says that in every state of every run each managed frame has
exactly one holder.
-/

namespace JanuaryOs.Phys

open Lib Finset PhysState

/-! ### Runs -/

/-- The allocators together with their callers. -/
structure System where
  phys : PhysState
  /-- The allocations that were handed out and not given back, with their
  orders. -/
  live : List (Pfn × ℕ)
  /-- The ranges that were given to `init_zone_buddy`. -/
  managed : List (ℕ × ℕ)

inductive PhysOp
  | initZoneBuddy (z : ZoneType) (startPfn endPfn : ℕ)
  | initPcp (nrCpus : ℕ)
  | allocPages (order : ℕ) (gfp : GfpFlags)
  | allocPage (cpu : ℕ) (gfp : GfpFlags)
  | pcpAllocPage (cpu : ℕ) (gfp : GfpFlags)
  | getPage (pfn : Pfn)
  | freePages (cpu : ℕ) (pfn : Pfn) (order : ℕ)
  | pcpFreePage (cpu : ℕ) (pfn : Pfn)
  | refillFromBuddy (cpu : ℕ) (z : ZoneType) (batch : ℕ)
  | drainToBuddy (cpu : ℕ) (z : ZoneType) (batch : ℕ)
  | drainAllPcps

namespace System

/-- The machine before any memory is added. -/
def boot (maxPfn : ℕ) (reserved : Pfn → Bool) : System := ⟨.boot maxPfn reserved, [], []⟩

variable (sys : System)

/-- A frame that was given to `init_zone_buddy`. -/
def Managed (f : ℕ) : Prop := ∃ r ∈ sys.managed, r.1 ≤ f ∧ f < r.2
deriving Decidable

/-- A call that hands out a block of order `order`, if it finds one. -/
def handedOut (order : ℕ) : Option Pfn × PhysState → System
  | (none, s) => { sys with phys := s }
  | (some pfn, s) => { sys with phys := s, live := (pfn, order) :: sys.live }

/-- What a call does. A block is given back when its last reference is dropped. -/
def step : PhysOp → System
  | .initZoneBuddy z startPfn endPfn =>
    { sys with
      phys := sys.phys.initZoneBuddy z startPfn endPfn
      managed := (startPfn, endPfn) :: sys.managed }
  | .initPcp nrCpus => { sys with phys := sys.phys.initPcp nrCpus }
  | .allocPages order gfp => sys.handedOut order (sys.phys.allocPages order gfp)
  | .allocPage cpu gfp => sys.handedOut 0 (sys.phys.allocPage cpu gfp)
  | .pcpAllocPage cpu gfp => sys.handedOut 0 (sys.phys.pcpAllocPage cpu gfp)
  | .getPage pfn => { sys with phys := sys.phys.modifyPage pfn (·.get) }
  | .freePages cpu pfn order =>
    { sys with
      phys := sys.phys.freePages cpu pfn order
      live := if (sys.phys.pages pfn).refcount = 1 then sys.live.erase (pfn, order) else sys.live }
  | .pcpFreePage cpu pfn =>
    { sys with phys := sys.phys.pcpFreePage cpu pfn, live := sys.live.erase (pfn, 0) }
  | .refillFromBuddy cpu z batch => { sys with phys := .refillFromBuddy cpu z batch sys.phys }
  | .drainToBuddy cpu z batch => { sys with phys := .drainToBuddy cpu z batch sys.phys }
  | .drainAllPcps => { sys with phys := sys.phys.drainAllPcps }

/-- What the functions ask of their callers. Memory is added once and to the
zone it lies in; the caches are set up once and before they are used; a CPU has
a number below `nr_cpus`; a block is given back by who holds it, with the order
it was handed out with (the call that finds no reference does nothing and may be
made about any frame). -/
def Allowed : PhysOp → Prop
  | .initZoneBuddy z startPfn endPfn =>
    ((sys.phys.zones z).startPfn ≤ startPfn ∧ endPfn ≤ (sys.phys.zones z).endPfn) ∧
      ∀ r ∈ sys.managed, endPfn ≤ r.1 ∨ r.2 ≤ startPfn
  | .initPcp _ => sys.phys.pcpInitialized = false
  | .allocPages _ _ | .getPage _ | .drainAllPcps => True
  | .allocPage cpu _ | .pcpAllocPage cpu _ => cpu < sys.phys.nrCpus
  | .freePages cpu pfn order =>
    cpu < sys.phys.nrCpus ∧ ((pfn, order) ∈ sys.live ∨ (sys.phys.pages pfn).refcount = 0)
  | .pcpFreePage cpu pfn =>
    cpu < sys.phys.nrCpus ∧ sys.phys.pcpInitialized = true ∧ (pfn, 0) ∈ sys.live
  | .refillFromBuddy cpu _ _ | .drainToBuddy cpu _ _ =>
    cpu < sys.phys.nrCpus ∧ sys.phys.pcpInitialized = true

instance : (op : PhysOp) → Decidable (sys.Allowed op)
  | .initZoneBuddy .. => inferInstanceAs (Decidable ((_ ∧ _) ∧ ∀ r ∈ sys.managed, _ ∨ _))
  | .initPcp _ => inferInstanceAs (Decidable (_ = false))
  | .allocPages .. | .getPage _ | .drainAllPcps => inferInstanceAs (Decidable True)
  | .allocPage .. | .pcpAllocPage .. => inferInstanceAs (Decidable (_ < _))
  | .freePages .. => inferInstanceAs (Decidable (_ < _ ∧ (_ ∈ sys.live ∨ _ = 0)))
  | .pcpFreePage .. => inferInstanceAs (Decidable (_ < _ ∧ _ = true ∧ _ ∈ sys.live))
  | .refillFromBuddy .. | .drainToBuddy .. => inferInstanceAs (Decidable (_ < _ ∧ _ = true))

/-! ### Conservation -/

/-- What holds of the frames at every moment. -/
structure Conserved (sys : System) : Prop where
  /-- A managed frame is in exactly one free block, cached page or allocation;
  any other frame in none. -/
  owners : ∀ f, sys.phys.held f + coverAll sys.live f = if sys.Managed f then 1 else 0
  /-- There are no lists besides those that are counted. -/
  listed : ∀ pl, ∀ p ∈ sys.phys.lists pl, pl ∈ places
  /-- Free blocks are aligned and inside their zone. -/
  freeBlock : ∀ z o, ∀ p ∈ ((sys.phys.zones z).freeArea o).freeList,
    o < maxOrder ∧ 2 ^ o ∣ p ∧ (sys.phys.zones z).startPfn ≤ p ∧
      p + 2 ^ o ≤ (sys.phys.zones z).endPfn
  /-- Cached pages belong to the zone of the cache. -/
  cached : ∀ c z, ∀ p ∈ (sys.phys.pcps c z).list, (sys.phys.zones z).containsPfn p
  /-- The flag and the order mark the heads of the free blocks. -/
  flag : ∀ f o, ((sys.phys.pages f).buddy = true ∧ (sys.phys.pages f).order = o) ↔
    ∃ z, f ∈ ((sys.phys.zones z).freeArea o).freeList
  /-- The counters agree with the lists. -/
  nrFree : ∀ z o, ((sys.phys.zones z).freeArea o).nrFree
    = ((sys.phys.zones z).freeArea o).freeList.length
  freePages : ∀ z, (sys.phys.zones z).freePages
    = ∑ o ∈ range maxOrder, ((sys.phys.zones z).freeArea o).nrFree * 2 ^ o
  /-- Allocations do not overlap. -/
  disjoint : sys.live.Pairwise Apart

/-- The invariant of a run: nothing is in hand between two calls. -/
def Inv (m : ℕ) (sys : System) : Prop :=
  Holding m sys.phys [] sys.live fun f => if sys.Managed f then 1 else 0

variable {sys : System} {m : ℕ}

theorem Inv.conserved (h : sys.Inv m) : sys.Conserved where
  owners f := by
    have hcov := h.coverage f
    rwa [coverAll_nil, Nat.add_zero] at hcov
  listed := h.place
  freeBlock z o p hp := by
    have hb : HasBlock m z p o := h.block (.area z o) p hp
    have hlayout := h.books.layout z
    rw [Zone.endPfn, hlayout.start, hlayout.spanned]
    exact ⟨hb.order, hb.aligned, hb.start, hb.stop⟩
  cached c z p hp := (h.contains (h.block (.pcp c z) p hp)).2.1
  flag f o := by
    constructor
    · rintro ⟨hbuddy, horder⟩
      obtain ⟨z, o', hf⟩ := h.buddy f hbuddy
      obtain rfl : o = o' := horder.symm.trans (h.fits _ f hf).2
      exact ⟨z, hf⟩
    · rintro ⟨z, hf⟩
      exact h.fits (.area z o) f hf
  nrFree z := (h.books.counted z).nrFree
  freePages z := (h.books.counted z).freePages
  disjoint := pairwise_apart fun f => by
    have := h.coverage f
    have := h.single f
    omega

theorem bootZone_empty (m : ℕ) (z : ZoneType) :
    (∀ o, (bootZone m z).freeArea o = ⟨[], 0⟩) ∧ (bootZone m z).freePages = 0 := by
  have hcases : bootZone m z = .uninit ∨ ∃ a b, bootZone m z = .init a b := by
    cases z
    all_goals
      unfold bootZone
      exact (ite_eq_or_eq _ _ _).symm.imp_right fun h => ⟨_, _, h⟩
  rcases hcases with h | ⟨a, b, h⟩
  all_goals
    rw [h]
    exact ⟨fun _ => rfl, rfl⟩

theorem inv_boot (m : ℕ) (reserved : Pfn → Bool) : (boot m reserved).Inv m := by
  have hempty : ∀ pl, (PhysState.boot m reserved).lists pl = [] := by
    intro pl
    cases pl with
    | pcp c z => rfl
    | area z o => exact congrArg FreeArea.freeList ((bootZone_empty m z).1 o)
  have hheld : ∀ f, (PhysState.boot m reserved).held f = 0 := by
    intro f
    simp [PhysState.held, total, hempty]
  have hnone : ∀ {P : Place → Pfn → Prop} (pl : Place),
      ∀ p ∈ (PhysState.boot m reserved).lists pl, P pl p := by
    intro P pl p hp
    rw [hempty] at hp
    cases hp
  have hpage : ∀ f, ((PhysState.boot m reserved).pages f).zoneId = .fromPhysAddr (f * pageSize) ∧
      ((PhysState.boot m reserved).pages f).buddy = false := by
    intro f
    simp only [PhysState.boot]
    split
    · exact ⟨rfl, rfl⟩
    · exact ⟨rfl, rfl⟩
  refine ⟨⟨rfl, (by decide : 1 ≤ maxCpus), fun z => ⟨rfl, rfl, rfl⟩, fun z => ⟨fun o => ?_, ?_⟩,
    fun _ _ => rfl,
    fun _ _ _ => rfl⟩, fun f => (hpage f).1, fun f => ?_, fun f => ?_, hnone, hnone, hnone,
    fun f hf => ?_, by simp, by simp [boot], by simp [boot]⟩
  · exact (congrArg FreeArea.nrFree ((bootZone_empty m z).1 o)).trans
      (congrArg (List.length ∘ FreeArea.freeList) ((bootZone_empty m z).1 o)).symm
  · refine (bootZone_empty m z).2.trans (sum_eq_zero fun o _ => ?_).symm
    simp [boot, PhysState.boot, (bootZone_empty m z).1 o]
  · rw [show (boot m reserved).phys.held f = 0 from hheld f]
    simp [boot, Managed]
  · split <;> omega
  · rw [show ((boot m reserved).phys.pages f).buddy = false from (hpage f).2] at hf
    cases hf

theorem Inv.handedOut {order : ℕ} {res : Option Pfn × PhysState}
    (h : Allocates m sys.live (fun f => if sys.Managed f then 1 else 0) order res) :
    (sys.handedOut order res).Inv m := by
  rcases res with ⟨_ | p, s⟩
  · exact h
  · exact h

theorem Inv.initZoneBuddy {startPfn endPfn : ℕ} {z : ZoneType} (h : sys.Inv m)
    (hok : sys.Allowed (.initZoneBuddy z startPfn endPfn)) :
    (sys.step (.initZoneBuddy z startPfn endPfn)).Inv m := by
  obtain ⟨⟨hstart, hstop⟩, hapart⟩ := hok
  have hlayout := h.books.layout z
  rw [Zone.endPfn, hlayout.start, hlayout.spanned] at hstop
  rw [hlayout.start] at hstart
  have hnew : ∀ f : ℕ, startPfn ≤ f → f < endPfn → ¬ sys.Managed f := by
    rintro f h1 h2 ⟨r, hr, h3, h4⟩
    rcases hapart r hr with h | h <;> omega
  have hinit := initLoop_spec (z := z) (endPfn - startPfn) h hstart hstop le_rfl
    fun f h1 h2 => if_neg (hnew f h1 h2)
  refine Holding.recount hinit fun f => ?_
  have hiff : (sys.step (.initZoneBuddy z startPfn endPfn)).Managed f ↔
      (startPfn ≤ f ∧ f < endPfn) ∨ sys.Managed f := by
    simp [Managed, step]
  by_cases hf : startPfn ≤ f ∧ f < endPfn
  · rw [if_neg (hnew f hf.1 hf.2), if_pos hf, if_pos (hiff.2 (.inl hf))]
  · rw [if_neg hf, Nat.add_zero]
    simp only [hiff, hf, false_or]

theorem Inv.step (h : sys.Inv m) {op : PhysOp} (hok : sys.Allowed op) : (sys.step op).Inv m := by
  have hcpus := h.books.cpus
  cases op with
  | initZoneBuddy z startPfn endPfn => exact h.initZoneBuddy hok
  | initPcp nrCpus => exact initPcp_spec h hok nrCpus
  | allocPages order gfp => exact .handedOut (allocPages_spec .trivial h .intro gfp).1
  | allocPage cpu gfp =>
    exact .handedOut (allocPage_spec .trivial (hok.trans_le hcpus) h .intro gfp).1
  | pcpAllocPage cpu gfp =>
    exact .handedOut (pcpAllocPage_spec .trivial (hok.trans_le hcpus) h .intro gfp).1
  | getPage pfn => exact Holding.modifySame h ⟨rfl, rfl, rfl, rfl, rfl⟩
  | freePages cpu pfn order =>
    rcases hok.2 with hlive | hzero
    · exact freePages_spec (hok.1.trans_le hcpus) h hlive
    -- the double free is detected and changes nothing
    have hsame : sys.phys.freePages cpu pfn order = sys.phys := by
      have hput : (sys.phys.pages pfn).tryPut = none := if_pos hzero
      simp only [freePages, hput, ite_self]
    simp only [System.step, hsame, hzero, zero_ne_one, if_false]
    exact h
  | pcpFreePage cpu pfn =>
    have hpage := h.livePage _ hok.2.2
    exact pcpFreePage_spec (hok.1.trans_le hcpus) (Holding.takeBack h hok.2.2) hok.2.1 hpage.1
      hpage.2
  | refillFromBuddy cpu z batch =>
    exact (refillFromBuddy_spec .trivial batch (hok.1.trans_le hcpus) h .intro hok.2).1
  | drainToBuddy cpu z batch => exact drainToBuddy_spec batch h
  | drainAllPcps => exact drainAllPcps_spec h

/-- On every machine and in every run of allowed calls, every managed frame is
at every moment in exactly one free block, cache or allocation; flags and
counters agree with the lists, and allocations do not overlap. -/
theorem page_conservation (maxPfn : ℕ) (reserved : Pfn → Bool) {ops : List PhysOp} {sys : System}
    (hrun : Run (Guarded Allowed (ofFun step)) (boot maxPfn reserved) ops sys) : sys.Conserved := by
  have hinv : sys.Inv maxPfn := by
    refine hrun.invariant (Inv maxPfn) ?_ (inv_boot maxPfn reserved)
    rintro s op s' hs ⟨hok, rfl⟩
    exact hs.step hok
  exact hinv.conserved

/-- Calls on a machine of sixteen frames: blocks are split, handed out, cached,
given back and joined. -/
def sampleOps : List PhysOp :=
  [.initZoneBuddy .dma 1 16, .allocPages 2 ⟨false, false, false⟩,
    .allocPages 2 ⟨false, false, true⟩,
    .initPcp 2, .allocPage 1 ⟨true, false, false⟩, .freePages 0 8 2,
    .allocPages 0 ⟨false, true, false⟩, .getPage 2, .freePages 0 2 0, .freePages 0 2 0,
    .pcpAllocPage 0 ⟨false, false, false⟩, .pcpFreePage 1 2, .refillFromBuddy 0 .dma 1,
    .drainToBuddy 0 .dma 4, .drainAllPcps]

theorem page_conservation_sixteen :
    ∃ sys, Run (Guarded Allowed (ofFun step)) (boot 16 fun f => f == 0) sampleOps sys ∧
      sys.Conserved ∧ sys.live = [(1, 0), (4, 2)] :=
  Run.exists_of_exec_total (by decide) fun _ hrun hlive => ⟨page_conservation 16 _ hrun, hlive⟩

end System

end JanuaryOs.Phys

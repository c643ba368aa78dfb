import JanuaryOs.Phys.Tidy

/-!
# Free memory is joined to blocks that are as large as possible

The calls that put pages of the caches back do not join them with their buddies.
In runs in which no such page has a buddy that is free, or put back by the same
call, the free blocks are the tiling of the free memory (`Tiling`), and a set
has only one. So once everything is given back the same blocks are there as in
the beginning.
-/

namespace JanuaryOs.Phys

open Lib List

namespace System

/-! ### Pages that are put back -/

/-- What goes back to the buddy system when a page is put on a cache that is
full. -/
def overflow (sys : System) (cpu : ℕ) (pfn : Pfn) : List (ZoneType × Pfn) :=
  let z := (sys.phys.pages pfn).zoneId
  if pcpHigh < (sys.phys.pcps cpu z).count + 1 then
    ((pfn :: (sys.phys.pcps cpu z).list).take pcpBatch).map (z, ·)
  else []

/-- The pages of the caches that a call puts on the free lists of order zero. -/
def putBack (sys : System) : PhysOp → List (ZoneType × Pfn)
  | .freePages cpu pfn order =>
    if order = 0 ∧ sys.phys.pcpInitialized ∧ (sys.phys.pages pfn).refcount = 1 then
      sys.overflow cpu pfn
    else []
  | .pcpFreePage cpu pfn => sys.overflow cpu pfn
  | .drainToBuddy cpu z batch => ((sys.phys.pcps cpu z).list.take batch).map (z, ·)
  | .drainAllPcps =>
    (PhysState.allPcps sys.phys.nrCpus).flatMap fun c =>
      (sys.phys.pcps c.1 c.2).list.map (c.2, ·)
  | _ => []

/-- No page that is put back has a buddy that is free, or put back as well. -/
def Lone (sys : System) (op : PhysOp) : Prop :=
  ∀ b ∈ sys.putBack op, b.2 ^^^ 1 ∉ ((sys.phys.zones b.1).freeArea 0).freeList ∧
    (b.1, b.2 ^^^ 1) ∉ sys.putBack op
deriving Decidable

/-- A call after the memory was added. -/
def Later : PhysOp → Prop
  | .initZoneBuddy .. => False
  | _ => True

instance : (op : PhysOp) → Decidable (Later op)
  | .initZoneBuddy .. => inferInstanceAs (Decidable False)
  | .initPcp _ | .allocPages .. | .allocPage .. | .pcpAllocPage .. | .getPage _ | .freePages ..
  | .pcpFreePage .. | .refillFromBuddy .. | .drainToBuddy .. | .drainAllPcps =>
    inferInstanceAs (Decidable True)

/-- No two free blocks of the same order, below the largest one, are buddies. -/
def Merged (sys : System) : Prop :=
  ∀ z o p, o + 1 < maxOrder → p ∈ ((sys.phys.zones z).freeArea o).freeList →
    p ^^^ 2 ^ o ∉ ((sys.phys.zones z).freeArea o).freeList

/-! ### Runs keep the lists tidy -/

variable {m : ℕ} {sys : System} {op : PhysOp} {z : ZoneType}

/-- The invariant of a run. -/
structure Kept (m : ℕ) (sys : System) : Prop where
  inv : sys.Inv m
  tidy : Tidy sys.phys.nrCpus sys.phys

theorem lonely_of_map {l : List Pfn} (h : sys.Lone op) (hop : sys.putBack op = l.map (z, ·)) :
    sys.phys.Lonely z l := by
  intro q hq
  have hmem : (z, q) ∈ sys.putBack op := by
    rw [hop]
    exact mem_map.2 ⟨q, hq, rfl⟩
  obtain ⟨h1, h2⟩ := h _ hmem
  refine ⟨h1, fun hin => h2 ?_⟩
  rw [hop]
  exact mem_map.2 ⟨_, hin, rfl⟩

theorem Kept.loneCaches (h : sys.Kept m) (hlone : sys.Lone .drainAllPcps) :
    LoneCaches sys.phys := by
  have hput : ∀ c z q, q ∈ sys.phys.lists (.pcp c z) → (z, q) ∈ sys.putBack .drainAllPcps := by
    intro c z q hq
    have hc : c < sys.phys.nrCpus := by
      by_contra hge
      rw [h.tidy.idle c z (Nat.not_lt.1 hge)] at hq
      cases hq
    exact mem_flatMap.2 ⟨(c, z), mem_allPcps hc z, mem_map.2 ⟨q, hq, rfl⟩⟩
  intro c z q hq
  obtain ⟨h1, h2⟩ := hlone _ (hput c z q hq)
  exact ⟨h1, fun c' hin => h2 (hput c' z _ hin)⟩

theorem Kept.initPcp (h : sys.Kept m) (hinit : sys.phys.pcpInitialized = false) (n : ℕ) :
    Tidy (sys.phys.initPcp n).nrCpus (sys.phys.initPcp n) := by
  refine ⟨rfl, h.tidy.merged, fun c z hc => ?_⟩
  have hempty : (sys.phys.pcps c z).list = [] := h.inv.books.cached c z hinit
  simp only [PhysState.lists, PhysState.initPcp]
  split
  · rfl
  · exact hempty

theorem Kept.step (h : sys.Kept m) (hok : sys.Allowed op) (hlater : Later op)
    (hlone : sys.Lone op) : (sys.step op).Kept m := by
  refine ⟨h.inv.step hok, ?_⟩
  have hn : sys.phys.nrCpus ≤ maxCpus := h.inv.books.cpus
  -- a call that leaves the number of CPUs alone
  have hsame : ∀ {s : PhysState}, Tidy sys.phys.nrCpus s → Tidy s.nrCpus s := fun hs => by
    rwa [hs.cpus]
  have hout : ∀ {order : ℕ} {res : Option Pfn × PhysState}, Tidy sys.phys.nrCpus res.2 →
      Tidy (sys.handedOut order res).phys.nrCpus (sys.handedOut order res).phys := by
    intro order res hres
    obtain ⟨_ | p, s⟩ := res
    · exact hsame hres
    · exact hsame hres
  cases op with
  | initZoneBuddy z startPfn endPfn => cases hlater
  | initPcp nrCpus => exact h.initPcp hok nrCpus
  | allocPages order gfp => exact hout (allocPages_spec (Tidy.stable _) h.inv h.tidy gfp).2
  | allocPage cpu gfp =>
    exact hout (allocPage_spec (Tidy.stableCached hok) (hok.trans_le hn) h.inv h.tidy gfp).2
  | pcpAllocPage cpu gfp =>
    exact hout (pcpAllocPage_spec (Tidy.stableCached hok) (hok.trans_le hn) h.inv h.tidy gfp).2
  | getPage pfn => exact h.tidy.congr rfl rfl
  | freePages cpu pfn order =>
    refine hsame ?_
    rcases hok.2 with hlive | hzero
    · obtain ⟨z, hb⟩ := h.inv.liveBlock _ hlive
      have hzone : (sys.phys.pages pfn).zoneId = z := (h.inv.zoneId pfn).trans hb.zone
      refine freePages_tidy hok.1 hn h.inv h.tidy hb hlive fun ho hinit hone hhigh => ?_
      refine lonely_of_map hlone ?_
      rw [putBack, if_pos ⟨ho, hinit, hone⟩, overflow, hzone, if_pos hhigh]
      rfl
    · have hput : (sys.phys.pages pfn).tryPut = none := if_pos hzero
      have hnone : sys.phys.freePages cpu pfn order = sys.phys := by
        simp only [PhysState.freePages, hput, ite_self]
      exact hnone.symm ▸ h.tidy
  | pcpFreePage cpu pfn =>
    obtain ⟨z, hb⟩ := h.inv.liveBlock _ hok.2.2
    have hzone : (sys.phys.pages pfn).zoneId = z := (h.inv.zoneId pfn).trans hb.zone
    have hpage := h.inv.livePage _ hok.2.2
    refine hsame (pcpFreePage_tidy hok.1 hn (Holding.takeBack h.inv hok.2.2) h.tidy hb hok.2.1
      hpage.1 hpage.2 fun hhigh => lonely_of_map hlone ?_)
    rw [putBack, overflow, hzone, if_pos hhigh]
    rfl
  | refillFromBuddy cpu z batch =>
    exact hsame (refillFromBuddy_spec (Tidy.stableCached hok.1) batch (hok.1.trans_le hn) h.inv
      h.tidy hok.2).2.1
  | drainToBuddy cpu z batch =>
    exact hsame (drainToBuddy_tidy batch h.inv h.tidy hok.1 (lonely_of_map hlone rfl))
  | drainAllPcps => exact hsame (drainAllPcps_tidy h.inv h.tidy (h.loneCaches hlone)).1

theorem managed_step (hlater : Later op) : (sys.step op).managed = sys.managed := by
  have hout : ∀ (order : ℕ) (res : Option Pfn × PhysState),
      (sys.handedOut order res).managed = sys.managed := by
    rintro order ⟨_ | p, s⟩
    · rfl
    · rfl
  cases op with
  | initZoneBuddy z startPfn endPfn => cases hlater
  | allocPages | allocPage | pcpAllocPage => exact hout _ _
  | _ => rfl

/-! ### The free lists as a tiling -/

/-- If no frame is held twice, blocks of one zone that meet are the same. -/
theorem area_unique {s : PhysState} {live : List (Pfn × ℕ)} {M : Pfn → ℕ}
    (h : Holding m s [] live M) {p o q k f : ℕ} (hp : p ∈ s.lists (.area z o))
    (hq : q ∈ s.lists (.area z k)) (hpf : InBlock p o f) (hqf : InBlock q k f) : p = q ∧ o = k := by
  have hone : s.held f ≤ 1 := by
    have := h.coverage f
    have := h.single f
    omega
  have hcov : ∀ {p o : ℕ}, InBlock p o f → cover p o f = 1 := fun hin => if_pos hin
  by_cases hok : o = k
  · subst hok
    refine ⟨by_contra fun hne => ?_, rfl⟩
    -- the list counts the frame twice
    have hperm := ((perm_cons_erase hp).map fun p => cover p o f).sum_eq
    have hq' : q ∈ (s.lists (.area z o)).erase p := (mem_erase_of_ne (Ne.symm hne)).2 hq
    have hle : cover q o f ≤ (((s.lists (.area z o)).erase p).map fun p => cover p o f).sum :=
      le_sum_of_mem (mem_map_of_mem hq')
    have hsum : ((s.lists (.area z o)).map fun p => cover p o f).sum ≤ s.held f :=
      Finset.single_le_sum_of_canonicallyOrdered
        (f := fun pl => ((s.lists pl).map fun p => cover p pl.order f).sum) (h.place _ p hp)
    rw [map_cons, sum_cons, hcov hpf] at hperm
    rw [hcov hqf] at hle
    omega
  · -- two lists count it
    have hne : Place.area z o ≠ .area z k := fun heq => hok (Place.area.inj heq).2
    have hsum : ((s.lists (.area z o)).map fun p => cover p o f).sum +
        ((s.lists (.area z k)).map fun p => cover p k f).sum ≤ s.held f :=
      add_le_sum_entries (h.place _ p hp) (h.place _ q hq) hne
        fun pl => ((s.lists pl).map fun p => cover p pl.order f).sum
    have h1 : cover p o f ≤ ((s.lists (.area z o)).map fun p => cover p o f).sum :=
      le_sum_of_mem (mem_map_of_mem hp)
    have h2 : cover q k f ≤ ((s.lists (.area z k)).map fun p => cover p k f).sum :=
      le_sum_of_mem (mem_map_of_mem hq)
    rw [hcov hpf] at h1
    rw [hcov hqf] at h2
    omega

/-- With nothing allocated or cached, the free blocks of a zone tile its managed
frames. -/
theorem Kept.tiling (h : sys.Kept m) (hlive : sys.live = [])
    (hcaches : ∀ c z, sys.phys.lists (.pcp c z) = []) (z : ZoneType) :
    Tiling maxOrder (fun f => sys.Managed f ∧ ZoneType.fromPhysAddr (f * pageSize) = z)
      fun p o => p ∈ sys.phys.lists (.area z o) where
  order hp := (h.inv.block (.area z _) _ hp).order
  aligned hp := (h.inv.block (.area z _) _ hp).aligned
  inside := by
    intro p o hp f hf
    refine ⟨?_, ((h.inv.block (.area z o) p hp).contains hf.1 hf.2).2.1⟩
    by_contra hno
    have hcov := h.inv.coverage f
    have hle : cover p o f ≤ sys.phys.held f :=
      le_total (w := fun pl p' => cover p' pl.order f) (h.inv.place _ p hp) hp
    rw [if_neg hno] at hcov
    rw [show cover p o f = 1 from if_pos hf] at hle
    omega
  covers := by
    rintro f ⟨hmanaged, rfl⟩
    have hcov := h.inv.coverage f
    rw [if_pos hmanaged, hlive, coverAll_nil] at hcov
    have hpos : sys.phys.held f ≠ 0 := by omega
    obtain ⟨pl, hpl, hsum⟩ := Finset.exists_ne_zero_of_sum_ne_zero hpos
    obtain ⟨c, hc, hne⟩ : ∃ c ∈ (sys.phys.lists pl).map fun p => cover p pl.order f, c ≠ 0 := by
      by_contra hno
      exact hsum (sum_eq_zero fun c hc => by_contra fun hne => hno ⟨c, hc, hne⟩)
    obtain ⟨p, hp, rfl⟩ := mem_map.1 hc
    have hf : InBlock p pl.order f := by_contra fun hno => hne (if_neg hno)
    cases pl with
    | pcp c z =>
      rw [hcaches] at hp
      cases hp
    | area z o =>
      rw [((h.inv.block (.area z o) p hp).contains hf.1 hf.2).2.1]
      exact ⟨p, o, hp, hf⟩
  unique hp hq := area_unique h.inv hp hq
  merged ho hp := h.tidy.merged z _ _ ho hp

/-! ### Memory that is added once -/

/-- A range of frames is given to a zone. -/
def addZone (r : ZoneType × ℕ × ℕ) : PhysOp := .initZoneBuddy r.1 r.2.1 r.2.2

/-- Each zone is given one range: blocks are cut off as large as possible. -/
theorem Kept.addZones {zones : List (ZoneType × ℕ × ℕ)} {sys' : System} (h : sys.Kept m)
    (honce : (zones.map Prod.fst).Nodup)
    (hempty : ∀ z ∈ zones.map Prod.fst, ∀ o, sys.phys.lists (.area z o) = [])
    (hrun : Run (Guarded Allowed (ofFun System.step)) sys (zones.map addZone) sys') :
    sys'.Kept m ∧ sys'.live = sys.live ∧
      ∀ c z, sys'.phys.lists (.pcp c z) = sys.phys.lists (.pcp c z) := by
  induction zones generalizing sys with
  | nil =>
    cases hrun
    exact ⟨h, rfl, fun _ _ => rfl⟩
  | cons r zones ih =>
    rcases hrun with _ | ⟨⟨hok, rfl⟩, hrest⟩
    rw [map_cons, nodup_cons] at honce
    have htidy : Tidy sys.phys.nrCpus (sys.step (addZone r)).phys := by
      refine initLoop_tidy _ h.tidy fun k q hq => ?_
      rw [hempty r.1 mem_cons_self] at hq
      cases hq
    have hkept : (sys.step (addZone r)).Kept m :=
      ⟨h.inv.step hok, by rwa [htidy.cpus]⟩
    have hothers : ∀ z ∈ zones.map Prod.fst, ∀ o,
        (sys.step (addZone r)).phys.lists (.area z o) = [] := by
      intro z hz o
      refine ((initLoop_frame ..).2.2 _ fun o' heq => honce.1 ?_).trans
        (hempty z (mem_cons_of_mem _ hz) o)
      rw [← (Place.area.inj heq).1]
      exact hz
    obtain ⟨h', hlive, hcaches⟩ := ih hkept honce.2 hothers hrest
    exact ⟨h', hlive, fun c z => (hcaches c z).trans ((initLoop_frame ..).2.2 _ nofun)⟩

theorem kept_boot (maxPfn : ℕ) (reserved : Pfn → Bool) : (boot maxPfn reserved).Kept maxPfn := by
  refine ⟨inv_boot maxPfn reserved, rfl, fun z o p _ hp => ?_, fun _ _ _ => rfl⟩
  have hempty : (boot maxPfn reserved).phys.lists (.area z o) = [] :=
    congrArg FreeArea.freeList ((bootZone_empty maxPfn z).1 o)
  rw [hempty] at hp
  cases hp

/-! ### Coalescing -/

/-- On every machine on which each zone was given one range of frames, and in
every run of calls whose pages from the caches never meet their buddies: when
everything is given back and the caches are drained, no two free blocks are
buddies, and every allocation that was possible in the beginning is possible
again. -/
theorem free_memory_coalesces (maxPfn : ℕ) (reserved : Pfn → Bool)
    {zones : List (ZoneType × ℕ × ℕ)} {start sys : System} {ops : List PhysOp}
    (honce : (zones.map Prod.fst).Nodup)
    (hinit : Run (Guarded Allowed (ofFun step)) (boot maxPfn reserved) (zones.map addZone) start)
    (hrun : Run (Guarded (fun sys op => sys.Allowed op ∧ Later op ∧ sys.Lone op) (ofFun step))
      start ops sys)
    (hdone : sys.live = []) (hdrain : sys.Lone .drainAllPcps) :
    (sys.step .drainAllPcps).Merged ∧
      ∀ order gfp, (start.phys.allocPages order gfp).1.isSome →
        ((sys.step .drainAllPcps).phys.allocPages order gfp).1.isSome := by
  obtain ⟨hstart, hlive, hcaches⟩ := (kept_boot maxPfn reserved).addZones honce
    (fun z _ o => congrArg FreeArea.freeList ((bootZone_empty maxPfn z).1 o)) hinit
  have hrun' : sys.Kept maxPfn ∧ sys.managed = start.managed := by
    refine hrun.invariant (fun sys => sys.Kept maxPfn ∧ sys.managed = start.managed) ?_
      ⟨hstart, rfl⟩
    rintro s op s' ⟨hs, hm⟩ ⟨⟨hok, hlater, hlone⟩, rfl⟩
    exact ⟨hs.step hok hlater hlone, (managed_step hlater).trans hm⟩
  obtain ⟨hkept, hmanaged⟩ := hrun'
  have hlast : (sys.step .drainAllPcps).Kept maxPfn := hkept.step trivial trivial hdrain
  refine ⟨hlast.tidy.merged, fun order gfp hsome => ?_⟩
  -- the blocks at the end and at the start tile the same frames
  have hfirst := fun z => hstart.tiling hlive hcaches z
  have hagain := fun z => hlast.tiling hdone
    (drainAllPcps_tidy hkept.inv hkept.tidy (hkept.loneCaches hdrain)).2 z
  have hset : ∀ f, (sys.step .drainAllPcps).Managed f ↔ start.Managed f := by
    intro f
    have : (sys.step .drainAllPcps).managed = start.managed := hmanaged
    simp only [Managed, this]
  simp only [hset] at hagain
  obtain ⟨z, hz, k, hk, hmax, hne⟩ := (allocPages_isSome hstart.inv gfp).1 hsome
  obtain ⟨p, hp⟩ := exists_mem_of_ne_nil _ hne
  exact (allocPages_isSome hlast.inv gfp).2
    ⟨z, hz, k, hk, hmax, ne_nil_of_mem (((hfirst z).unique_blocks (hagain z)).1 hp)⟩

/-- Blocks are split, handed out, cached, given back and joined. No frame of the
zone but the first is cached, and its buddy is reserved. -/
def loneOps : List PhysOp :=
  [.allocPages 2 ⟨false, false, false⟩, .allocPages 0 ⟨false, false, true⟩, .freePages 0 4 2,
    .initPcp 2, .getPage 1, .freePages 1 1 0, .allocPages 3 ⟨false, false, false⟩, .freePages 1 1 0,
    .pcpAllocPage 1 ⟨false, false, false⟩, .freePages 0 8 3, .pcpFreePage 1 1]

theorem free_memory_coalesces_sixteen :
    ∃ start sys, Run (Guarded Allowed (ofFun step)) (boot 16 fun f => f == 0)
        [addZone (.dma, 1, 16)] start ∧
      Run (Guarded (fun sys op => sys.Allowed op ∧ Later op ∧ sys.Lone op) (ofFun step))
        start loneOps sys ∧
      (sys.step .drainAllPcps).Merged ∧
      ((sys.step .drainAllPcps).phys.allocPages 3 ⟨false, false, false⟩).1.isSome := by
  have hexec : Executes Allowed (fun sys op => some (step sys op)) (boot 16 fun f => f == 0)
      [addZone (.dma, 1, 16)] fun start =>
        (start.phys.allocPages 3 ⟨false, false, false⟩).1.isSome ∧
        Executes (fun sys op => sys.Allowed op ∧ Later op ∧ sys.Lone op)
          (fun sys op => some (step sys op)) start loneOps fun sys =>
            sys.live = [] ∧ sys.Lone .drainAllPcps := by decide
  obtain ⟨start, hinit, hfits, hrest⟩ := Run.exists_of_exec_total hexec fun _ _ h => h
  obtain ⟨sys, hrun, hdone, hlone⟩ := Run.exists_of_exec_total hrest fun _ _ h => h
  have hinit' : Run (Guarded Allowed (ofFun step)) (boot 16 fun f => f == 0)
      ([(.dma, 1, 16)].map addZone) start := hinit
  obtain ⟨hmerged, hagain⟩ := free_memory_coalesces 16 (fun f => f == 0) (by decide) hinit' hrun
    hdone hlone
  exact ⟨start, sys, hinit, hrun, hmerged, hagain 3 _ hfits⟩

/-- A page is allocated and given back while the caches are in use. Draining
puts it next to its free buddy, and the machine never has a block of sixteen
frames again. -/
theorem drained_page_meets_buddy :
    ∃ start sys, Run (Guarded Allowed (ofFun step)) (boot 16 fun _ => false)
        [addZone (.dma, 0, 16)] start ∧
      Run (Guarded (fun sys op => sys.Allowed op ∧ Later op) (ofFun step)) start
        [.initPcp 1, .allocPages 0 ⟨false, false, false⟩, .freePages 0 0 0] sys ∧
      sys.live = [] ∧ ¬ (sys.step .drainAllPcps).Merged ∧
      (start.phys.allocPages 4 ⟨false, false, false⟩).1.isSome ∧
      ¬ ((sys.step .drainAllPcps).phys.allocPages 4 ⟨false, false, false⟩).1.isSome := by
  have hexec : Executes Allowed (fun sys op => some (step sys op)) (boot 16 fun _ => false)
      [addZone (.dma, 0, 16)] fun start =>
        (start.phys.allocPages 4 ⟨false, false, false⟩).1.isSome ∧
        Executes (fun sys op => sys.Allowed op ∧ Later op) (fun sys op => some (step sys op)) start
          [.initPcp 1, .allocPages 0 ⟨false, false, false⟩, .freePages 0 0 0] fun sys =>
            sys.live = [] ∧
            (((sys.step .drainAllPcps).phys.zones .dma).freeArea 0).freeList = [0, 1] ∧
            ¬ ((sys.step .drainAllPcps).phys.allocPages 4 ⟨false, false, false⟩).1.isSome := by
    decide
  obtain ⟨start, hinit, hfits, hrest⟩ := Run.exists_of_exec_total hexec fun _ _ h => h
  obtain ⟨sys, hrun, hdone, hlist, hnone⟩ := Run.exists_of_exec_total hrest fun _ _ h => h
  refine ⟨start, sys, hinit, hrun, hdone, fun hmerged => ?_, hfits, hnone⟩
  have hbuddy := hmerged .dma 0 0 (by decide) (by rw [hlist]; simp)
  rw [hlist] at hbuddy
  exact hbuddy (by simp)

/-- In every run, an allocation fails only if its zones have no block large
enough. -/
theorem alloc_complete {reserved : Pfn → Bool} {ops : List PhysOp} {o : ℕ}
    (hrun : Run (Guarded Allowed (ofFun step)) (boot m reserved) ops sys) (gfp : GfpFlags) :
    (sys.phys.allocPages o gfp).1.isSome ↔ ∃ z ∈ gfpToZoneList gfp, ∃ k, o ≤ k ∧ k < maxOrder ∧
      sys.phys.lists (.area z k) ≠ [] := by
  refine allocPages_isSome (hrun.invariant (Inv m) ?_ (inv_boot m reserved)) gfp
  rintro s op s' hs ⟨hok, rfl⟩
  exact hs.step hok

theorem alloc_complete_sixteen : ∃ sys,
    Run (Guarded Allowed (ofFun step)) (boot 16 fun f => f == 0) sampleOps sys ∧
      (sys.phys.allocPages 1 ⟨true, false, false⟩).1.isSome :=
  Run.exists_of_exec_total (Q := fun sys => sys.phys.lists (.area .dma 3) ≠ []) (by decide)
    fun _ hrun h => (alloc_complete hrun _).2 ⟨.dma, by decide, 3, by decide, by decide, h⟩

end System

end JanuaryOs.Phys

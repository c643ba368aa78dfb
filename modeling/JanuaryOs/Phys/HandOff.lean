import JanuaryOs.Phys.Conservation
import JanuaryOs.Phys.MemblockSpec
import JanuaryOs.Phys.Setup

/-!
# The memory that is handed over at boot

The early allocator knows bytes, the buddy system frames. A region of free bytes
is rounded down to frames at both ends, so it may begin with a frame that is
only partly free; such a frame overlaps a reservation, because memory comes in
pages, and is filtered out. The frames are added from below, which is why no
frame is added twice: what has been added so far lies below a frontier.
-/

namespace JanuaryOs.Phys

open Lib Memblock List

/-! ### Calls of the early allocator -/

namespace Memblock

/-- A call adds memory and reservations if it succeeds. -/
def Call.Does (added reserved : List Span) (f : Call) : Prop :=
  ∀ mb : Memblock, mb.Inv → (f mb).2.Inv ∧ ((f mb).1 = .ok () →
    (∀ x, (f mb).2.memory.Contains x ↔ mb.memory.Contains x ∨ Covered added x) ∧
      ∀ x, (f mb).2.reserved.Contains x ↔ mb.reserved.Contains x ∨ Covered reserved x)

theorem covered_singleton {s : Span} {x : ℕ} : Covered [s] x ↔ s.Has x := by
  rw [covered_cons]
  exact or_iff_left (not_covered_nil x)

theorem add_does (base size : ℕ) :
    Call.Does [⟨base, base + size⟩] [] fun mb => mb.add base size := by
  intro mb h
  obtain ⟨hinv, -, hok, -⟩ := MemblockType.addRange_spec h.1 base size .none
  refine ⟨⟨hinv, h.2⟩, fun hres => ⟨fun x => ?_, fun x => ?_⟩⟩
  · rw [covered_singleton]
    exact hok hres x
  · exact (or_iff_left (not_covered_nil x)).symm

theorem reserve_does (base size : ℕ) :
    Call.Does [] [⟨base, base + size⟩] fun mb => mb.reserve base size := by
  intro mb h
  obtain ⟨hinv, -, hok, -⟩ := MemblockType.addRange_spec h.2 base size .none
  refine ⟨⟨h.1, hinv⟩, fun hres => ⟨fun x => ?_, fun x => ?_⟩⟩
  · exact (or_iff_left (not_covered_nil x)).symm
  · rw [covered_singleton]
    exact hok hres x

namespace Call

variable {f g : Call} {a1 a2 r1 r2 : List Span}

theorem done_does : Does [] [] done := fun _ h => ⟨h, fun _ =>
  ⟨fun x => (or_iff_left (not_covered_nil x)).symm,
    fun x => (or_iff_left (not_covered_nil x)).symm⟩⟩

theorem Does.andThen (hf : Does a1 r1 f) (hg : Does a2 r2 g) :
    Does (a1 ++ a2) (r1 ++ r2) (f.andThen g) := by
  intro mb h
  obtain ⟨hinv, hok⟩ := hf mb h
  unfold Call.andThen
  generalize f mb = res at hinv hok
  obtain ⟨_ | _, mb'⟩ := res
  · exact ⟨hinv, nofun⟩
  obtain ⟨hmem, hres⟩ := hok rfl
  obtain ⟨hinv', hok'⟩ := hg mb' hinv
  refine ⟨hinv', fun h' => ⟨fun x => ?_, fun x => ?_⟩⟩
  · rw [(hok' h').1, hmem, covered_append, or_assoc]
  · rw [(hok' h').2, hres, covered_append, or_assoc]

theorem Does.forEach {α : Type} {f : α → Call} {added reserved : α → List Span}
    (hf : ∀ a, Does (added a) (reserved a) (f a)) (l : List α) :
    Does (l.flatMap added) (l.flatMap reserved) (forEach f l) := by
  induction l with
  | nil => exact done_does
  | cons a l ih => exact (hf a).andThen ih

end Call

end Memblock

/-- The tables `reserve_bootstrap_table_level` comes to. -/
def BootTables.visited (tables : BootTables) : ℕ → ℕ → List ℕ
  | 0, table => [table]
  | level + 1, table =>
    table :: if level = 0 then [] else
      (tables.children table).flatMap fun e => tables.visited level e.physAddr

def BootTables.all (tables : BootTables) : List ℕ :=
  if tables.root = 0 then [] else tables.visited (max 4 (min tables.levels 5)) tables.root

/-- The addresses of a page at an address. -/
def pageSpan (addr : ℕ) : Span := ⟨addr, addr + pageSize⟩

theorem reserveBootstrapTableLevel_does (tables : BootTables) (level table : ℕ) :
    Call.Does [] ((tables.visited level table).map pageSpan)
      (reserveBootstrapTableLevel tables level table) := by
  induction level generalizing table with
  | zero => exact reserve_does table pageSize
  | succ level ih =>
    refine (reserve_does table pageSize).andThen ?_
    split
    · exact Call.done_does
    · have hall := Call.Does.forEach (fun e : BootEntry => ih e.physAddr) (tables.children table)
      rwa [flatMap_eq_nil_iff.2 fun _ _ => rfl, ← map_flatMap] at hall

theorem reserveBootstrapPageTables_does (tables : BootTables) :
    Call.Does [] (tables.all.map pageSpan) (reserveBootstrapPageTables tables) := by
  unfold reserveBootstrapPageTables BootTables.all
  split
  · exact Call.done_does
  · exact reserveBootstrapTableLevel_does tables _ _

/-- The addresses of a part of the memory map. -/
def MemoryRegionInfo.span (r : MemoryRegionInfo) : Span := ⟨r.physStart, r.physStart + r.size⟩

/-- The memory the firmware says is usable. -/
def usable (regions : List MemoryRegionInfo) : List Span :=
  (regions.filter (·.isUsable)).map (·.span)

/-- What `init_memblock` reserves: the first megabyte, the kernel and its page
tables. -/
def bootReserved (tables : BootTables) (kernelStart kernelEnd : ℕ) : List Span :=
  ⟨0, 0x100000⟩ :: ⟨kernelStart, kernelStart + u64Sub kernelEnd kernelStart⟩ ::
    tables.all.map pageSpan

theorem memblockCalls_does (tables : BootTables) (regions : List MemoryRegionInfo)
    (kernelStart kernelEnd : ℕ) :
    Call.Does (usable regions) (bootReserved tables kernelStart kernelEnd)
      (memblockCalls tables regions kernelStart kernelEnd) := by
  have hregions := Call.Does.forEach (fun r : MemoryRegionInfo => add_does r.physStart r.size)
    (regions.filter (·.isUsable))
  have hall := hregions.andThen <| (reserve_does 0 0x100000).andThen <|
    (reserve_does kernelStart (u64Sub kernelEnd kernelStart)).andThen
      (reserveBootstrapPageTables_does tables)
  rw [flatMap_eq_nil_iff.2 fun _ _ => rfl] at hall
  have heq : (regions.filter (·.isUsable)).flatMap
      (fun r => [(⟨r.physStart, r.physStart + r.size⟩ : Span)]) ++ ([] ++ ([] ++ []))
        = usable regions := by
    rw [append_nil, append_nil, append_nil, usable, map_eq_flatMap]
    rfl
  rwa [heq] at hall

variable {mb : Memblock} {pfn : ℕ}

/-- An allocation of so many bytes, which fails with a null address. -/
def Allocated (mb : Memblock) (size : ℕ) (res : ℕ × Memblock) : Prop :=
  res.2.Inv ∧ res.2.memory = mb.memory ∧ (res.1 ≠ 0 →
    ∀ x, res.2.reserved.Contains x ↔ mb.reserved.Contains x ∨ Span.Has ⟨res.1, res.1 + size⟩ x)

theorem findInRange_spec {find : Memblock → ℕ → ℕ → Option ℕ} {size start stop : ℕ}
    (l : List MemblockRegion) (h : mb.Inv) :
    Allocated mb size (findInRange find size start stop l mb) := by
  induction l generalizing mb with
  | nil => exact ⟨h, rfl, fun hne => absurd rfl hne⟩
  | cons m ms ih =>
    rw [findInRange]
    split
    · exact ih h
    split
    · exact ih h
    cases find mb (max m.base start) (min m.stop stop) with
    | none => exact ih h
    | some addr =>
      obtain ⟨hinv, -, hok, hfail⟩ := MemblockType.addRange_spec h.2 addr size .none
      simp only [reserve]
      generalize mb.reserved.addRange addr size .none = res at hinv hok hfail
      obtain ⟨_ | _, t⟩ := res
      · -- the reservation has failed and changed nothing
        obtain rfl : t = mb.reserved := hfail nofun
        exact ih h
      · exact ⟨⟨h.1, hinv⟩, rfl, fun _ => hok rfl⟩

theorem alloc_spec (h : mb.Inv) (size align : ℕ) : Allocated mb size (mb.alloc size align) := by
  unfold alloc allocRange
  split
  · exact ⟨h, rfl, fun hne => absurd rfl hne⟩
  simp only
  split
  · exact findInRange_spec _ h
  · exact findInRange_spec _ h

theorem reserveOthers_spec {s : BootState} (h : s.memblock.Inv) (ranges : List (ℕ × ℕ)) :
    (reserveOthers s ranges).memblock.Inv ∧
      (reserveOthers s ranges).memblock.memory = s.memblock.memory ∧
      ∀ x, s.memblock.reserved.Contains x →
        (reserveOthers s ranges).memblock.reserved.Contains x := by
  unfold reserveOthers
  generalize s.memblock = mb at h
  simp only
  induction ranges generalizing mb with
  | nil => exact ⟨h, rfl, fun _ hx => hx⟩
  | cons r ranges ih =>
    obtain ⟨hinv, -, hok, hfail⟩ := MemblockType.addRange_spec h.2 r.1 r.2 .none
    obtain ⟨hinv', hmem, hres⟩ := ih (mb.reserve r.1 r.2).2 ⟨h.1, hinv⟩
    refine ⟨hinv', hmem, fun x hx => hres x ?_⟩
    by_cases hres : (mb.reserve r.1 r.2).1 = .ok ()
    · exact (hok hres x).2 (.inl hx)
    · have hsame : (mb.reserve r.1 r.2).2.reserved = mb.reserved := hfail hres
      rwa [hsame]

/-! ### Frames -/

/-- The addresses of a frame. -/
def frameSpan (pfn : ℕ) : Span := ⟨pfn * pageSize, (pfn + 1) * pageSize⟩

/-- The frame overlaps the set. -/
def Overlaps (S : ℕ → Prop) (pfn : ℕ) : Prop := ∃ x, (frameSpan pfn).Has x ∧ S x

/-- The frame lies in the set. -/
def Inside (S : ℕ → Prop) (pfn : ℕ) : Prop := ∀ x, (frameSpan pfn).Has x → S x

theorem pfnOverlapsReserved_iff (h : mb.Inv) (pfn : ℕ) :
    pfnOverlapsReserved mb pfn = true ↔ Overlaps mb.reserved.Contains pfn := by
  have hmul : pfn * pageSize = pfn * 4096 := rfl
  simp only [pfnOverlapsReserved, any_eq_true, decide_eq_true_eq, Overlaps, frameSpan,
    MemblockType.Contains, Covered, spans, Span.Has]
  constructor
  · rintro ⟨r, hr, hpos, hlow, hhigh⟩
    have hfits := h.2.valid.2 r hr
    simp only [satMul, satAdd, u64Max, pageSize] at hlow hhigh ⊢
    refine ⟨max (pfn * 4096) r.base, by omega, r.span, mem_map_of_mem hr, ?_⟩
    simp only [MemblockRegion.span]
    omega
  · rintro ⟨x, hx, s, hs, hxs⟩
    obtain ⟨r, hr, rfl⟩ := mem_map.1 hs
    have hfits := h.2.valid.2 r hr
    simp only [MemblockRegion.span, pageSize] at hxs hx
    refine ⟨r, hr, by omega, ?_⟩
    simp only [satMul, satAdd, u64Max, pageSize]
    omega

/-- The frames of the free regions, as they are rounded, that overlap no
reservation are those whose bytes are all free. -/
theorem exists_freeSpan_iff (h : mb.Inv) (haligned : ∀ x y, x / pageSize = y / pageSize →
    (mb.memory.Contains x ↔ mb.memory.Contains y)) (pfn : ℕ) :
    (∃ s ∈ mb.freeSpans, s.start / pageSize ≤ pfn ∧ pfn < s.stop / pageSize) ∧
        ¬ Overlaps mb.reserved.Contains pfn ↔
      Inside mb.memory.Contains pfn ∧ ¬ Overlaps mb.reserved.Contains pfn := by
  obtain ⟨hsep, hcov⟩ := h.freeSpans
  refine and_congr_left fun hclear => ⟨?_, fun hin => ?_⟩
  · rintro ⟨s, hs, hlow, hhigh⟩ x hx
    have hcomp := hsep.isComponent hs
    simp only [pageSize] at hlow hhigh
    -- the last byte of the frame is free, so all of it is memory
    have hlast : mb.memory.Contains ((pfn + 1) * pageSize - 1) := by
      refine ((hcov _).1 (hcomp.subset _ ⟨?_, ?_⟩)).1
      · simp only [pageSize]
        omega
      · simp only [pageSize]
        omega
    refine (haligned x _ ?_).2 hlast
    simp only [frameSpan, Span.Has, pageSize] at hx ⊢
    omega
  · have hfree : ∀ x, pfn * pageSize ≤ x → x < (pfn + 1) * pageSize → Covered mb.freeSpans x :=
      fun x h1 h2 => (hcov x).2 ⟨hin x ⟨h1, h2⟩, fun hres => hclear ⟨x, ⟨h1, h2⟩, hres⟩⟩
    obtain ⟨s, hs, hlow, hhigh⟩ := hsep.exists_span (by simp only [pageSize]; omega) hfree
    refine ⟨s, hs, ?_, ?_⟩
    · simp only [pageSize] at hlow ⊢
      omega
    · simp only [pageSize] at hhigh ⊢
      omega

/-! ### Adding frames -/

/-- The frames `G` have been added, all below the frontier; the other
descriptors are as they were set up. -/
structure Progress (maxPfn : ℕ) (reserved : ℕ → Bool) (frontier : ℕ) (G : ℕ → Prop)
    (s : PhysState) : Prop where
  frames : ∃ managed : List (ℕ × ℕ), System.Inv maxPfn ⟨s, [], managed⟩ ∧
    (∀ r ∈ managed, r.2 ≤ frontier) ∧ ∀ f, System.Managed ⟨s, [], managed⟩ f ↔ G f
  pages : ∀ f, ¬ G f → s.pages f = (PhysState.boot maxPfn reserved).pages f
  cached : s.pcpInitialized = false

/-- The frames of a zone. -/
def InZone (maxPfn : ℕ) (z : ZoneType) (lo hi : ℕ) : Prop :=
  (PhysState.bootZone maxPfn z).startPfn ≤ lo ∧ hi ≤ (PhysState.bootZone maxPfn z).endPfn

section Progress

variable {maxPfn frontier frontier' : ℕ} {reserved : ℕ → Bool} {G G' : ℕ → Prop} {s : PhysState}
  {z : ZoneType}

theorem Progress.mono (h : Progress maxPfn reserved frontier G s) (hle : frontier ≤ frontier') :
    Progress maxPfn reserved frontier' G s := by
  obtain ⟨managed, hinv, hbelow, hG⟩ := h.frames
  exact ⟨⟨managed, hinv, fun r hr => (hbelow r hr).trans hle, hG⟩, h.pages, h.cached⟩

theorem Progress.congr (h : Progress maxPfn reserved frontier G s) (hG : ∀ f, G f ↔ G' f) :
    Progress maxPfn reserved frontier G' s := by
  rwa [← show G = G' from funext fun f => propext (hG f)]

theorem progress_boot (maxPfn : ℕ) (reserved : ℕ → Bool) :
    Progress maxPfn reserved 0 (fun _ => False) (.boot maxPfn reserved) :=
  ⟨⟨[], System.inv_boot maxPfn reserved, nofun, fun _ => ⟨nofun, nofun⟩⟩, fun _ _ => rfl, rfl⟩

variable {hi lo : ℕ} {runStart : Option ℕ}

section

variable (h : Progress maxPfn reserved frontier G s)

include h

theorem Progress.initZoneBuddy (hlo : frontier ≤ lo) (hle : lo ≤ hi) (hz : InZone maxPfn z lo hi) :
    Progress maxPfn reserved hi (fun f => G f ∨ (lo ≤ f ∧ f < hi)) (s.initZoneBuddy z lo hi) := by
  obtain ⟨managed, hinv, hbelow, hG⟩ := h.frames
  have hlayout := hinv.books.layout z
  have hallowed : System.Allowed ⟨s, [], managed⟩ (.initZoneBuddy z lo hi) := by
    refine ⟨?_, fun r hr => .inr ((hbelow r hr).trans hlo)⟩
    rw [Zone.endPfn, hlayout.start, hlayout.spanned]
    exact hz
  refine ⟨⟨(lo, hi) :: managed, hinv.initZoneBuddy hallowed, ?_, fun f => ?_⟩, fun f hf => ?_, ?_⟩
  · exact forall_mem_cons.2 ⟨le_rfl, fun r hr => (hbelow r hr).trans (hlo.trans hle)⟩
  · rw [← hG]
    simp only [System.Managed, mem_cons, or_and_right, exists_or, exists_eq_left]
    exact or_comm
  · rw [not_or] at hf
    exact ((initLoop_frame _ lo s).2.1 f hf.2).trans (h.pages f hf.1)
  · exact (initLoop_frame _ lo s).1.trans h.cached

theorem Progress.flush (hlo : frontier ≤ runStart.getD pfn) (hle : runStart.getD pfn ≤ pfn)
    (hz : InZone maxPfn z (runStart.getD pfn) pfn) :
    Progress maxPfn reserved pfn (fun f => G f ∨ (runStart.getD pfn ≤ f ∧ f < pfn))
      (PhysState.flush z pfn runStart s) := by
  have hnone : ¬ runStart.getD pfn < pfn →
      Progress maxPfn reserved pfn (fun f => G f ∨ (runStart.getD pfn ≤ f ∧ f < pfn)) s := by
    intro hempty
    refine (h.mono (hlo.trans hle)).congr fun f => (or_iff_left ?_).symm
    omega
  cases runStart with
  | none => exact hnone (lt_irrefl pfn)
  | some start =>
    rw [PhysState.flush]
    split
    · exact h.initZoneBuddy hlo hle hz
    · exact hnone ‹_›

/-- The frames that are not reserved are added, from the start of the run on. -/
theorem Progress.filterLoop (left : ℕ) (hlo : frontier ≤ runStart.getD pfn)
    (hle : runStart.getD pfn ≤ pfn) (hz : InZone maxPfn z (runStart.getD pfn) (pfn + left))
    (hrun : ∀ f, runStart.getD pfn ≤ f → f < pfn → reserved f = false) :
    Progress maxPfn reserved (pfn + left)
      (fun f => G f ∨ ((runStart.getD pfn ≤ f ∧ f < pfn + left) ∧ reserved f = false))
      (PhysState.filterLoop reserved z left pfn runStart s) := by
  induction left generalizing pfn runStart frontier G s with
  | zero =>
    refine (h.flush hlo hle hz).congr fun f => or_congr_right ?_
    exact ⟨fun hf => ⟨hf, hrun f hf.1 hf.2⟩, fun hf => hf.1⟩
  | succ left ih =>
    rw [PhysState.filterLoop]
    by_cases hres : reserved pfn = true
    · -- the run ends before this frame
      rw [if_pos hres]
      have hflush := h.flush hlo hle ⟨hz.1, (Nat.le_add_right _ _).trans hz.2⟩
      have hz' : InZone maxPfn z ((none : Option ℕ).getD (pfn + 1)) (pfn + 1 + left) :=
        ⟨hz.1.trans (hle.trans (Nat.le_succ pfn)), by rw [Nat.succ_add_eq_add_succ]; exact hz.2⟩
      have hnext := ih (hflush.mono (Nat.le_succ pfn)) le_rfl le_rfl hz'
        fun f h1 h2 => absurd h1 (Nat.not_le.2 h2)
      rw [Nat.succ_add_eq_add_succ] at hnext
      refine hnext.congr fun f => ?_
      rw [or_assoc]
      refine or_congr_right ?_
      simp only [Option.getD_none]
      constructor
      · rintro (hf | ⟨hf, hfree⟩)
        · exact ⟨by omega, hrun f hf.1 hf.2⟩
        · exact ⟨by omega, hfree⟩
      · rintro ⟨hf, hfree⟩
        have hne : f ≠ pfn := by
          rintro rfl
          rw [hres] at hfree
          cases hfree
        by_cases hlt : f < pfn
        · exact .inl ⟨hf.1, hlt⟩
        · exact .inr ⟨by omega, hfree⟩
    · -- the run goes on, or starts here
      rw [if_neg hres]
      have hstart : (runStart.or (some pfn)).getD (pfn + 1) = runStart.getD pfn := by
        cases runStart <;> rfl
      have hz' : InZone maxPfn z ((runStart.or (some pfn)).getD (pfn + 1)) (pfn + 1 + left) := by
        rw [hstart, Nat.succ_add_eq_add_succ]
        exact hz
      have hnext := ih h (by rwa [hstart]) (by rw [hstart]; omega) hz' fun f h1 h2 => by
        rw [hstart] at h1
        by_cases hf : f = pfn
        · subst hf
          simpa using hres
        · exact hrun f h1 (by omega)
      rwa [hstart, Nat.succ_add_eq_add_succ] at hnext

/-- The frames of a range of a zone that are not reserved are added. -/
theorem Progress.filtered (hlo : frontier ≤ lo)
    (hle : lo < hi) (hz : InZone maxPfn z lo hi) (hmax : hi ≤ maxPfn) :
    Progress maxPfn reserved hi (fun f => G f ∨ ((lo ≤ f ∧ f < hi) ∧ reserved f = false))
      (s.initZoneBuddyFiltered reserved z lo hi maxPfn) := by
  have hmin : min hi maxPfn = hi := min_eq_left hmax
  simp only [PhysState.initZoneBuddyFiltered, hmin]
  rw [if_neg (Nat.not_le.2 hle)]
  have hz' : InZone maxPfn z ((none : Option ℕ).getD lo) (lo + (hi - lo)) :=
    ⟨hz.1, by rw [Nat.add_sub_cancel' hle.le]; exact hz.2⟩
  have hlo' : frontier ≤ (none : Option ℕ).getD lo := hlo
  have hall := h.filterLoop (hi - lo) hlo' le_rfl hz' fun f h1 h2 => absurd h1 (Nat.not_le.2 h2)
  rwa [Nat.add_sub_cancel' hle.le] at hall

end

theorem inZone_of_boot {first last : ℕ}
    (hz : PhysState.bootZone maxPfn z =
      if first < last then .init first (last - first) else .uninit)
    (hlt : lo < hi) (hlo : first ≤ lo) (hhi : hi ≤ last) : InZone maxPfn z lo hi := by
  rw [InZone, hz, if_pos (by omega)]
  simp only [Zone.init, Zone.endPfn]
  omega

/-- The part of a region that lies in a zone, or nothing. -/
theorem Progress.part (h : Progress maxPfn reserved frontier G s) (c : Prop) [Decidable c]
    (z : ZoneType) (lo hi : ℕ) (hc : lo < hi → c) (hlo : frontier ≤ lo)
    (hz : lo < hi → InZone maxPfn z lo hi) (hmax : hi ≤ maxPfn) :
    Progress maxPfn reserved (max frontier hi)
      (fun f => G f ∨ ((lo ≤ f ∧ f < hi) ∧ reserved f = false))
      (if c then
        if hi > lo then s.initZoneBuddyFiltered reserved z lo hi maxPfn else s
      else s) := by
  by_cases hlt : lo < hi
  · rw [if_pos (hc hlt), if_pos hlt]
    exact (h.filtered hlo hlt (hz hlt) hmax).mono (le_max_right _ _)
  · rw [if_neg hlt, ite_self]
    refine (h.mono (le_max_left _ _)).congr fun f => (or_iff_left ?_).symm
    omega

theorem Progress.addFreeRegion (h : Progress maxPfn reserved frontier G s) {base size : ℕ}
    (hfits : base + size < 2 ^ 64) (hlo : frontier ≤ base / pageSize) :
    Progress maxPfn reserved ((base + size) / pageSize)
      (fun f => G f ∨ ((base / pageSize ≤ f ∧ f < (base + size) / pageSize) ∧ f < maxPfn ∧
        reserved f = false))
      (s.addFreeRegion reserved maxPfn base size) := by
  have hstop : u64Add base size = base + size := Nat.mod_eq_of_lt hfits
  have hle : base / pageSize ≤ (base + size) / pageSize :=
    Nat.div_le_div_right (Nat.le_add_right _ _)
  have hlimits : zoneDmaLimit / pageSize ≤ zoneDma32Limit / pageSize := by decide
  simp only [PhysState.addFreeRegion, hstop]
  generalize base / pageSize = startPfn at *
  generalize (base + size) / pageSize = endPfn at *
  generalize hdma : min (zoneDmaLimit / pageSize) maxPfn = dmaEnd
  generalize hdma32 : min (zoneDma32Limit / pageSize) maxPfn = dma32End
  have h1 := h.part (startPfn < dmaEnd) .dma startPfn (min endPfn dmaEnd) (by omega) hlo
    (fun hlt => inZone_of_boot rfl hlt (Nat.zero_le _) (by omega)) (by omega)
  have h2 := h1.part (startPfn < dma32End ∧ endPfn > dmaEnd) .dma32 (max startPfn dmaEnd)
    (min endPfn dma32End) (by omega) (by omega)
    (fun hlt => inZone_of_boot rfl hlt (by omega) (by omega)) (by omega)
  have h3 := h2.part (endPfn > dma32End) .normal (max startPfn dma32End) (min endPfn maxPfn)
    (by omega) (by omega)
    (fun hlt => inZone_of_boot rfl hlt (by omega) (by omega)) (by omega)
  refine (h3.mono (by omega)).congr fun f => ?_
  rw [or_assoc, or_assoc]
  refine or_congr_right ?_
  rw [← or_and_right, ← or_and_right, ← and_assoc]
  refine and_congr_left fun _ => ?_
  omega

theorem Progress.foldl {l : List Span} (h : Progress maxPfn reserved frontier G s)
    (hl : Separated l) (hfits : ∀ a ∈ l, a.stop < 2 ^ 64)
    (hlo : ∀ a ∈ l, frontier ≤ a.start / pageSize) :
    ∃ frontier', Progress maxPfn reserved frontier'
      (fun f => G f ∨ ((∃ a ∈ l, a.start / pageSize ≤ f ∧ f < a.stop / pageSize) ∧ f < maxPfn ∧
        reserved f = false))
      (l.foldl (report (PhysState.addFreeRegion reserved maxPfn)) s) := by
  induction l generalizing frontier G s with
  | nil => exact ⟨frontier, h.congr fun f => (or_iff_left fun hf => nomatch hf.1).symm⟩
  | cons a l ih =>
    obtain ⟨hpos, hgap, hl⟩ := separated_cons.1 hl
    have hsum : a.start + (a.stop - a.start) = a.stop := by omega
    have hend : a.start + (a.stop - a.start) < 2 ^ 64 := by
      rw [hsum]
      exact hfits a mem_cons_self
    have hstep := h.addFreeRegion hend (hlo a mem_cons_self)
    rw [hsum] at hstep
    obtain ⟨frontier', hrest⟩ := ih hstep hl (fun b hb => hfits b (mem_cons_of_mem _ hb))
      fun b hb => Nat.div_le_div_right (hgap b hb).le
    refine ⟨frontier', hrest.congr fun f => ?_⟩
    rw [or_assoc, ← or_and_right]
    simp only [mem_cons, or_and_right, exists_or, exists_eq_left]

end Progress

/-! ### The hand-off -/

/-- What the buddy system looks like when it has got the memory. -/
structure HandedOver (mb : Memblock) (maxPfn : ℕ) (s : PhysState) : Prop where
  /-- Frames of free memory are in one free block. -/
  free : ∀ f < maxPfn, Inside mb.memory.Contains f → ¬ Overlaps mb.reserved.Contains f →
    s.held f = 1
  /-- All others are in none. -/
  other : ∀ f < maxPfn, ¬ (Inside mb.memory.Contains f ∧ ¬ Overlaps mb.reserved.Contains f) →
    s.held f = 0
  /-- Blocks are on free lists only, not in the caches of CPUs. -/
  cached : ∀ c z, (s.pcps c z).list = []
  /-- Blocks are aligned and lie in the zone on whose list they are. -/
  block : ∀ z o, ∀ p ∈ ((s.zones z).freeArea o).freeList,
    o < maxOrder ∧ 2 ^ o ∣ p ∧ (s.zones z).startPfn ≤ p ∧ p + 2 ^ o ≤ (s.zones z).endPfn ∧
      ∀ f, p ≤ f → f < p + 2 ^ o → ZoneType.fromPhysAddr (f * pageSize) = z
  reserved : ∀ f < maxPfn, Overlaps mb.reserved.Contains f →
    (s.pages f).reserved = true ∧ (s.pages f).owner = .reserved

theorem covered_usable_congr {regions : List MemoryRegionInfo}
    (haligned : ∀ r ∈ regions, pageSize ∣ r.physStart) {x y : ℕ} (hxy : x / pageSize = y / pageSize)
    (hx : Covered (usable regions) x) : Covered (usable regions) y := by
  obtain ⟨s, hs, hx⟩ := hx
  obtain ⟨r, hr, rfl⟩ := mem_map.1 hs
  refine ⟨r.span, hs, ?_⟩
  obtain ⟨k, hk⟩ := haligned r (mem_filter.1 hr).1
  simp only [MemoryRegionInfo.span, MemoryRegionInfo.size, Span.Has, pageSize] at hx hxy hk ⊢
  omega

theorem Progress.handedOver {maxPfn frontier : ℕ} {s : PhysState} (hmb : mb.Inv)
    (haligned : ∀ x y, x / pageSize = y / pageSize → (mb.memory.Contains x ↔ mb.memory.Contains y))
    (h : Progress maxPfn (pfnOverlapsReserved mb) frontier (fun f => False ∨
      ((∃ a ∈ mb.freeSpans, a.start / pageSize ≤ f ∧ f < a.stop / pageSize) ∧ f < maxPfn ∧
        pfnOverlapsReserved mb f = false)) s) :
    HandedOver mb maxPfn s := by
  have hG : ∀ f < maxPfn, (False ∨ ((∃ a ∈ mb.freeSpans, a.start / pageSize ≤ f ∧
      f < a.stop / pageSize) ∧ f < maxPfn ∧ pfnOverlapsReserved mb f = false)) ↔
        Inside mb.memory.Contains f ∧ ¬ Overlaps mb.reserved.Contains f := by
    intro f hf
    rw [← exists_freeSpan_iff hmb haligned, ← pfnOverlapsReserved_iff hmb, false_or,
      Bool.not_eq_true]
    exact and_congr_right fun _ => and_iff_right hf
  obtain ⟨managed, hinv, -, hmanaged⟩ := h.frames
  have hconserved := hinv.conserved
  have howners : ∀ f, s.held f = if System.Managed ⟨s, [], managed⟩ f then 1 else 0 := by
    intro f
    have := hconserved.owners f
    rwa [coverAll_nil, Nat.add_zero] at this
  refine ⟨fun f hf hin hclear => ?_, fun f hf hnot => ?_, fun c z => ?_, fun z o p hp => ?_,
    fun f hf hover => ?_⟩
  · rw [howners, if_pos ((hmanaged f).2 ((hG f hf).2 ⟨hin, hclear⟩))]
  · rw [howners, if_neg fun hm => hnot ((hG f hf).1 ((hmanaged f).1 hm))]
  · exact hinv.books.cached c z h.cached
  · obtain ⟨h1, h2, h3, h4⟩ := hconserved.freeBlock z o p hp
    have hb : HasBlock maxPfn z p o := hinv.block (.area z o) p hp
    exact ⟨h1, h2, h3, h4, fun f hlow hhigh => (hb.contains hlow hhigh).2.1⟩
  · have hres := (pfnOverlapsReserved_iff hmb f).2 hover
    rw [h.pages f fun hg => ((hG f hf).1 hg).2 hover]
    simp only [PhysState.boot, hres, if_true]
    exact ⟨rfl, rfl⟩

/-- What `memblock_alloc` gives `init_buddy_system` for the page array. -/
def pageArray (s : BootState) (maxPfn : ℕ) : Span :=
  let size := maxPfn * pageStructSize % 2 ^ 64
  ⟨(s.memblock.alloc size 64).1, (s.memblock.alloc size 64).1 + size⟩

/-- Whatever the memory map, the kernel, its page tables, the other reservations
and the size of the machine are: if boot gets that far, exactly the frames of
free memory are in free blocks, each in one; blocks are aligned and on the list
of their zone; and reserved frames are marked. -/
theorem boot_hand_off {s0 s1 s2 : BootState} {tables : BootTables}
    {regions : List MemoryRegionInfo} {kernelStart kernelEnd : ℕ} {others : List (ℕ × ℕ)}
    {maxPfn : ℕ} (haligned : ∀ r ∈ regions, pageSize ∣ r.physStart)
    (hmemblock : initMemblock s0 tables regions kernelStart kernelEnd = (.ok (), s1))
    (hbuddy : initBuddySystem (reserveOthers s1 others) maxPfn = (.ok (), s2)) :
    HandedOver s2.memblock maxPfn s2.phys ∧
      (∀ x, s2.memblock.memory.Contains x ↔ Covered (usable regions) x) ∧
      (∀ x, Covered (bootReserved tables kernelStart kernelEnd) x →
        s2.memblock.reserved.Contains x) ∧
      ∀ x, (pageArray (reserveOthers s1 others) maxPfn).Has x →
        s2.memblock.reserved.Contains x := by
  -- the early allocator
  obtain ⟨hinv1, hdoes⟩ := memblockCalls_does tables regions kernelStart kernelEnd .init
    ⟨MemblockType.inv_new _ _, MemblockType.inv_new _ _⟩
  have hs1 : s1.memblock = (memblockCalls tables regions kernelStart kernelEnd .init).2 ∧
      (memblockCalls tables regions kernelStart kernelEnd .init).1 = .ok () := by
    unfold initMemblock at hmemblock
    split at hmemblock
    · cases hmemblock
    generalize memblockCalls tables regions kernelStart kernelEnd .init = res at hmemblock
    obtain ⟨_ | _, mb⟩ := res
    · cases hmemblock
    · cases hmemblock
      exact ⟨rfl, rfl⟩
  obtain ⟨hmem1, hres1⟩ := hdoes hs1.2
  rw [← hs1.1] at hinv1 hmem1 hres1
  -- the other reservations, and the descriptors
  obtain ⟨hinv2, hmem2, hres2⟩ := reserveOthers_spec hinv1 others
  obtain ⟨hinv, hmem, hres⟩ := alloc_spec hinv2 (maxPfn * pageStructSize % 2 ^ 64) 64
  unfold initBuddySystem at hbuddy
  split at hbuddy
  · cases hbuddy
  rw [pageArray]
  generalize (reserveOthers s1 others).memblock.alloc (maxPfn * pageStructSize % 2 ^ 64) 64 = res
    at hbuddy hinv hmem hres ⊢
  obtain ⟨addr, mb⟩ := res
  simp only at hbuddy hinv hmem hres
  split at hbuddy
  · cases hbuddy
  rename_i haddr
  cases hbuddy
  have hmemory : ∀ x, mb.memory.Contains x ↔ Covered (usable regions) x := by
    intro x
    rw [hmem, hmem2, hmem1]
    exact or_iff_right (not_covered_nil x)
  refine ⟨?_, hmemory, fun x hx => ?_, fun x hx => ?_⟩
  · obtain ⟨hsep, hcov⟩ := hinv.freeSpans
    have hfits : ∀ a ∈ mb.freeSpans, a.stop < 2 ^ 64 := by
      intro a ha
      have hcomp := hsep.isComponent ha
      have hpos := hcomp.nonempty
      obtain ⟨s, hs, hx⟩ := ((hcov _).1 (hcomp.subset (a.stop - 1) ⟨by omega, by omega⟩)).1
      obtain ⟨r, hr, rfl⟩ := mem_map.1 hs
      have := hinv.1.valid.2 r hr
      have := hx.2
      simp only [MemblockRegion.span] at this
      omega
    obtain ⟨frontier, hprogress⟩ := (progress_boot maxPfn (pfnOverlapsReserved mb)).foldl hsep hfits
      fun _ _ => Nat.zero_le _
    rw [← hinv.forEachFreeRegion_eq] at hprogress
    refine hprogress.handedOver hinv fun x y hxy => ?_
    rw [hmemory, hmemory]
    exact ⟨covered_usable_congr haligned hxy, covered_usable_congr haligned hxy.symm⟩
  · exact (hres haddr x).2 (.inl (hres2 x ((hres1 x).2 (.inr hx))))
  · exact (hres haddr x).2 (.inr hx)

/-- Nothing has been done yet. -/
def coldStart : BootState := ⟨.none, false, .init, .boot 0 fun _ => false⟩

/-- Two megabytes of memory with a gap, a kernel that does not end with a page,
and two tables. -/
def sampleRegions : List MemoryRegionInfo :=
  [⟨0, 272, true⟩, ⟨0x110000, 8, false⟩, ⟨0x118000, 232, true⟩]

def sampleTables : BootTables :=
  ⟨0x120000, 4, fun t => if t = 0x120000 then [⟨true, false, 0x122000⟩, ⟨false, false, 0⟩] else []⟩

theorem boot_hand_off_sample :
    ∃ s1 s2, (∀ r ∈ sampleRegions, pageSize ∣ r.physStart) ∧
      initMemblock coldStart sampleTables sampleRegions 0x100000 0x104800 = (.ok (), s1) ∧
      initBuddySystem (reserveOthers s1 [(0x140000, 0x40)]) 512 = (.ok (), s2) ∧
      HandedOver s2.memblock 512 s2.phys ∧
      ((s2.phys.zones .dma).freeArea 3).freeList = [496, 328, 296, 280, 264] := by
  have haligned : ∀ r ∈ sampleRegions, pageSize ∣ r.physStart := by decide
  have hlist : ((((initBuddySystem (reserveOthers (initMemblock coldStart sampleTables sampleRegions
      0x100000 0x104800).2 [(0x140000, 0x40)]) 512).2.phys.zones .dma).freeArea 3).freeList)
        = [496, 328, 296, 280, 264] := by decide +kernel
  have hok1 : (initMemblock coldStart sampleTables sampleRegions 0x100000 0x104800).1.isOk
      = true := by decide
  have hok2 : (initBuddySystem (reserveOthers (initMemblock coldStart sampleTables sampleRegions
      0x100000 0x104800).2 [(0x140000, 0x40)]) 512).1.isOk = true := by decide
  have hres : ∀ {σ : Type} (r : Except KernelError Unit × σ), r.1.isOk = true →
      r = (.ok (), r.2) := by
    rintro σ ⟨_ | _, s⟩ h
    · cases h
    · rfl
  refine ⟨_, _, haligned, hres _ hok1, hres _ hok2, ?_, hlist⟩
  exact (boot_hand_off haligned (hres _ hok1) (hres _ hok2)).1

end JanuaryOs.Phys

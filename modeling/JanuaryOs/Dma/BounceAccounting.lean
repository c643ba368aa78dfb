import JanuaryOs.Dma.Swiotlb
import JanuaryOs.Lib.Trace
import JanuaryOs.Phys.Spec

/-!
# The slots of the bounce buffer: the bitmap, the records of the mappings and the counter

A run is a sequence of calls of `map` and `unmap`, with writes of devices in
between. Next to the state of the code it keeps which bounce mappings are live:
from the call that made one to the call that is given its address. `unmap`
trusts its caller: an address at which no mapping starts gives back the slots
that follow it, whoever has them. `slots_accounted` says that the books are
right along all runs without such calls, and that the first such call makes them
wrong.
-/

namespace JanuaryOs.Dma

open Lib Phys Function Swiotlb List Bitmap

/-! ### Runs -/

/-- Who wrote a byte last: nobody since the machine started, a device, or a
copy. -/
inductive Origin
  | boot
  | device
  | copied
  deriving DecidableEq, Repr

/-- Bytes from `start` on have a new writer. -/
def mark (origin : ℕ → Origin) (start size : ℕ) (o : Origin) : ℕ → Origin := fun x =>
  if start ≤ x ∧ x < start + size then o else origin x

/-- The code's state and the memory, with what an observer knows. -/
structure Bounce where
  tlb : Swiotlb
  mem : ByteMem
  /-- The live bounce mappings: first slot and number of slots. -/
  live : List (ℕ × ℕ)
  origin : ℕ → Origin

inductive BounceOp
  | map (phys size : ℕ) (dir : DmaDirection)
  | unmap (addr size : ℕ) (dir : DmaDirection)
  | deviceWrite (addr : ℕ) (bytes : List UInt8)

def SlotsApart (m n : ℕ × ℕ) : Prop := m.1 + m.2 ≤ n.1 ∨ n.1 + n.2 ≤ m.1

instance : Std.Symm SlotsApart := ⟨fun _ _ h => h.symm⟩

namespace Bounce

/-- The state after `Swiotlb::new`. -/
def boot (buffer : BounceBuffer) (mem : ByteMem) : Bounce := ⟨.new buffer, mem, [], fun _ => .boot⟩

def addrOf (b : Bounce) (m : ℕ × ℕ) : ℕ := b.tlb.bufferPhys + m.1 * pageSize

def writeBytes (mem : ByteMem) (addr : ℕ) (bytes : List UInt8) : ByteMem := fun x =>
  if addr ≤ x ∧ x < addr + bytes.length then bytes.getD (x - addr) 0 else mem x

/-- The copy that an `unmap` makes: destination, source and size. -/
def backCopy (s : Swiotlb) (addr size : ℕ) (dir : DmaDirection) : Option (ℕ × ℕ × ℕ) :=
  let info := s.slotMeta (s.slotOf addr)
  if s.InBuffer addr ∧ s.slotOf addr < s.nrSlots ∧ info.valid ∧
      (info.dir.copiesBack || dir.copiesBack) then
    some (info.origPhys, addr, min info.size size)
  else none

def step (b : Bounce) : BounceOp → Bounce
  | .map phys size dir =>
    let (dma, tlb, mem) := b.tlb.map b.mem phys size dir
    if needsBounce phys size ∧ dma ≠ 0 then
      { tlb := tlb
        mem := mem
        live := (tlb.slotOf dma, slotsFor size) :: b.live
        origin := if dir.copiesIn then mark b.origin dma size .copied else b.origin }
    else { b with tlb := tlb, mem := mem }
  | .unmap addr size dir =>
    let (tlb, mem) := b.tlb.unmap b.mem addr size dir
    { tlb := tlb
      mem := mem
      live := b.live.filter fun m => b.addrOf m ≠ addr
      origin :=
        match backCopy b.tlb addr size dir with
        | some (dst, _, n) => mark b.origin dst n .copied
        | none => b.origin }
  | .deviceWrite addr bytes =>
    { b with
      mem := writeBytes b.mem addr bytes
      origin := mark b.origin addr bytes.length .device }

/-- What the books should say. -/
structure Accounted (b : Bounce) : Prop where
  /-- The counter is the number of bits that are set. -/
  counted : b.tlb.usedSlots = (b.tlb.slotBitmap.members maxSlots).card
  /-- No slot belongs to two mappings. -/
  disjoint : b.live.Pairwise SlotsApart
  /-- The slots of a mapping stay reserved. -/
  reserved : ∀ m ∈ b.live, ∀ i, m.1 ≤ i → i < m.1 + m.2 → b.tlb.isSlotUsed i
  /-- Nothing is refused for which there is room. -/
  complete : ∀ mem phys size dir, size < 2 ^ 64 → needsBounce phys size →
    (b.tlb.map mem phys size dir).1 = 0 →
    ¬ ∃ base, base + (size + pageSize - 1) / pageSize ≤ b.tlb.nrSlots ∧
      ∀ i < (size + pageSize - 1) / pageSize, b.tlb.isSlotUsed (base + i) = false

/-- The calls that do not give back what is not theirs: an `unmap` is given the
address of a live mapping or one outside the bounce buffer, or it finds no
mapping and is told to give back nothing. -/
def Proper (b : Bounce) : BounceOp → Prop
  | .unmap addr size _ =>
    b.tlb.InBuffer addr → (∃ m ∈ b.live, b.addrOf m = addr) ∨
      ((b.tlb.slotMeta (b.tlb.slotOf addr)).valid = false ∧ slotsFor size = 0)
  | _ => True

instance (b : Bounce) : (op : BounceOp) → Decidable (b.Proper op)
  | .unmap .. => inferInstanceAs (Decidable (_ → (∃ m ∈ b.live, _) ∨ (_ ∧ _)))
  | .map .. | .deviceWrite .. => inferInstanceAs (Decidable True)

/-! ### The buffer -/

/-- Memory for at most so many slots. -/
structure Fits (requested : ℕ) (found : ℕ × ℕ) : Prop where
  fits : found.1 + found.2 * pageSize < 2 ^ 64
  slots_le : found.2 ≤ requested

theorem fits_zero (requested : ℕ) : Fits requested (0, 0) := ⟨by simp, Nat.zero_le _⟩

variable {addr base count m size slot start : ℕ} {s : Swiotlb} {live : List (Pfn × ℕ)} {M : Pfn → ℕ}
  {b' : Bounce} {dir : DmaDirection}

theorem fits_of_allocates {requested o p : ℕ} {s : PhysState} (h : Allocates m live M o (some p, s))
    (hm : m * pageSize < 2 ^ 64) : Fits requested (p * pageSize, min (2 ^ o) requested) := by
  refine ⟨?_, Nat.min_le_right _ _⟩
  obtain ⟨z, hb⟩ := Holding.liveBlock h _ mem_cons_self
  have hpos : 0 < 2 ^ o := Nat.two_pow_pos o
  have hlast : p + 2 ^ o - 1 < m :=
    (hb.contains (show p ≤ p + 2 ^ o - 1 by omega) (show p + 2 ^ o - 1 < p + 2 ^ o by omega)).2.2
  have hend : (p + min (2 ^ o) requested) * pageSize ≤ m * pageSize :=
    Nat.mul_le_mul_right _ (by omega)
  rw [Nat.add_mul] at hend
  exact hend.trans_lt hm

theorem allocOrders_fits {requested order : ℕ} {s : PhysState} (h : Holding m s [] live M)
    (hm : m * pageSize < 2 ^ 64) : Fits requested (allocOrders requested order s).1 := by
  induction order generalizing s with
  | zero =>
    rw [allocOrders]
    have halloc := (allocPages_spec (o := 0) .trivial h .intro ⟨false, true, false⟩).1
    generalize s.allocPages 0 ⟨false, true, false⟩ = res at halloc
    obtain ⟨_ | p, s'⟩ := res
    · exact fits_zero _
    · exact fits_of_allocates halloc hm
  | succ order ih =>
    rw [allocOrders]
    have halloc := (allocPages_spec (o := order + 1) .trivial h .intro ⟨false, true, false⟩).1
    generalize s.allocPages (order + 1) ⟨false, true, false⟩ = res at halloc
    obtain ⟨_ | p, s'⟩ := res
    · exact ih halloc
    · exact fits_of_allocates halloc hm

theorem allocLowmemBuffer_fits {s : PhysState} (h : Holding m s [] live M)
    (hm : m * pageSize < 2 ^ 64) (requested : ℕ) :
    Fits requested (allocLowmemBuffer requested s).1 := by
  unfold allocLowmemBuffer
  split
  · exact fits_zero _
  · exact allocOrders_fits h hm

/-- What `Swiotlb::new` finds, in any sound state of the page allocator. -/
def lowmemBuffer {m : ℕ} {s : PhysState} {live : List (Pfn × ℕ)} {M : Pfn → ℕ}
    (h : Holding m s [] live M) (hm : m * pageSize < 2 ^ 64) (size : ℕ) : BounceBuffer where
  phys := (allocLowmemBuffer (requestedSlots size) s).1.1
  slots := (allocLowmemBuffer (requestedSlots size) s).1.2
  slots_le := (allocLowmemBuffer_fits h hm _).slots_le.trans (Nat.min_le_right _ _)
  fits := (allocLowmemBuffer_fits h hm _).fits

/-! ### Searching -/

theorem allFree_iff :
    s.allFree base count = true ↔ ∀ i < count, s.isSlotUsed (base + i) = false := by
  simp [allFree, all_eq_true]

theorem findContiguousSlots_some (h : s.findContiguousSlots start count = some base) :
    base + count ≤ s.nrSlots ∧ ∀ i < count, s.isSlotUsed (base + i) = false := by
  unfold findContiguousSlots at h
  split at h
  · cases h
  simp only at h
  split at h
  · cases h
  have hmem := mem_of_find?_eq_some h
  rw [mem_range'_1] at hmem
  have hfree : s.allFree base count = true := find?_some (p := (s.allFree · count)) h
  exact ⟨by omega, allFree_iff.1 hfree⟩

theorem findContiguousSlots_none (hcount : 0 < count) (h : s.findContiguousSlots start count = none)
    (hstart : start ≤ base) (hbase : base + count ≤ s.nrSlots) :
    ¬ ∀ i < count, s.isSlotUsed (base + i) = false := by
  unfold findContiguousSlots at h
  rw [if_neg (by omega)] at h
  simp only at h
  rw [if_neg (by omega)] at h
  intro hfree
  exact find?_eq_none.1 h base (mem_range'_1.2 (by omega)) (allFree_iff.2 hfree)

theorem findRoom_none (hcount : 0 < count) (h : s.findRoom count = none)
    (hbase : base + count ≤ s.nrSlots) : ¬ ∀ i < count, s.isSlotUsed (base + i) = false := by
  simp only [findRoom, Option.or_eq_none_iff] at h
  split at h
  · exact findContiguousSlots_none hcount h.2 (Nat.zero_le _) hbase
  · exact findContiguousSlots_none hcount h.1 (by omega) hbase

theorem findRoom_some (h : s.findRoom count = some slot) :
    slot + count ≤ s.nrSlots ∧ ∀ i < count, s.isSlotUsed (slot + i) = false := by
  simp only [findRoom, Option.or_eq_some_iff] at h
  rcases h with h | ⟨-, h⟩
  · exact findContiguousSlots_some h
  · split at h
    · exact findContiguousSlots_some h
    · cases h

/-- The rounded size, without the wrap that a size near the end of the address
space has. -/
theorem slotsFor_eq (hsize : size < 2 ^ 64) :
    slotsFor size = (size + pageSize - 1) / pageSize ∨
      (slotsFor size = 0 ∧ 2 ^ 52 ≤ (size + pageSize - 1) / pageSize) := by
  simp only [slotsFor, u64Add, pageSize]
  omega

/-- `map` refuses a mapping only if there is no room for it. -/
theorem map_complete (s : Swiotlb) (hbuffer : s.bufferPhys ≠ 0 ∨ s.nrSlots = 0)
    (hslots : s.nrSlots ≤ maxSlots) {mem : ByteMem} {phys : ℕ} (hsize : size < 2 ^ 64)
    (hbounce : needsBounce phys size) (hnull : (s.map mem phys size dir).1 = 0) :
    ¬ ∃ base, base + (size + pageSize - 1) / pageSize ≤ s.nrSlots ∧
      ∀ i < (size + pageSize - 1) / pageSize, s.isSlotUsed (base + i) = false := by
  have hpos : 0 < (size + pageSize - 1) / pageSize := by
    have : size ≠ 0 := by
      rintro rfl
      simp [needsBounce] at hbounce
    simp only [pageSize]
    omega
  rintro ⟨base, hbase, hfree⟩
  have hneeded : slotsFor size = (size + pageSize - 1) / pageSize := by
    rcases slotsFor_eq hsize with h | ⟨-, hbig⟩
    · exact h
    · simp only [maxSlots] at hslots
      omega
  simp only [Swiotlb.map, hbounce, Bool.not_true, Bool.false_eq_true, if_false, hneeded] at hnull
  rw [if_neg (by omega), if_neg (by omega), allocSlots, if_neg (by omega)] at hnull
  cases hroom : s.findRoom ((size + pageSize - 1) / pageSize) with
  | none => exact findRoom_none hpos hroom hbase hfree
  | some slot =>
    simp only [hroom] at hnull
    omega

/-! ### The invariant -/

/-- What the books say between two calls. -/
structure Inv (b : Bounce) : Prop where
  slots_le : b.tlb.nrSlots ≤ maxSlots
  size : b.tlb.bufferSize = b.tlb.nrSlots * pageSize
  counted : b.tlb.usedSlots = (b.tlb.slotBitmap.members maxSlots).card
  disjoint : b.live.Pairwise SlotsApart
  /-- A live mapping has its record. -/
  recorded : ∀ m ∈ b.live, 0 < m.2 ∧ m.1 + m.2 ≤ b.tlb.nrSlots ∧
    (b.tlb.slotMeta m.1).valid = true ∧ (b.tlb.slotMeta m.1).slots = m.2
  /-- A record belongs to a live mapping. -/
  valid : ∀ slot, (b.tlb.slotMeta slot).valid = true → ∃ m ∈ b.live, m.1 = slot
  /-- A slot is used if a live mapping has it. -/
  used : ∀ i, b.tlb.isSlotUsed i = true ↔ ∃ m ∈ b.live, m.1 ≤ i ∧ i < m.1 + m.2

variable {b : Bounce} {op : BounceOp}

theorem inv_boot (buffer : BounceBuffer) (mem : ByteMem) : (boot buffer mem).Inv where
  slots_le := buffer.slots_le
  size := rfl
  counted := by simp [boot, Swiotlb.new]
  disjoint := .nil
  recorded := by simp [boot]
  valid := by simp [boot, Swiotlb.new, SlotMeta.empty]
  used := by simp [boot, Swiotlb.new, isSlotUsed]

theorem Inv.frame (h : b.Inv) (mem : ByteMem) (origin : ℕ → Origin) :
    Inv { b with mem := mem, origin := origin } :=
  ⟨h.slots_le, h.size, h.counted, h.disjoint, h.recorded, h.valid, h.used⟩

theorem Inv.accounted (h : b.Inv) (hbuffer : b.tlb.bufferPhys ≠ 0 ∨ b.tlb.nrSlots = 0) :
    b.Accounted where
  counted := h.counted
  disjoint := h.disjoint
  reserved m hm i h1 h2 := (h.used i).2 ⟨m, hm, h1, h2⟩
  complete _ _ _ _ hsize hbounce hnull := map_complete _ hbuffer h.slots_le hsize hbounce hnull

theorem card_members_le (bm : Bitmap) (n : ℕ) : (bm.members n).card ≤ n :=
  (Finset.card_filter_le _ _).trans (Finset.card_range n).le

theorem u64Add_eq {x y : ℕ} (h : x + y < 2 ^ 64) : u64Add x y = x + y := Nat.mod_eq_of_lt h

theorem u64Sub_eq {x y : ℕ} (hx : x < 2 ^ 64) (h : y ≤ x) : u64Sub x y = x - y := by
  unfold u64Sub
  omega

theorem Inv.take (h : b.Inv) {info : SlotMeta} (hcount : 0 < count)
    (hroom : slot + count ≤ b.tlb.nrSlots)
    (hfree : ∀ i < count, b.tlb.isSlotUsed (slot + i) = false)
    (hinfo : info.valid = true ∧ info.slots = count) (hslots : b'.tlb.nrSlots = b.tlb.nrSlots)
    (hsize : b'.tlb.bufferSize = b.tlb.bufferSize)
    (hbitmap : b'.tlb.slotBitmap = setRange slot true count b.tlb.slotBitmap)
    (hused : b'.tlb.usedSlots = u64Add b.tlb.usedSlots count)
    (hmeta : b'.tlb.slotMeta = update b.tlb.slotMeta slot info)
    (hlive : b'.live = (slot, count) :: b.live) : b'.Inv := by
  have hfree' : ∀ i, slot ≤ i → i < slot + count → b.tlb.slotBitmap.get i = false := by
    intro i h1 h2
    obtain ⟨k, rfl⟩ := Nat.exists_eq_add_of_le h1
    exact hfree k (by omega)
  have hcard := card_members_setRange_true (hroom.trans h.slots_le) hfree'
  have hle := card_members_le (setRange slot true count b.tlb.slotBitmap) maxSlots
  -- a live mapping has no free slot
  have hapart : ∀ m ∈ b.live, slot + count ≤ m.1 ∨ m.1 + m.2 ≤ slot := by
    intro m hm
    by_contra hover
    obtain ⟨hpos, -⟩ := h.recorded m hm
    have hin := (h.used (max slot m.1)).2 ⟨m, hm, by omega, by omega⟩
    cases hin.symm.trans (hfree' _ (by omega) (by omega))
  refine ⟨hslots ▸ h.slots_le, by rw [hsize, hslots, h.size], ?_, ?_, ?_, ?_, ?_⟩
  · rw [hused, hbitmap, hcard, h.counted, u64Add_eq]
    have hmax : maxSlots < 2 ^ 64 := by decide
    omega
  · rw [hlive]
    exact .cons hapart h.disjoint
  · intro m hm
    rw [hlive] at hm
    rw [hslots, hmeta]
    rcases mem_cons.1 hm with rfl | hm
    · rw [update_self]
      exact ⟨hcount, hroom, hinfo⟩
    have hne : m.1 ≠ slot := by
      have := hapart m hm
      have := (h.recorded m hm).1
      omega
    rw [update_of_ne hne]
    exact h.recorded m hm
  · intro i hi
    rw [hmeta] at hi
    rw [hlive]
    by_cases heq : i = slot
    · exact ⟨(slot, count), mem_cons_self, heq.symm⟩
    · rw [update_of_ne heq] at hi
      obtain ⟨m, hm, hstart⟩ := h.valid i hi
      exact ⟨m, mem_cons_of_mem _ hm, hstart⟩
  · intro i
    rw [hlive, isSlotUsed, hbitmap, get_setRange]
    split
    · rename_i hin
      exact iff_of_true rfl ⟨(slot, count), mem_cons_self, hin⟩
    rename_i hout
    rw [show b.tlb.slotBitmap.get i = b.tlb.isSlotUsed i from rfl, h.used]
    constructor
    · rintro ⟨m, hm, hin⟩
      exact ⟨m, mem_cons_of_mem _ hm, hin⟩
    · rintro ⟨m, hm, hin⟩
      rcases mem_cons.1 hm with rfl | hm
      · exact absurd hin hout
      · exact ⟨m, hm, hin⟩

theorem Inv.give (h : b.Inv) {m : ℕ × ℕ} (hm : m ∈ b.live) (hslots : b'.tlb.nrSlots = b.tlb.nrSlots)
    (hsize : b'.tlb.bufferSize = b.tlb.bufferSize)
    (hbitmap : b'.tlb.slotBitmap = setRange m.1 false m.2 b.tlb.slotBitmap)
    (hused : b'.tlb.usedSlots = u64Sub b.tlb.usedSlots m.2)
    (hmeta : b'.tlb.slotMeta = fun i =>
      if m.1 ≤ i ∧ i < m.1 + m.2 ∧ i < b.tlb.nrSlots then .empty else b.tlb.slotMeta i)
    (hlive : b'.live = b.live.filter fun n => n.1 ≠ m.1) : b'.Inv := by
  obtain ⟨hpos, hroom, -⟩ := h.recorded m hm
  have hmem : ∀ n, n ∈ b'.live ↔ n ∈ b.live ∧ n.1 ≠ m.1 := by
    intro n
    rw [hlive, mem_filter, decide_eq_true_eq]
  -- another mapping has none of these slots
  have hapart : ∀ n ∈ b.live, n.1 ≠ m.1 → m.1 + m.2 ≤ n.1 ∨ n.1 + n.2 ≤ m.1 := by
    intro n hn hne
    exact h.disjoint.forall hm hn fun heq => hne (congrArg Prod.fst heq.symm)
  have hcard := card_members_setRange_false b.tlb.slotBitmap m.1 m.2 maxSlots
  have hall : (b.tlb.slotBitmap.members maxSlots).filter (fun i => m.1 ≤ i ∧ i < m.1 + m.2)
      = Finset.Ico m.1 (m.1 + m.2) := by
    ext i
    rw [Finset.mem_filter, Finset.mem_Ico, mem_members, and_iff_right_iff_imp]
    intro hin
    exact ⟨(hin.2.trans_le hroom).trans_le h.slots_le, (h.used i).2 ⟨m, hm, hin⟩⟩
  rw [hall, Nat.card_Ico, Nat.add_sub_cancel_left] at hcard
  have hle := card_members_le b.tlb.slotBitmap maxSlots
  refine ⟨hslots ▸ h.slots_le, by rw [hsize, hslots, h.size], ?_, ?_, ?_, ?_, ?_⟩
  · rw [hused, hbitmap, h.counted, u64Sub_eq]
    · omega
    · have hmax : maxSlots < 2 ^ 64 := by decide
      omega
    · omega
  · rw [hlive]
    exact h.disjoint.filter _
  · intro n hn
    obtain ⟨hn, hne⟩ := (hmem n).1 hn
    have hrec := h.recorded n hn
    have hout : ¬ (m.1 ≤ n.1 ∧ n.1 < m.1 + m.2 ∧ n.1 < b.tlb.nrSlots) := by
      have := hapart n hn hne
      omega
    rw [hslots, hmeta]
    simp only [hout, if_false]
    exact hrec
  · intro i hi
    rw [hmeta] at hi
    simp only at hi
    split at hi
    · cases hi
    rename_i hout
    obtain ⟨n, hn, rfl⟩ := h.valid i hi
    refine ⟨n, (hmem n).2 ⟨hn, fun heq => hout ?_⟩, rfl⟩
    omega
  · intro i
    rw [isSlotUsed, hbitmap, get_setRange]
    split
    · rename_i hin
      refine iff_of_false nofun ?_
      rintro ⟨n, hn, hin'⟩
      obtain ⟨hn, hne⟩ := (hmem n).1 hn
      have := hapart n hn hne
      omega
    · rename_i hout
      rw [show b.tlb.slotBitmap.get i = b.tlb.isSlotUsed i from rfl, h.used]
      constructor
      · rintro ⟨n, hn, hin⟩
        refine ⟨n, (hmem n).2 ⟨hn, fun heq => hout ?_⟩, hin⟩
        -- mappings that start at the same slot are one
        by_cases hnm : n = m
        · exact hnm ▸ hin
        have hapart : SlotsApart m n := h.disjoint.forall hm hn (Ne.symm hnm)
        have := (h.recorded n hn).1
        simp only [SlotsApart] at hapart
        omega
      · rintro ⟨n, hn, hin⟩
        exact ⟨n, ((hmem n).1 hn).1, hin⟩

/-! ### Calls -/

theorem slotOf_addr (s : Swiotlb) (slot : ℕ) :
    s.slotOf (s.bufferPhys + slot * pageSize) = slot := by
  simp only [slotOf, pageSize]
  omega

/-- What `map` does: nothing, or it takes free slots. -/
theorem map_cases (s : Swiotlb) (mem : ByteMem) (phys size : ℕ) (dir : DmaDirection) :
    (needsBounce phys size = false ∧ s.map mem phys size dir = (phys, s, mem)) ∨
    (needsBounce phys size = true ∧ s.map mem phys size dir = (0, s, mem)) ∨
    (needsBounce phys size = true ∧ s.bufferPhys ≠ 0 ∧ 0 < slotsFor size ∧
      ∃ slot, slot + slotsFor size ≤ s.nrSlots ∧
        (∀ i < slotsFor size, s.isSlotUsed (slot + i) = false) ∧
        s.map mem phys size dir = (s.bufferPhys + slot * pageSize,
          { s with
            slotBitmap := setRange slot true (slotsFor size) s.slotBitmap
            usedSlots := u64Add s.usedSlots (slotsFor size)
            nextSlot := (slot + slotsFor size) % max s.nrSlots 1
            slotMeta := update s.slotMeta slot ⟨phys, size, slotsFor size, dir, true⟩ },
          if dir.copiesIn then copyBetweenPhys mem (s.bufferPhys + slot * pageSize) phys size
          else mem)) := by
  cases hbounce : needsBounce phys size with
  | false => simp [Swiotlb.map, hbounce]
  | true =>
    simp only [Swiotlb.map, hbounce, Bool.not_true, Bool.false_eq_true, if_false]
    split
    · exact .inr (.inl ⟨trivial, rfl⟩)
    rename_i hnone
    split
    · exact .inr (.inl ⟨trivial, rfl⟩)
    rename_i hcount
    rw [allocSlots, if_neg hcount]
    cases hroom : s.findRoom (slotsFor size) with
    | none => exact .inr (.inl ⟨trivial, rfl⟩)
    | some slot =>
      obtain ⟨hfits, hfree⟩ := findRoom_some hroom
      exact .inr (.inr ⟨trivial, by omega, by omega, slot, hfits, hfree, rfl⟩)

theorem Inv.map (h : b.Inv) (phys size : ℕ) (dir : DmaDirection) :
    (b.step (.map phys size dir)).Inv := by
  rcases map_cases b.tlb b.mem phys size dir with
    ⟨hbounce, hmap⟩ | ⟨hbounce, hmap⟩ | ⟨hbounce, hphys, hpos, slot, hfits, hfree, hmap⟩
  · simp only [step, hmap, hbounce, Bool.false_eq_true, false_and, if_false]
    exact h.frame _ _
  · simp only [step, hmap, ne_eq, not_true_eq_false, and_false, if_false]
    exact h.frame _ _
  · have hne : b.tlb.bufferPhys + slot * pageSize ≠ 0 := by omega
    have hslot := slotOf_addr b.tlb slot
    simp only [step, hmap, hbounce, ne_eq, hne, not_false_eq_true, and_self, if_true]
    have hinfo : (⟨phys, size, slotsFor size, dir, true⟩ : SlotMeta).valid = true ∧
        (⟨phys, size, slotsFor size, dir, true⟩ : SlotMeta).slots = slotsFor size := ⟨rfl, rfl⟩
    refine h.take hpos hfits hfree hinfo rfl rfl rfl rfl rfl ?_
    simp only [slotOf] at hslot ⊢
    rw [hslot]

theorem freeSlots_eq (s : Swiotlb) (hcount : 0 < count) (hstart : start < s.nrSlots) :
    s.freeSlots start count = { s with
      slotBitmap :=
        setRange start false (min (start + count) s.nrSlots - start) s.slotBitmap
      usedSlots := u64Sub s.usedSlots (min (start + count) s.nrSlots - start) } :=
  if_neg (by omega)

theorem Inv.slotOf_lt (h : b.Inv) (hin : b.tlb.InBuffer addr) :
    b.tlb.slotOf addr < b.tlb.nrSlots := by
  obtain ⟨h1, h2⟩ := hin
  rw [h.size] at h2
  simp only [slotOf, pageSize] at h2 ⊢
  omega

theorem filter_outside (hout : ¬ ∃ m ∈ b.live, b.addrOf m = addr) :
    (b.live.filter fun m => b.addrOf m ≠ addr) = b.live :=
  filter_eq_self.2 fun m hm => decide_eq_true fun heq => hout ⟨m, hm, heq⟩

theorem Inv.inBuffer_addrOf (h : b.Inv) {m : ℕ × ℕ} (hm : m ∈ b.live) :
    b.tlb.InBuffer (b.addrOf m) := by
  obtain ⟨hpos, hroom, -⟩ := h.recorded m hm
  have hlt : m.1 * pageSize < b.tlb.nrSlots * pageSize :=
    Nat.mul_lt_mul_of_pos_right (by omega) (by decide)
  simp only [Swiotlb.InBuffer, addrOf, h.size]
  omega

theorem Inv.unmap (h : b.Inv) (hproper : b.Proper (.unmap addr size dir)) :
    (b.step (.unmap addr size dir)).Inv := by
  by_cases hin : b.tlb.InBuffer addr
  · have hslot := h.slotOf_lt hin
    by_cases hlive : ∃ m ∈ b.live, b.addrOf m = addr
    · obtain ⟨m, hm, rfl⟩ := hlive
      have hstart : b.tlb.slotOf (b.addrOf m) = m.1 := slotOf_addr _ _
      obtain ⟨hpos, hroom, hvalid, hslots⟩ := h.recorded m hm
      rw [hstart] at hslot
      simp only [step, Swiotlb.unmap, hin, not_true_eq_false, if_false, hstart, Nat.not_le.2 hslot,
        hvalid, Bool.not_true, Bool.false_eq_true, hslots, freeSlots_eq b.tlb hpos hslot]
      refine h.give hm rfl rfl ?_ ?_ rfl ?_
      · simp only [Nat.min_eq_left hroom, Nat.add_sub_cancel_left]
      · simp only [Nat.min_eq_left hroom, Nat.add_sub_cancel_left]
      · refine filter_congr fun n _ => decide_eq_decide.2 (not_congr ?_)
        simp only [addrOf, pageSize]
        omega
    · obtain ⟨hvalid, hnone⟩ := (hproper hin).resolve_left hlive
      simp only [step, Swiotlb.unmap, hin, not_true_eq_false, if_false, Nat.not_le.2 hslot, hvalid,
        Bool.not_false, if_true, hnone, freeSlots, true_or]
      rw [filter_outside hlive]
      exact h.frame _ _
  · have hlive : ¬ ∃ m ∈ b.live, b.addrOf m = addr := by
      rintro ⟨m, hm, rfl⟩
      exact hin (h.inBuffer_addrOf hm)
    simp only [step, Swiotlb.unmap, hin, not_false_eq_true, if_true]
    rw [filter_outside hlive]
    exact h.frame _ _

theorem Inv.step (h : b.Inv) (hproper : b.Proper op) : (b.step op).Inv := by
  cases op with
  | map phys size dir => exact h.map phys size dir
  | unmap addr size dir => exact h.unmap hproper
  | deviceWrite addr bytes =>
    exact h.frame _ _

/-- Slots that are given back without a mapping: either a mapping loses one, or
the counter is too small. -/
theorem Inv.not_accounted (h : b.Inv) (hcount : 0 < count) (hslot : slot + count ≤ b.tlb.nrSlots)
    (hbitmap : b'.tlb.slotBitmap = setRange slot false count b.tlb.slotBitmap)
    (hused : b'.tlb.usedSlots = u64Sub b.tlb.usedSlots count) (hlive : b'.live = b.live) :
    ¬ b'.Accounted := by
  intro hacc
  have hclear : b'.tlb.isSlotUsed slot = false := by
    rw [isSlotUsed, hbitmap, get_setRange, if_pos (by omega)]
  by_cases hwas : b.tlb.isSlotUsed slot = true
  · obtain ⟨m, hm, h1, h2⟩ := (h.used slot).1 hwas
    have := hacc.reserved m (hlive ▸ hm) slot h1 h2
    rw [hclear] at this
    cases this
  -- fewer bits were cleared than the counter says
  have hcard := card_members_setRange_false b.tlb.slotBitmap slot count maxSlots
  have hfewer : ((b.tlb.slotBitmap.members maxSlots).filter
      fun i => slot ≤ i ∧ i < slot + count).card < count := by
    have hsub : (b.tlb.slotBitmap.members maxSlots).filter (fun i => slot ≤ i ∧ i < slot + count)
        ⊆ Finset.Ioo slot (slot + count) := by
      intro i hi
      rw [Finset.mem_filter, mem_members] at hi
      rw [Finset.mem_Ioo]
      refine ⟨lt_of_le_of_ne hi.2.1 ?_, hi.2.2⟩
      rintro rfl
      exact hwas hi.1.2
    have := Finset.card_le_card hsub
    rw [Nat.card_Ioo] at this
    omega
  have hle := card_members_le b.tlb.slotBitmap maxSlots
  have hmax : maxSlots < 2 ^ 63 := by decide
  have hcounted := hacc.counted
  have hslots := h.slots_le
  rw [hbitmap, hused, h.counted, u64Sub] at hcounted
  omega

theorem Inv.proper_of_accounted (h : b.Inv) (hacc : (b.step op).Accounted) : b.Proper op := by
  cases op with
  | map | deviceWrite => trivial
  | unmap addr size dir =>
    intro hin
    by_contra hbad
    obtain ⟨hlive, hbad⟩ := not_or.1 hbad
    have hslot := h.slotOf_lt hin
    cases hvalid : (b.tlb.slotMeta (b.tlb.slotOf addr)).valid with
    | true =>
      -- a mapping starts in this slot, and keeps being live
      obtain ⟨m, hm, hstart⟩ := h.valid _ hvalid
      obtain ⟨hpos, hroom, hvalid', hslots⟩ := h.recorded m hm
      rw [← hstart] at hslot
      refine h.not_accounted hpos hroom ?_ ?_ (filter_outside hlive) hacc
      all_goals
        simp only [Bounce.step, Swiotlb.unmap, hin, not_true_eq_false, if_false, ← hstart,
          Nat.not_le.2 hslot, hvalid', Bool.not_true, Bool.false_eq_true, hslots,
          freeSlots_eq b.tlb hpos hslot, Nat.min_eq_left hroom, Nat.add_sub_cancel_left]
    | false =>
      have hcount : 0 < slotsFor size := Nat.pos_of_ne_zero fun hzero => hbad ⟨hvalid, hzero⟩
      have hsome : 0 < min (b.tlb.slotOf addr + slotsFor size) b.tlb.nrSlots
          - b.tlb.slotOf addr := by omega
      have hroom : b.tlb.slotOf addr + (min (b.tlb.slotOf addr + slotsFor size) b.tlb.nrSlots
          - b.tlb.slotOf addr) ≤ b.tlb.nrSlots := by omega
      refine h.not_accounted hsome hroom ?_ ?_ (filter_outside hlive) hacc
      all_goals
        simp only [Bounce.step, Swiotlb.unmap, hin, not_true_eq_false, if_false,
          Nat.not_le.2 hslot, hvalid, Bool.not_false, if_true,
          freeSlots_eq b.tlb hcount hslot]

theorem buffer_step (b : Bounce) (op : BounceOp) :
    (b.step op).tlb.bufferPhys = b.tlb.bufferPhys ∧ (b.step op).tlb.nrSlots = b.tlb.nrSlots ∧
      (b.step op).tlb.bufferSize = b.tlb.bufferSize := by
  have hfree : ∀ start count, (b.tlb.freeSlots start count).bufferPhys = b.tlb.bufferPhys ∧
      (b.tlb.freeSlots start count).nrSlots = b.tlb.nrSlots ∧
      (b.tlb.freeSlots start count).bufferSize = b.tlb.bufferSize := by
    intro start count
    unfold freeSlots
    split <;> exact ⟨rfl, rfl, rfl⟩
  cases op with
  | deviceWrite addr bytes => exact ⟨rfl, rfl, rfl⟩
  | map phys size dir =>
    rcases map_cases b.tlb b.mem phys size dir with
      ⟨-, hmap⟩ | ⟨-, hmap⟩ | ⟨-, -, -, slot, -, -, hmap⟩
    all_goals
      simp only [step, hmap]
      split <;> exact ⟨rfl, rfl, rfl⟩
  | unmap addr size dir =>
    simp only [step, Swiotlb.unmap]
    split
    · exact ⟨rfl, rfl, rfl⟩
    split
    · exact ⟨rfl, rfl, rfl⟩
    split
    · exact hfree _ _
    · exact hfree _ _

/-! ### Accounting -/

/-- For every bounce buffer and every run of proper calls: the counter is the
number of bits that are set, live mappings have slots of their own that stay
reserved, and a mapping is refused only if there is no room for it. Every call
keeps this up exactly if it is proper. -/
theorem slots_accounted (buffer : BounceBuffer) (mem : ByteMem)
    (hbuffer : buffer.phys ≠ 0 ∨ buffer.slots = 0) {ops : List BounceOp} {b : Bounce}
    (hrun : Run (Guarded Proper (ofFun step)) (boot buffer mem) ops b) :
    b.Accounted ∧ ∀ op, (b.step op).Accounted ↔ b.Proper op := by
  have hinv : b.Inv ∧ (b.tlb.bufferPhys ≠ 0 ∨ b.tlb.nrSlots = 0) := by
    refine hrun.invariant (fun b => b.Inv ∧ (b.tlb.bufferPhys ≠ 0 ∨ b.tlb.nrSlots = 0)) ?_
      ⟨inv_boot buffer mem, hbuffer⟩
    rintro s op s' ⟨hs, hplace⟩ ⟨hproper, rfl⟩
    rw [(buffer_step s op).1, (buffer_step s op).2.1]
    exact ⟨hs.step hproper, hplace⟩
  refine ⟨hinv.1.accounted hinv.2, fun op => ⟨hinv.1.proper_of_accounted, fun hproper => ?_⟩⟩
  refine (hinv.1.step hproper).accounted ?_
  rw [(buffer_step b op).1, (buffer_step b op).2.1]
  exact hinv.2

theorem four_le_maxSlots : 4 ≤ maxSlots := by decide

theorem fourSlots_fit : 0x100000 + 4 * pageSize < 2 ^ 64 := by decide

/-- Four slots at one megabyte. -/
def sampleBuffer : BounceBuffer := ⟨0x100000, 4, four_le_maxSlots, fourSlots_fit⟩

/-- Mappings are made, one is refused, and all are given back. -/
def sampleOps : List BounceOp :=
  [.map 0x100000000 5000 .toDevice, .map 0x200000000 4096 .fromDevice, .map 0x1000 64 .toDevice,
    .map 0x300000000 8192 .bidirectional, .unmap 0x100000 5000 .toDevice,
    .map 0x300000000 4097 .bidirectional, .unmap 0x1000 64 .toDevice,
    .unmap 0x102000 4096 .fromDevice]

theorem slots_accounted_sample :
    ∃ b, Run (Guarded Proper (ofFun step)) (boot sampleBuffer fun _ => 0) sampleOps b ∧
      b.live = [(0, 2)] ∧ b.Accounted :=
  Run.exists_of_exec_total (by decide) fun _ hrun hlive =>
    ⟨hlive, (slots_accounted sampleBuffer _ (by decide) hrun).1⟩

/-- A mapping is given back twice. The second call takes the slots off the
counter once more, which is below zero then. -/
theorem double_unmap_breaks_accounting :
    ∃ b, Run (ofFun step) (boot sampleBuffer fun _ => 0)
        [.map 0x100000000 4096 .toDevice, .unmap 0x100000 4096 .toDevice,
          .unmap 0x100000 4096 .toDevice] b ∧
      b.tlb.usedSlots = 2 ^ 64 - 1 ∧ ¬ b.Accounted := by
  have hwrong : ∀ b : Bounce, b.tlb.usedSlots = 2 ^ 64 - 1 → ¬ b.Accounted := by
    intro b hused hacc
    have hle := card_members_le b.tlb.slotBitmap maxSlots
    have hmax : maxSlots < 2 ^ 64 - 1 := by decide
    have hcounted := hacc.counted
    omega
  refine ⟨_, .cons rfl (.cons rfl (.cons rfl (.nil _))), by decide, hwrong _ ?_⟩
  decide

end Bounce

end JanuaryOs.Dma

import JanuaryOs.Dma.BounceAccounting

/-!
# What flows through the bounce buffer from one owner to another

Slots are not cleared when they change their owner, and what a mapping from a
device copies back is the whole mapping, whatever the device has written.
`bounce_noninterference` compares two runs of the same calls and device writes
whose memories differ outside the bounce buffer. The bytes that come back are
the same if the device has overwritten what earlier copies left in them.
-/

namespace JanuaryOs.Dma

open Lib Swiotlb

namespace Bounce

/-! ### What is copied back -/

/-- The bytes that an `unmap` of a mapping from a device copies into the buffer
of its owner. -/
def observe (b : Bounce) : BounceOp → Option (List UInt8)
  | .unmap addr size dir =>
    if (b.tlb.slotMeta (b.tlb.slotOf addr)).dir = .fromDevice then
      (backCopy b.tlb addr size dir).map fun c => (List.range c.2.2).map fun i => b.mem (c.2.1 + i)
    else none
  | _ => none

/-- What the calls of a run copy back. -/
def outputs : Bounce → List BounceOp → List (Option (List UInt8))
  | _, [] => []
  | b, op :: ops => b.observe op :: outputs (b.step op) ops

/-- The byte was written by a device, or is part of the bounce buffer and was
never written. -/
def Own (b : Bounce) (x : ℕ) : Prop :=
  b.origin x = .device ∨ (b.origin x = .boot ∧ b.tlb.InBuffer x)
deriving Decidable

/-- What an `unmap` of a mapping from a device copies back was not left there by
an earlier copy. -/
def Overwritten (b : Bounce) : BounceOp → Prop
  | .unmap addr size dir =>
    (b.tlb.slotMeta (b.tlb.slotOf addr)).dir = .fromDevice →
      ∀ c ∈ backCopy b.tlb addr size dir, ∀ i < c.2.2, b.Own (c.2.1 + i)
  | _ => True

instance (b : Bounce) : (op : BounceOp) → Decidable (b.Overwritten op)
  | .unmap addr size dir =>
    inferInstanceAs (Decidable (_ → ∀ c ∈ backCopy b.tlb addr size dir, ∀ i < c.2.2, _))
  | .map .. | .deviceWrite .. => inferInstanceAs (Decidable True)

/-! ### Twin runs -/

/-- Two states that differ in bytes only that nobody may see. -/
structure Twin (b1 b2 : Bounce) : Prop where
  tlb : b1.tlb = b2.tlb
  origin : b1.origin = b2.origin
  mem : ∀ x, b1.Own x → b1.mem x = b2.mem x

variable {b b1 b2 : Bounce} {op : BounceOp}

/-- `unmap` decides what to do without looking at memory, and makes one copy. -/
theorem unmap_eq (s : Swiotlb) (mem : ByteMem) (addr size : ℕ) (dir : DmaDirection) :
    s.unmap mem addr size dir = ((s.unmap (fun _ => 0) addr size dir).1,
      match backCopy s addr size dir with
      | some (dst, src, n) => copyBetweenPhys mem dst src n
      | none => mem) := by
  unfold unmap backCopy
  by_cases hin : s.InBuffer addr
  · by_cases hslot : s.nrSlots ≤ s.slotOf addr
    · simp [hin, hslot, Nat.not_lt.2 hslot]
    cases hvalid : (s.slotMeta (s.slotOf addr)).valid with
    | false => simp [hin, hslot, hvalid]
    | true =>
      simp only [hin, not_true_eq_false, if_false, hslot, hvalid, Bool.not_true,
        Bool.false_eq_true, Nat.not_le.1 hslot, true_and]
      split <;> rfl
  · simp [hin]

theorem map_eq (s : Swiotlb) (mem : ByteMem) (phys size : ℕ) (dir : DmaDirection) :
    s.map mem phys size dir = ((s.map (fun _ => 0) phys size dir).1,
      (s.map (fun _ => 0) phys size dir).2.1,
      if needsBounce phys size ∧ (s.map (fun _ => 0) phys size dir).1 ≠ 0 ∧ dir.copiesIn then
        copyBetweenPhys mem (s.map (fun _ => 0) phys size dir).1 phys size
      else mem) := by
  unfold Swiotlb.map
  cases hbounce : needsBounce phys size with
  | false => simp
  | true =>
    simp only [Bool.not_true, Bool.false_eq_true, if_false, true_and]
    split
    · simp
    rename_i hbuffer
    split
    · simp
    cases halloc : s.allocSlots (slotsFor size) with
    | none => simp
    | some res =>
      obtain ⟨slot, s'⟩ := res
      have hphys : s'.bufferPhys = s.bufferPhys := by
        unfold allocSlots at halloc
        split at halloc
        · cases halloc
        split at halloc
        · cases halloc
        · cases halloc
          rfl
      have hne : s'.bufferPhys + slot * pageSize ≠ 0 := by omega
      simp only [ne_eq, hne, not_false_eq_true, true_and]

/-- A copy makes its destination look different, and nothing else. -/
theorem copy_twin {mem1 mem2 : ByteMem} {origin : ℕ → Origin} {InBuf : ℕ → Prop} {dst src n : ℕ}
    (hmem : ∀ x, origin x = .device ∨ (origin x = .boot ∧ InBuf x) → mem1 x = mem2 x) (x : ℕ)
    (hx : mark origin dst n .copied x = .device ∨ (mark origin dst n .copied x = .boot ∧ InBuf x)) :
    copyBetweenPhys mem1 dst src n x = copyBetweenPhys mem2 dst src n x := by
  unfold mark at hx
  unfold copyBetweenPhys
  split
  · rename_i hin
    simp [hin] at hx
  · rename_i hout
    simp only [hout, if_false] at hx
    exact hmem x hx

theorem inBuffer_step (b : Bounce) (op : BounceOp) (x : ℕ) :
    (b.step op).tlb.InBuffer x ↔ b.tlb.InBuffer x := by
  simp only [Swiotlb.InBuffer, (buffer_step b op).1, (buffer_step b op).2.2]

/-- The copy that a call makes: destination, source and size. -/
def copyOf (s : Swiotlb) : BounceOp → Option (ℕ × ℕ × ℕ)
  | .map phys size dir =>
    let dma := (s.map (fun _ => 0) phys size dir).1
    if needsBounce phys size ∧ dma ≠ 0 ∧ dir.copiesIn then some (dma, phys, size) else none
  | .unmap addr size dir => backCopy s addr size dir
  | .deviceWrite .. => none

/-- The state of the code after a call, which does not depend on memory. -/
def tlbAfter (s : Swiotlb) : BounceOp → Swiotlb
  | .map phys size dir => (s.map (fun _ => 0) phys size dir).2.1
  | .unmap addr size dir => (s.unmap (fun _ => 0) addr size dir).1
  | .deviceWrite .. => s

/-- What a call of the code does: at most one copy, and a new state of its own. -/
theorem step_eq (b : Bounce) (hcall : ∀ addr bytes, op ≠ .deviceWrite addr bytes) :
    (b.step op).tlb = tlbAfter b.tlb op ∧
      match copyOf b.tlb op with
      | some (dst, src, n) =>
        (b.step op).mem = copyBetweenPhys b.mem dst src n ∧
          (b.step op).origin = mark b.origin dst n .copied
      | none => (b.step op).mem = b.mem ∧ (b.step op).origin = b.origin := by
  cases op with
  | deviceWrite addr bytes => exact absurd rfl (hcall addr bytes)
  | map phys size dir =>
    simp only [step, copyOf, tlbAfter]
    rw [map_eq b.tlb b.mem]
    simp only
    by_cases hbounced : needsBounce phys size ∧
        (b.tlb.map (fun _ => 0) phys size dir).1 ≠ 0
    · cases hdir : dir.copiesIn with
      | false
      | true => simp [hbounced]
    · have hnot : ¬ (needsBounce phys size ∧
          (b.tlb.map (fun _ => 0) phys size dir).1 ≠ 0 ∧ dir.copiesIn) :=
        fun h => hbounced ⟨h.1, h.2.1⟩
      simp only [if_neg hbounced, if_neg hnot, and_self]
  | unmap addr size dir =>
    simp only [step, copyOf, tlbAfter]
    rw [unmap_eq b.tlb b.mem]
    cases backCopy b.tlb addr size dir with
    | none
    | some c => exact ⟨rfl, rfl, rfl⟩

theorem Twin.step (h : Twin b1 b2) (op : BounceOp) : Twin (b1.step op) (b2.step op) := by
  have hin := inBuffer_step b1 op
  by_cases hcall : ∀ addr bytes, op ≠ .deviceWrite addr bytes
  · obtain ⟨htlb1, hcopy1⟩ := step_eq b1 hcall
    obtain ⟨htlb2, hcopy2⟩ := step_eq b2 hcall
    rw [h.tlb] at htlb1 hcopy1
    rcases hcopy : copyOf b2.tlb op with _ | c
    all_goals
      rw [hcopy] at hcopy1 hcopy2
      obtain ⟨hmem1, horigin1⟩ := hcopy1
      obtain ⟨hmem2, horigin2⟩ := hcopy2
      refine ⟨htlb1.trans htlb2.symm, by rw [horigin1, horigin2, h.origin], fun x hx => ?_⟩
      rw [hmem1, hmem2]
      simp only [Own, hin, horigin1] at hx
    · exact h.mem x hx
    · exact copy_twin h.mem x hx
  · -- the device writes the same to both
    simp only [not_forall, not_not] at hcall
    obtain ⟨addr, bytes, rfl⟩ := hcall
    refine ⟨h.tlb, congrArg (mark · addr bytes.length .device) h.origin, fun x hx => ?_⟩
    simp only [Bounce.step, writeBytes, Own, mark] at hx ⊢
    split
    · rfl
    · rename_i hout
      simp only [hout, if_false] at hx
      exact h.mem x hx

/-- Twins copy back the same bytes, if these have been overwritten. -/
theorem Twin.observe (h : Twin b1 b2) (hok : b1.Overwritten op) :
    b1.observe op = b2.observe op := by
  cases op with
  | map | deviceWrite => rfl
  | unmap addr size dir =>
    simp only [Bounce.observe, Overwritten, h.tlb] at hok ⊢
    split
    · rename_i hdir
      cases hback : backCopy b2.tlb addr size dir with
      | none => rfl
      | some c =>
        simp only [Option.map_some, Option.some.injEq]
        refine List.map_congr_left fun i hi => h.mem _ ?_
        exact hok hdir c hback i (List.mem_range.1 hi)
    · rfl

/-! ### Noninterference -/

/-- Two runs of the same calls and device writes, from memories that differ
outside the bounce buffer in any way: as long as the device overwrites what
copies have left in the bytes that come back, every `unmap` of a mapping from a
device copies the same bytes in both. -/
theorem bounce_noninterference (buffer : BounceBuffer) (mem1 mem2 : ByteMem)
    (hsame : ∀ x, (Swiotlb.new buffer).InBuffer x → mem1 x = mem2 x) {ops : List BounceOp}
    {b : Bounce} (hrun : Run (Guarded Overwritten (ofFun step)) (boot buffer mem1) ops b) :
    outputs (boot buffer mem1) ops = outputs (boot buffer mem2) ops := by
  have htwin : Twin (boot buffer mem1) (boot buffer mem2) :=
    ⟨rfl, rfl, fun x hx => hsame x (hx.resolve_left nofun).2⟩
  generalize boot buffer mem1 = b1 at htwin hrun
  generalize boot buffer mem2 = b2 at htwin
  -- the runs stay twins, call by call
  induction hrun generalizing b2 with
  | nil => rfl
  | cons hstep _ ih =>
    obtain ⟨hok, rfl⟩ := hstep
    rw [outputs, outputs, htwin.observe hok, ih _ (htwin.step _)]

/-- One slot at one megabyte. -/
def oneSlot : BounceBuffer := ⟨0x100000, 1, by decide, by decide⟩

/-- A memory with a secret byte at four gigabytes. -/
def secretMem (secret : UInt8) : ByteMem := fun x => if x = 0x100000000 then secret else 0

/-- The secret is sent to a device; later another owner reads from a device,
which writes so many bytes. -/
def reuseOps (bytes : List UInt8) : List BounceOp :=
  [.map 0x100000000 4 .toDevice, .unmap 0x100000 4 .toDevice, .map 0x200000000 4 .fromDevice,
    .deviceWrite 0x100000 bytes, .unmap 0x100000 4 .fromDevice]

theorem bounce_noninterference_full_write :
    outputs (boot oneSlot (secretMem 1)) (reuseOps [5, 6, 7, 8])
      = outputs (boot oneSlot (secretMem 2)) (reuseOps [5, 6, 7, 8]) := by
  have hexec : Executes Overwritten (fun b op => some (step b op)) (boot oneSlot (secretMem 1))
      (reuseOps [5, 6, 7, 8]) fun _ => True := by decide
  obtain ⟨b, hrun, -⟩ := Run.exists_of_exec_total hexec fun _ _ h => h
  refine bounce_noninterference oneSlot _ _ (fun x hx => ?_) hrun
  have hbelow : x < 0x100000 + 4096 := hx.2
  simp only [secretMem]
  rw [if_neg (by omega), if_neg (by omega)]

/-- The device writes nothing: the second owner gets the secret. -/
theorem short_read_leaks_secret :
    outputs (boot oneSlot (secretMem 1)) (reuseOps [])
      = [none, none, none, none, some [1, 0, 0, 0]] ∧
      outputs (boot oneSlot (secretMem 2)) (reuseOps [])
        = [none, none, none, none, some [2, 0, 0, 0]] := by
  decide

end Bounce

end JanuaryOs.Dma

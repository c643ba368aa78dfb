import JanuaryOs.Virt.Areas

/-!
# The counters `vma_count`, `total_vm`, `exec_vm` and `stack_vm` of an address space

They are machine words. `insert_vma` and `remove_vma` move them by what an area
weighs and wrap around. Seen in the integers modulo the word size the counters
form a group, an exchange of areas adds the difference of the weights, and
putting the areas back takes it away again, whatever the counters were. The
transactions of `mm/syscall/txn.rs` stop at the ends of the words instead.
-/

namespace JanuaryOs.Virt

open Lib Libs.Mptree IntervalMap List

/-! ### Counters -/

/-- The values of `vma_count`, `total_vm`, `exec_vm` and `stack_vm`, up to the
size of a word. -/
abbrev Counters := ZMod (2 ^ 32) × ZMod (2 ^ 64) × ZMod (2 ^ 64) × ZMod (2 ^ 64)

/-- The pages of an area, as the counters see them. -/
def Vma.nrPages (a : Vma) : ℕ := u64Sub a.stop a.start / pageSize

/-- What an area adds to the counters. -/
def Vma.counters (a : Vma) : Counters :=
  (1, (a.nrPages : ZMod _), if a.value.flags.exec then (a.nrPages : ZMod _) else 0,
    if a.value.flags.growsdown then (a.nrPages : ZMod _) else 0)

variable {b : ℕ}

namespace Mm

def counters (mm : Mm) : Counters := (mm.vmaCount, mm.totalVm, mm.execVm, mm.stackVm)

/-- The counters fit their words. -/
structure Words (mm : Mm) : Prop where
  vmaCount : mm.vmaCount < 2 ^ 32
  totalVm : mm.totalVm < 2 ^ 64
  execVm : mm.execVm < 2 ^ 64
  stackVm : mm.stackVm < 2 ^ 64

theorem natCast_inj {n a : ℕ} (ha : a < n) (hb : b < n) (h : (a : ZMod n) = b) : a = b := by
  have h := (ZMod.natCast_eq_natCast_iff' a b n).1 h
  rwa [Nat.mod_eq_of_lt ha, Nat.mod_eq_of_lt hb] at h

/-- Words are known by their values modulo their size. -/
theorem counters_inj {mm mm' : Mm} (h : mm.Words) (h' : mm'.Words)
    (heq : mm.counters = mm'.counters) :
    mm.vmaCount = mm'.vmaCount ∧ mm.totalVm = mm'.totalVm ∧ mm.execVm = mm'.execVm ∧
      mm.stackVm = mm'.stackVm := by
  simp only [counters, Prod.mk.injEq] at heq
  exact ⟨natCast_inj h.vmaCount h'.vmaCount heq.1, natCast_inj h.totalVm h'.totalVm heq.2.1,
    natCast_inj h.execVm h'.execVm heq.2.2.1, natCast_inj h.stackVm h'.stackVm heq.2.2.2⟩

end Mm

/-! Wrapping arithmetic is arithmetic modulo the word size. -/

theorem natCast_mod_add (n a b : ℕ) : (((a + b) % n : ℕ) : ZMod n) = a + b := by
  rw [ZMod.natCast_mod, Nat.cast_add]

theorem natCast_mod_sub {n : ℕ} (a : ℕ) (hb : b ≤ n) :
    (((a + (n - b)) % n : ℕ) : ZMod n) = a - b := by
  rw [natCast_mod_add, Nat.cast_sub hb, ZMod.natCast_self, zero_sub, sub_eq_add_neg]

/-- A counter to which the pages of some areas are added. -/
theorem natCast_ite_add (p : Prop) [Decidable p] (a b : ℕ) :
    ((if p then u64Add a b else a : ℕ) : ZMod (2 ^ 64)) =
      (a : ZMod (2 ^ 64)) + if p then (b : ZMod (2 ^ 64)) else 0 := by
  split
  · exact natCast_mod_add _ a b
  · exact (add_zero _).symm

theorem natCast_ite_sub (p : Prop) [Decidable p] (a : ℕ) (hb : b ≤ 2 ^ 64) :
    ((if p then u64Sub a b else a : ℕ) : ZMod (2 ^ 64)) =
      (a : ZMod (2 ^ 64)) - if p then (b : ZMod (2 ^ 64)) else 0 := by
  split
  · exact natCast_mod_sub a hb
  · exact (sub_zero _).symm

theorem mod_two_pow_lt (a n : ℕ) : a % 2 ^ n < 2 ^ n := Nat.mod_lt a (Nat.two_pow_pos n)

theorem ite_lt {p : Prop} [Decidable p] {n : ℕ} (ha : a < n) (hb : b < n) :
    (if p then a else b) < n := by
  split
  · exact ha
  · exact hb

theorem Vma.nrPages_le (a : Vma) : a.nrPages ≤ 2 ^ 64 :=
  (Nat.div_le_self _ _).trans (mod_two_pow_lt _ _).le

namespace Mm

variable {mm mm' : Mm}

/-! ### One area -/

variable {a : Vma} {mm'' : Mm} {inserted inserted' removed removed' rest : List Vma}

/-- `insert_vma` adds the weight of the area. -/
theorem insertVma_ok (hproper : a.start < a.stop) (hapart : ∀ b ∈ mm.vmaTree, a.Apart b)
    (hwords : mm.Words) :
    ∃ mm', mm.insertVma a.start a.stop a.value = (true, mm') ∧ Exchanged mm mm' [] [a] ∧
      mm'.Words ∧ mm'.counters = mm.counters + a.counters := by
  have hins := MapleTree.insert_eq_ok (t := mm.vmaTree) (v := a.value) hproper hapart
  unfold insertVma
  simp only [hins]
  refine ⟨_, rfl, ⟨rfl, fun b => by simp [mem_add], fun w => by simp [sum_add]⟩,
    ⟨mod_two_pow_lt _ _, mod_two_pow_lt _ _,
      ite_lt (mod_two_pow_lt _ _) hwords.execVm,
      ite_lt (mod_two_pow_lt _ _) hwords.stackVm⟩, ?_⟩
  simp only [counters, Vma.counters, Vma.nrPages, Prod.mk_add_mk, Prod.mk.injEq, natCast_ite_add]
  exact ⟨by exact_mod_cast natCast_mod_add (2 ^ 32) _ 1, natCast_mod_add _ _ _, trivial⟩

/-- `remove_vma` takes it away. -/
theorem removeVma_ok (h : a ∈ mm.vmaTree) (hwords : mm.Words) :
    ∃ mm', mm.removeVma a.start = (some a, mm') ∧ Exchanged mm mm' [a] [] ∧
      mm'.Words ∧ mm'.counters = mm.counters - a.counters := by
  have hget : mm.vmaTree.map.get? a.start = some a := h
  have hpages : u64Sub a.stop a.start / pageSize ≤ 2 ^ 64 := a.nrPages_le
  unfold removeVma MapleTree.remove
  simp only [hget]
  refine ⟨_, rfl, .erase h rfl rfl,
    ⟨mod_two_pow_lt _ _, mod_two_pow_lt _ _,
      ite_lt (mod_two_pow_lt _ _) hwords.execVm,
      ite_lt (mod_two_pow_lt _ _) hwords.stackVm⟩, ?_⟩
  simp only [counters, Vma.counters, Vma.nrPages, Prod.mk_sub_mk, Prod.mk.injEq,
    natCast_ite_sub _ _ hpages]
  exact ⟨by exact_mod_cast natCast_mod_sub _ (Nat.one_le_two_pow (n := 32)),
    natCast_mod_sub _ hpages, trivial⟩

theorem words_skeleton : mm.skeleton.Words ↔ mm.Words :=
  ⟨fun h => ⟨h.1, h.2, h.3, h.4⟩, fun h => ⟨h.1, h.2, h.3, h.4⟩⟩

theorem words_of_skeleton (h : mm'.skeleton = mm.skeleton) (hwords : mm.Words) : mm'.Words :=
  words_skeleton.1 (h ▸ words_skeleton.2 hwords)

/-! ### Lists of areas -/

/-- Areas were exchanged and the counters follow. -/
structure Moved (mm mm' : Mm) (removed inserted : List Vma) : Prop where
  exchanged : Exchanged mm mm' removed inserted
  words : mm'.Words
  counters : mm'.counters + (removed.map Vma.counters).sum =
    mm.counters + (inserted.map Vma.counters).sum

theorem Moved.refl (h : mm.Words) : Moved mm mm [] [] := ⟨.refl mm, h, rfl⟩

/-- Two exchanges of which one only adds or only removes. -/
theorem Moved.trans (h1 : Moved mm mm' removed inserted) (h2 : Moved mm' mm'' removed' inserted')
    (h : inserted = [] ∨ removed' = []) :
    Moved mm mm'' (removed ++ removed') (inserted ++ inserted') := by
  refine ⟨h1.exchanged.trans h2.exchanged h, h2.words, ?_⟩
  rw [map_append, sum_append, map_append, sum_append, add_comm (removed.map _).sum, ← add_assoc,
    h2.counters, add_right_comm, h1.counters, add_assoc]

theorem insertVma_moved (hproper : a.start < a.stop) (hapart : ∀ b ∈ mm.vmaTree, a.Apart b)
    (hwords : mm.Words) :
    ∃ mm', mm.insertVma a.start a.stop a.value = (true, mm') ∧ Moved mm mm' [] [a] := by
  obtain ⟨mm', hins, hex, hw, hc⟩ := insertVma_ok hproper hapart hwords
  exact ⟨mm', hins, hex, hw, by simp [hc]⟩

/-- Areas that can be inserted together. -/
structure Insertable (mm : Mm) (vmas : List Vma) : Prop where
  proper : ∀ a ∈ vmas, a.start < a.stop
  apart : vmas.Pairwise Interval.Apart
  free : ∀ a ∈ vmas, ∀ b ∈ mm.vmaTree, a.Apart b

/-- What is left can still be inserted after the first area. -/
theorem Insertable.tail (h : Insertable mm (a :: rest)) (hm : Moved mm mm' [] [a]) :
    Insertable mm' rest := by
  obtain ⟨hnext, hapart⟩ := pairwise_cons.1 h.apart
  refine ⟨fun b hb => h.proper b (.tail _ hb), hapart, fun b hb c hc => ?_⟩
  rcases (hm.exchanged.mem c).1 hc with hc | ⟨hc, -⟩
  · rw [mem_singleton.1 hc]
    exact (hnext b hb).symm
  · exact h.free b (.tail _ hb) c hc

/-! ### Transactions -/

/-- A sum that stops at the last word is a word. -/
theorem satAdd_lt_of_lt {n a : ℕ} (b : ℕ) (h : a < n) : satAdd (n - 1) a b < n := by
  unfold satAdd
  omega

theorem insertVmaLocked_words (h : mm.Words) (a : Vma) : (mm.insertVmaLocked a).2.Words := by
  unfold insertVmaLocked
  simp only
  split
  · exact h
  exact ⟨satAdd_lt_of_lt _ h.vmaCount, satAdd_lt_of_lt _ h.totalVm,
    ite_lt (satAdd_lt_of_lt _ h.execVm) h.execVm, ite_lt (satAdd_lt_of_lt _ h.stackVm) h.stackVm⟩

theorem removeVmaLocked_words (h : mm.Words) (start : ℕ) : (mm.removeVmaLocked start).2.Words := by
  unfold removeVmaLocked
  split
  · exact h
  exact ⟨(Nat.sub_le _ _).trans_lt h.vmaCount, (Nat.sub_le _ _).trans_lt h.totalVm,
    ite_lt ((Nat.sub_le _ _).trans_lt h.execVm) h.execVm,
    ite_lt ((Nat.sub_le _ _).trans_lt h.stackVm) h.stackVm⟩

theorem removeSegments_words (h : mm.Words) (segments : List Vma) :
    (removeSegments segments mm).2.Words := by
  induction segments generalizing mm with
  | nil => exact h
  | cons a rest ih =>
    have hstep := removeVmaLocked_words h a.start
    rw [removeSegments]
    rcases hrem : mm.removeVmaLocked a.start with ⟨_ | _, mm1⟩
    all_goals rw [hrem] at hstep
    · exact hstep
    · exact ih hstep

theorem foldl_words {f : Mm → Vma → Mm} (hf : ∀ (mm : Mm) (a : Vma), mm.Words → (f mm a).Words)
    (h : mm.Words) (segments : List Vma) : (segments.foldl f mm).Words := by
  induction segments generalizing mm with
  | nil => exact h
  | cons a rest ih => exact ih (hf mm a h)

theorem insertSegments_words (h : mm.Words) (removed : List Vma) :
    ∀ segments inserted : List Vma, (insertSegments removed segments inserted mm).2.Words := by
  intro segments
  induction segments generalizing mm with
  | nil => exact fun _ => h
  | cons a rest ih =>
    intro inserted
    have hstep := insertVmaLocked_words h a
    rw [insertSegments]
    rcases hins : mm.insertVmaLocked a with ⟨_ | _, mm1⟩
    all_goals rw [hins] at hstep
    · exact foldl_words (fun _ a h => insertVmaLocked_words h a)
        (foldl_words (fun _ a h => removeVmaLocked_words h a.start) hstep inserted) removed
    · exact ih hstep (a :: inserted)

/-- Transactions keep the counters words, also when they fail. -/
theorem replaceSegments_words (h : mm.Words) (edits : List VmaEdit) :
    (mm.replaceSegments edits).2.Words := by
  have hout := removeSegments_words h (edits.map VmaEdit.original)
  unfold replaceSegments
  simp only
  rcases hrem : removeSegments (edits.map VmaEdit.original) mm with ⟨_ | _, mm1⟩
  all_goals rw [hrem] at hout
  · exact hout
  · exact insertSegments_words hout _ _ _

/-! ### Growth of the stack -/

theorem expandStack_words (hwords : mm.Words) (vmaStart newStart : ℕ) :
    (mm.expandStack vmaStart newStart).2.Words := by
  unfold Mm.expandStack
  split
  · exact hwords
  split
  · exact ⟨hwords.vmaCount, mod_two_pow_lt _ 64, hwords.execVm,
      mod_two_pow_lt _ 64⟩
  · exact ⟨hwords.vmaCount, hwords.totalVm, hwords.execVm, hwords.stackVm⟩

/-- So does growth of the stack. -/
theorem expandStackForFault_words (hwords : mm.Words) (addr : ℕ) :
    (mm.expandStackForFault addr).2.Words := by
  rcases mm.expandStackForFault_cases addr with h | ⟨start, h⟩
  · rw [h]
    exact hwords
  · rw [h]
    exact expandStack_words hwords _ _

end Mm

end JanuaryOs.Virt

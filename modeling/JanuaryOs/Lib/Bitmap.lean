import Mathlib

/-!
# Sets of small numbers as bits of 64-bit words

A program tests and changes one bit at a time, with masks. `get_set` says what
such a change does to the other bits, `get_setRange` the same for a loop over
consecutive bits, and the last section counts bits before and after such a loop.
-/

namespace JanuaryOs.Lib

open Function

/-- An array of words. -/
abbrev Bitmap := ℕ → BitVec 64

namespace Bitmap

variable {bm : Bitmap} {i j start count n : ℕ} {b : Bool}

def empty : Bitmap := fun _ => 0

def get (bm : Bitmap) (i : ℕ) : Bool := bm (i / 64) &&& (1#64 <<< (i % 64)) != 0

def set (bm : Bitmap) (i : ℕ) (b : Bool) : Bitmap :=
  update bm (i / 64)
    (if b then bm (i / 64) ||| (1#64 <<< (i % 64)) else bm (i / 64) &&& ~~~(1#64 <<< (i % 64)))

/-- Set or clear consecutive bits, one after the other. -/
def setRange (start : ℕ) (b : Bool) : ℕ → Bitmap → Bitmap
  | 0, bm => bm
  | count + 1, bm => setRange (start + 1) b count (bm.set start b)

/-! ### Single bits -/

theorem get_eq_getLsbD (bm : Bitmap) (i : ℕ) : bm.get i = (bm (i / 64)).getLsbD (i % 64) := by
  have hlt : i % 64 < 64 := Nat.mod_lt i (by decide)
  rw [get, ← BitVec.twoPow_eq, BitVec.and_twoPow]
  cases hbit : (bm (i / 64)).getLsbD (i % 64) with
  | false => simp
  | true =>
    have hne : BitVec.twoPow 64 (i % 64) ≠ 0#64 := by
      intro hzero
      have hself := congrArg (·.getLsbD (i % 64)) hzero
      simp [hlt] at hself
    simp [hne]

@[simp] theorem get_empty (i : ℕ) : empty.get i = false := by
  simp [get_eq_getLsbD, empty]

/-- A change of one bit leaves the others as they are. -/
theorem get_set : (bm.set i b).get j = if j = i then b else bm.get j := by
  have hi : i % 64 < 64 := Nat.mod_lt i (by decide)
  have hj : j % 64 < 64 := Nat.mod_lt j (by decide)
  rw [get_eq_getLsbD, get_eq_getLsbD, set]
  by_cases hword : j / 64 = i / 64
  · rw [hword, update_self]
    have hiff : j = i ↔ j % 64 = i % 64 := by omega
    by_cases heq : j = i
    · subst heq
      cases b with
      | false
      | true => simp [hj]
    have hne : j % 64 ≠ i % 64 := fun h => heq (hiff.2 h)
    have hmask : (1#64 <<< (i % 64)).getLsbD (j % 64) = false := by
      rw [← BitVec.twoPow_eq, BitVec.getLsbD_twoPow]
      simp [hne.symm]
    rw [if_neg heq]
    cases b with
    | false => rw [if_neg nofun, BitVec.getLsbD_and, BitVec.getLsbD_not, hmask]; simp [hj]
    | true => rw [if_pos rfl, BitVec.getLsbD_or, hmask, Bool.or_false]
  · have hne : j ≠ i := fun h => hword (congrArg (· / 64) h)
    rw [update_of_ne hword, if_neg hne]

/-! ### Loops -/

theorem get_setRange :
    (setRange start b count bm).get j = if start ≤ j ∧ j < start + count then b else bm.get j := by
  induction count generalizing start bm with
  | zero =>
    rw [setRange, if_neg]
    omega
  | succ count ih =>
    rw [setRange, ih, get_set]
    by_cases hfirst : j = start
    · rw [if_pos hfirst, ite_self, if_pos (by omega)]
    rw [if_neg hfirst]
    have hiff : start + 1 ≤ j ∧ j < start + 1 + count ↔ start ≤ j ∧ j < start + (count + 1) := by
      omega
    simp only [hiff]

/-! ### Counting -/

/-- The bits below `n` that are set. -/
def members (bm : Bitmap) (n : ℕ) : Finset ℕ := (Finset.range n).filter fun i => bm.get i

theorem mem_members : i ∈ bm.members n ↔ i < n ∧ bm.get i = true := by
  simp [members]

@[simp] theorem members_empty (n : ℕ) : empty.members n = ∅ := by
  simp [members]

theorem card_members_setRange_true (hn : start + count ≤ n)
    (hfree : ∀ i, start ≤ i → i < start + count → bm.get i = false) :
    ((setRange start true count bm).members n).card = (bm.members n).card + count := by
  have hunion : (setRange start true count bm).members n
      = bm.members n ∪ Finset.Ico start (start + count) := by
    ext i
    rw [Finset.mem_union, Finset.mem_Ico, mem_members, mem_members, get_setRange]
    split
    · rename_i hin
      exact ⟨fun _ => .inr hin, fun _ => ⟨by omega, rfl⟩⟩
    · rename_i hout
      exact ⟨fun h => .inl h, fun h => h.resolve_right hout⟩
  have hdisj : Disjoint (bm.members n) (Finset.Ico start (start + count)) := by
    refine Finset.disjoint_left.2 fun i hi hin => ?_
    rw [Finset.mem_Ico] at hin
    rw [mem_members, hfree i hin.1 hin.2] at hi
    cases hi.2
  rw [hunion, Finset.card_union_of_disjoint hdisj, Nat.card_Ico, Nat.add_sub_cancel_left]

theorem card_members_setRange_false (bm : Bitmap) (start count n : ℕ) :
    ((setRange start false count bm).members n).card
        + ((bm.members n).filter fun i => start ≤ i ∧ i < start + count).card
      = (bm.members n).card := by
  have hrest : (setRange start false count bm).members n
      = (bm.members n).filter fun i => ¬ (start ≤ i ∧ i < start + count) := by
    ext i
    rw [Finset.mem_filter, mem_members, mem_members, get_setRange]
    split
    · rename_i hin
      simp [hin]
    · rename_i hout
      simp only [hout, not_false_eq_true, and_true]
  rw [hrest, Nat.add_comm]
  exact Finset.card_filter_add_card_filter_not _

end Bitmap

end JanuaryOs.Lib

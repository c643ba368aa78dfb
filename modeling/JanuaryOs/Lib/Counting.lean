import Mathlib

/-!
# Sums of weights over the entries of a table, and what they become when one entry changes
-/

namespace JanuaryOs.Lib

open Function

variable {ι α : Type*} {S : Finset ι}

theorem sum_update [DecidableEq ι] {j : ι} (hj : j ∈ S) (w : ι → α → ℕ) (f : ι → α) (a : α) :
    ∑ i ∈ S, w i (update f j a i) + w j (f j) = ∑ i ∈ S, w i (f i) + w j a := by
  rw [← Finset.add_sum_erase S _ hj, ← Finset.add_sum_erase S (fun i => w i (f i)) hj]
  have hrest : ∑ i ∈ S.erase j, w i (update f j a i) = ∑ i ∈ S.erase j, w i (f i) :=
    Finset.sum_congr rfl fun i hi => by rw [update_of_ne (Finset.ne_of_mem_erase hi)]
  rw [hrest, update_self]
  omega

theorem add_le_sum_entries [DecidableEq ι] {j k : ι} (hj : j ∈ S) (hk : k ∈ S) (hjk : j ≠ k)
    (w : ι → ℕ) : w j + w k ≤ ∑ i ∈ S, w i := by
  rw [← Finset.add_sum_erase S w hj]
  have hmem : k ∈ S.erase j := Finset.mem_erase.2 ⟨hjk.symm, hk⟩
  exact Nat.add_le_add_left (Finset.single_le_sum_of_canonicallyOrdered hmem) _

end JanuaryOs.Lib

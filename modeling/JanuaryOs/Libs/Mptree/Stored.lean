import JanuaryOs.Libs.BTree.Refinement
import JanuaryOs.Libs.Mptree.Tree

/-!
# The interval tree on the B-tree that stores it

What is proved about address spaces takes the B-tree for the ordered map it
implements. It is one as long as its calls are safe (`call_refines`); insertions
always are, as the key is then a new one.
-/

namespace JanuaryOs.Libs.Mptree

open Lib Btree

variable {V : Type*} {b : BTree ℕ (Interval V)} {t t' : MapleTree V} {start stop : ℕ} {v : V}

/-- The B-tree holds the intervals, by their starts. -/
def Stores (b : BTree ℕ (Interval V)) (t : MapleTree V) : Prop := Represents b t.map

theorem Stores.iter (h : Stores b t) : b.iter.map (·.map Prod.snd) = some t.toList := by
  rw [iter_refines h]
  rfl

/-- An insertion that the tree accepts is of a start that the B-tree does not
hold. -/
theorem Stores.insert (h : Stores b t) (hok : t.insert start stop v = .ok t') :
    ∃ b', b.insert start ⟨start, stop, v⟩ = some (none, b') ∧ Stores b' t' := by
  obtain ⟨hrange, hapart, -⟩ := MapleTree.insert_ok hok
  have hnew : t.map.get? start = none := by
    refine Option.eq_none_iff_forall_ne_some.2 fun a ha => ?_
    have hstart := t.keyed start a ha
    have hstop := t.proper start a ha
    rcases hapart a (IntervalMap.mem_of_get? ha) with h | h <;> dsimp only at h <;> omega
  rw [MapleTree.insert_eq_ok hrange hapart] at hok
  cases hok
  rw [← hnew]
  exact insert_refines h _ (noClash_of_new h hnew)

theorem Stores.remove (h : Stores b t) (hok : RemoveOk b start) :
    ∃ b', b.remove start = some ((t.remove start).1, b') ∧ Stores b' (t.remove start).2 :=
  remove_refines h hok

end JanuaryOs.Libs.Mptree

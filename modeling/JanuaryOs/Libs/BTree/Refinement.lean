import JanuaryOs.Lib.Trace
import JanuaryOs.Libs.BTree.Insert
import JanuaryOs.Libs.BTree.Read
import JanuaryOs.Libs.BTree.Remove

/-!
# The B-tree against the ordered map it implements

A tree represents the map whose entries are its list. Reads always answer as the
map does. An insertion does unless a full node below the root has the key as its
middle entry, and a removal does unless it panics: on a root without keys, or on
a replacement taken from an empty leaf.
-/

namespace JanuaryOs.Libs.Btree

open Lib OrdMap List

variable {K V : Type*}

theorem BTree.height_lt_depth (t : BTree K V) : t.root.height < t.depth := Nat.lt_succ_self _

variable [LinearOrder K] {m : OrdMap K V} {t : BTree K V}

/-! ### The calls and what they should answer -/

/-- The calls of the public interface. A predicate that `retain` is given sees
the keys and values; `getMut` is followed by a write of the value. -/
inductive MapOp (K V : Type*)
  | insert (key : K) (value : V)
  | remove (key : K)
  | get (key : K)
  | getMut (key : K) (value : V)
  | first
  | last
  | iter
  | retain (p : K → V → Bool)
  | len

inductive Answer (K V : Type*)
  | value (v : Option V)
  | entry (e : Option (K × V))
  | entries (l : List (K × V))
  | count (n : ℕ)
  | unit
  deriving DecidableEq

/-- A call on the tree; `none` is a panic. -/
def BTree.call (t : BTree K V) : MapOp K V → Option (Answer K V × BTree K V)
  | .insert key value => (t.insert key value).map fun r => (.value r.1, r.2)
  | .remove key => (t.remove key).map fun r => (.value r.1, r.2)
  | .get key => (t.get key).map fun v => (.value v, t)
  | .getMut key value => (t.getMut key value).map fun r => (.value r.1, r.2)
  | .first => t.first.map fun e => (.entry e, t)
  | .last => t.last.map fun e => (.entry e, t)
  | .iter => t.iter.map fun l => (.entries l, t)
  | .retain p => (t.retain p).map fun t' => (.unit, t')
  | .len => some (.count t.len, t)

/-- The same call on a finite ordered map. -/
def mapCall (m : OrdMap K V) : MapOp K V → Answer K V × OrdMap K V
  | .insert key value => (.value (m.get? key), m.insert key value)
  | .remove key => (.value (m.get? key), m.erase key)
  | .get key => (.value (m.get? key), m)
  | .getMut key value => (.value (m.get? key), m.modify key fun _ => value)
  | .first => (.entry m.entries.head?, m)
  | .last => (.entry m.entries.getLast?, m)
  | .iter => (.entries m.entries, m)
  | .retain p => (.unit, m.filter p)
  | .len => (.count m.entries.length, m)

/-! ### When a call is safe -/

/-- A removal that does not panic. -/
def RemoveOk (t : BTree K V) (key : K) : Prop := KeyOk key t.root ∧ fixable t.root = true

/-- The keys `retain` drops, in ascending order. -/
def dropped (p : K → V → Bool) (l : List (K × V)) : List K :=
  (l.filter fun e => !p e.1 e.2).map (·.1)

/-- The condition on a call. `retain` removes one key after the other, and each
of these removals has to be safe when it is made. -/
def CallOk (t : BTree K V) : MapOp K V → Prop
  | .insert key _ => NoClash key t.root
  | .remove key => RemoveOk t key
  | .retain p => OkRun RemoveOk BTree.remove t (dropped p t.root.toList)
  | _ => True

instance (t : BTree K V) (key : K) : Decidable (RemoveOk t key) := by
  unfold RemoveOk KeyOk
  infer_instance

instance (t : BTree K V) : ∀ op, Decidable (CallOk t op)
  | .insert key _ => inferInstanceAs (Decidable (∀ m ∈ t.root.descendants, clashes key m = false))
  | .remove key => inferInstanceAs (Decidable (RemoveOk t key))
  | .retain p =>
    inferInstanceAs (Decidable (OkRun RemoveOk BTree.remove t (dropped p t.root.toList)))
  | .get _ | .getMut _ _ | .first | .last | .iter | .len => .isTrue trivial

/-! ### Trees and the maps they represent -/

/-- The tree represents the map. Below an internal root, the outermost leaves
have entries: `first` and `last` look nowhere else. -/
structure Represents (t : BTree K V) (m : OrdMap K V) : Prop where
  wf : Wf t.root.height t.root
  list : t.root.toList = m.entries
  len : t.len = m.entries.length
  edges : 0 < t.root.height →
    leftmost t.root.height t.root ≠ [] ∧ rightmost t.root.height t.root ≠ []

theorem represents_new : Represents (BTree.new : BTree K V) OrdMap.empty :=
  ⟨by simp [BTree.new, Node.height, Wf], by simp [BTree.new, OrdMap.empty], rfl,
    by simp [BTree.new, Node.height]⟩

theorem Represents.sorted (hr : Represents t m) : SortedKV t.root.toList := by
  rw [hr.list]
  exact m.sorted

variable {h : ℕ} {root : Node K V}

/-- A tree given by its root on level `h`. -/
theorem represents_of_wf {n : ℕ} (hwf : Wf h root) (hlist : root.toList = m.entries)
    (hlen : n = m.entries.length) (hedges : 0 < h → leftmost h root ≠ [] ∧ rightmost h root ≠ []) :
    Represents ⟨root, n⟩ m := by
  obtain rfl := hwf.height_eq
  exact ⟨hwf, hlist, hlen, hedges⟩

theorem Represents.becomes {m' : OrdMap K V} {n : ℕ} (hr : Represents t m)
    (hb : Becomes t.root.height t.root root m'.entries) (hlen : n = m'.entries.length) :
    Represents ⟨root, n⟩ m' :=
  represents_of_wf hb.wf hb.list hlen fun hpos =>
    ⟨hb.edges.left (hr.edges hpos).1, hb.edges.right (hr.edges hpos).2⟩

/-! ### Reads -/

theorem entries_modify (m : OrdMap K V) (key : K) (value : V) :
    (m.modify key fun _ => value).entries = writeKV key value m.entries ∧
      (m.modify key fun _ => value).entries.length = m.entries.length := by
  rw [OrdMap.modify]
  cases hget : m.get? key with
  | none => exact ⟨(writeKV_absent value hget).symm, rfl⟩
  | some v =>
    refine ⟨?_, by rw [m.length_insert, hget]; rfl⟩
    rw [writeKV, show lookupKV key m.entries = some v from hget]
    rfl

section Calls

variable (hr : Represents t m)

include hr

theorem get_refines (key : K) : t.get key = some (m.get? key) := by
  rw [BTree.get, getInNode_spec hr.wf hr.sorted t.height_lt_depth, hr.list]
  rfl

theorem getMut_refines (key : K) (value : V) :
    ∃ t', t.getMut key value = some (m.get? key, t') ∧
      Represents t' (m.modify key fun _ => value) := by
  obtain ⟨n, heq, hb, -⟩ := getMutInNode_spec key value hr.wf hr.sorted t.height_lt_depth
  obtain ⟨hentries, hlen⟩ := entries_modify m key value
  rw [hr.list] at heq hb
  refine ⟨⟨n, t.len⟩, by rw [BTree.getMut, heq]; rfl, hr.becomes ?_ ?_⟩
  · rwa [hentries]
  · rw [hlen, hr.len]

theorem first_refines : t.first = some m.entries.head? := by
  rw [BTree.first, hr.len]
  split
  · rename_i hzero
    rw [eq_nil_of_length_eq_zero hzero]
    rfl
  rw [firstInNode_spec hr.wf t.height_lt_depth, ← hr.list]
  rcases Nat.eq_zero_or_pos t.root.height with h0 | hpos
  · obtain ⟨es, hes⟩ := (h0 ▸ hr.wf).leaf_of_zero
    simp [hes, Node.height, leftmost]
  · obtain ⟨l, hl⟩ := hr.wf.leftmost_append
    rw [hl, head?_append_of_ne_nil _ (hr.edges hpos).1]

theorem last_refines : t.last = some m.entries.getLast? := by
  rw [BTree.last, hr.len]
  split
  · rename_i hzero
    rw [eq_nil_of_length_eq_zero hzero]
    rfl
  rw [lastInNode_spec hr.wf t.height_lt_depth, ← hr.list]
  rcases Nat.eq_zero_or_pos t.root.height with h0 | hpos
  · obtain ⟨es, hes⟩ := (h0 ▸ hr.wf).leaf_of_zero
    simp [hes, Node.height, rightmost]
  · obtain ⟨l, hl⟩ := hr.wf.rightmost_append
    rw [hl, getLast?_append_of_ne_nil _ (hr.edges hpos).2]

theorem iter_refines : t.iter = some m.entries := by
  rw [BTree.iter_spec hr.wf, hr.list]

/-! ### Insertion -/

variable {key : K}

omit hr in
/-- The root the insertion descends from: not full, and with the same list. -/
theorem splitRoot_spec (hwf : Wf h root) (hclash : NoClash key root)
    (hedges : 0 < h → leftmost h root ≠ [] ∧ rightmost h root ≠ []) :
    ∃ h' root', BTree.splitRoot root = some root' ∧ Wf h' root' ∧ root'.toList = root.toList ∧
      root'.size < maxKeys ∧ NoClash key root' ∧
      (0 < h' → leftmost h' root' ≠ [] ∧ rightmost h' root' ≠ []) := by
  unfold BTree.splitRoot
  by_cases hfull : root.isFull = true
  · rw [if_pos hfull]
    obtain ⟨l, m, r, hsplit, hs⟩ := split_spec hwf hfull
    have hlt : minKeys < maxKeys := by decide
    have hnotFull : ∀ c : Node K V, c.size = minKeys → clashes key c = false := fun c hc => by
      simp [clashes, Node.isFull, hc, hlt.not_ge]
    have hne : leftmostOf h [root] ≠ [] ∧ rightmostOf h [root] ≠ [] := by
      rcases Nat.eq_zero_or_pos h with rfl | hpos
      · have hge : maxKeys ≤ root.size := by simpa [Node.isFull] using hfull
        have hpos : 0 < root.size := Nat.lt_of_lt_of_le (by decide) hge
        exact ⟨ne_nil_of_length_pos hpos, ne_nil_of_length_pos hpos⟩
      · exact hedges hpos
    refine ⟨h + 1, .internal [m] [l, r], by simp [splitChild, hsplit], wf_internal.2 ⟨?_, rfl, ?_⟩,
      by rw [toList_internal, interleave_two, hs.list], ?_, ?_,
      fun _ => ⟨hs.edges.left hne.1, hs.edges.right hne.2⟩⟩
    · show 1 ≤ maxKeys
      decide
    · intro c hc
      rcases mem_pair.1 hc with rfl | rfl
      · exact hs.left
      · exact hs.right
    · show 1 < maxKeys
      decide
    · intro c hc
      rw [descendants_internal, mem_descendantsOf] at hc
      obtain ⟨d, hd, hc⟩ := hc
      rcases mem_pair.1 hd with rfl | rfl
      · rcases hc with rfl | hc
        · exact hnotFull _ hs.leftSize
        · exact hclash c (hs.leftBelow c hc)
      · rcases hc with rfl | hc
        · exact hnotFull _ hs.rightSize
        · exact hclash c (hs.rightBelow c hc)
  · rw [if_neg hfull]
    exact ⟨h, root, rfl, hwf, rfl, by simpa [Node.isFull] using hfull, hclash, hedges⟩

/-- A new key clashes with no node. -/
theorem noClash_of_new (hnew : m.get? key = none) : NoClash key t.root := fun n hn => by
  refine Bool.eq_false_iff.2 fun hclash => ?_
  obtain ⟨⟨k, v⟩, hmid, hk⟩ := (Option.any_eq_true _ _).1 (Bool.and_eq_true_iff.1 hclash).2
  obtain rfl : k = key := of_decide_eq_true hk
  have hmem := hr.wf.mem_toList_below hn (mem_of_getElem? hmid)
  rw [hr.list, mem_entries_iff, hnew] at hmem
  cases hmem

theorem insert_refines (value : V) (hclash : NoClash key t.root) :
    ∃ t', t.insert key value = some (m.get? key, t') ∧ Represents t' (m.insert key value) := by
  obtain ⟨h, root, hsplit, hwf, hlist, hroom, hclash', hedges⟩ :=
    splitRoot_spec hr.wf hclash hr.edges
  rw [hr.list] at hlist
  have hfuel : h < root.height + 1 := by
    rw [hwf.height_eq]
    exact Nat.lt_succ_self h
  obtain ⟨n, hn⟩ := insertNonFull_spec value hwf (hlist ▸ m.sorted) hroom hclash' hfuel
  have hanswer : insertNonFull key value (root.height + 1) root = some (m.get? key, n) := by
    rw [hn.answer, hlist]
    rfl
  refine ⟨⟨n, if (m.get? key).isNone then t.len + 1 else t.len⟩, ?_, ?_⟩
  · rw [BTree.insert, hsplit]
    simp only [hanswer, Option.map_some]
  · refine represents_of_wf hn.becomes.wf ?_ ?_ fun hpos =>
      ⟨hn.becomes.edges.left (hedges hpos).1, hn.becomes.edges.right (hedges hpos).2⟩
    · rw [hn.becomes.list, hlist]
      rfl
    · rw [m.length_insert, hr.len]

/-! ### Removal -/

omit hr [LinearOrder K] in
theorem shrinkRoot_spec (hwf : Wf h root)
    (hedges : 0 < h → leftmost h root ≠ [] ∧ rightmost h root ≠ []) :
    ∃ h', Wf h' (BTree.shrinkRoot root) ∧ (BTree.shrinkRoot root).toList = root.toList ∧
      (0 < h' → leftmost h' (BTree.shrinkRoot root) ≠ [] ∧
        rightmost h' (BTree.shrinkRoot root) ≠ []) := by
  match h, root, hwf with
  | 0, .leaf es, hwf => exact ⟨0, hwf, rfl, hedges⟩
  | h + 1, .internal (e :: es) cs, hwf => exact ⟨h + 1, hwf, rfl, hedges⟩
  | h + 1, .internal [] cs, hwf =>
    obtain ⟨-, hlen, hcs⟩ := wf_internal.1 hwf
    obtain ⟨c, rfl⟩ := length_eq_one_iff.1 hlen
    refine ⟨h, (hcs c (by simp)).1, by simp [BTree.shrinkRoot], fun _ => ?_⟩
    exact hedges (Nat.succ_pos h)

theorem remove_refines (hok : RemoveOk t key) :
    ∃ t', t.remove key = some (m.get? key, t') ∧ Represents t' (m.erase key) := by
  obtain ⟨n, hn⟩ := removeFromNode_spec hr.wf hr.sorted hok.1 hok.2 t.height_lt_depth
  have hanswer : removeFromNode key t.depth t.root = some (m.get? key, n) := by
    rw [hn.answer, hr.list]
    rfl
  have hlist : n.toList = (m.erase key).entries := by
    rw [hn.list, hr.list]
    rfl
  have hedges : 0 < t.root.height →
      leftmost t.root.height n ≠ [] ∧ rightmost t.root.height n ≠ [] := fun hpos =>
    ⟨(hn.edges hpos).left (hr.edges hpos).1, (hn.edges hpos).right (hr.edges hpos).2⟩
  cases hget : m.get? key with
  | none =>
    refine ⟨⟨n, t.len⟩, by rw [BTree.remove, hanswer, hget], ?_⟩
    refine represents_of_wf hn.wf hlist ?_ hedges
    rw [erase_eq_self hget, hr.len]
  | some v =>
    obtain ⟨h, hwf, hsame, hedges'⟩ := shrinkRoot_spec hn.wf hedges
    refine ⟨⟨BTree.shrinkRoot n, t.len - 1⟩, by rw [BTree.remove, hanswer, hget], ?_⟩
    refine represents_of_wf hwf (hsame.trans hlist) ?_ hedges'
    rw [length_erase hget, hr.len]

/-! ### Retaining -/

theorem removeAll_refines {keys : List K} (hok : OkRun RemoveOk BTree.remove t keys) :
    ∃ t', t.removeAll keys = some t' ∧ Represents t' (keys.foldl OrdMap.erase m) := by
  induction keys generalizing t m with
  | nil => exact ⟨t, rfl, hr⟩
  | cons key keys ih =>
    obtain ⟨t1, hremove, hr1⟩ := remove_refines hr hok.1
    obtain ⟨t2, hall, hr2⟩ := ih hr1 (hok.2 _ _ hremove)
    exact ⟨t2, by rw [BTree.removeAll, hremove]; exact hall, hr2⟩

theorem retain_refines {p : K → V → Bool}
    (hok : OkRun RemoveOk BTree.remove t (dropped p t.root.toList)) :
    ∃ t', t.retain p = some t' ∧ Represents t' (m.filter p) := by
  rw [hr.list] at hok
  obtain ⟨t', hall, hr'⟩ := removeAll_refines hr hok
  rw [dropped, foldl_erase_filter] at hr'
  refine ⟨t', ?_, hr'⟩
  rw [BTree.retain, iter_refines hr]
  exact hall

/-- A safe call answers as the map does and leaves a tree that represents the
new map. -/
theorem call_refines {op : MapOp K V} (hok : CallOk t op) :
    ∃ t', t.call op = some ((mapCall m op).1, t') ∧ Represents t' (mapCall m op).2 := by
  cases op with
  | insert key value =>
    obtain ⟨t', heq, hr'⟩ := insert_refines hr value hok
    exact ⟨t', by rw [BTree.call, heq]; rfl, hr'⟩
  | remove key =>
    obtain ⟨t', heq, hr'⟩ := remove_refines hr hok
    exact ⟨t', by rw [BTree.call, heq]; rfl, hr'⟩
  | get key => exact ⟨t, by rw [BTree.call, get_refines hr]; rfl, hr⟩
  | getMut key value =>
    obtain ⟨t', heq, hr'⟩ := getMut_refines hr key value
    exact ⟨t', by rw [BTree.call, heq]; rfl, hr'⟩
  | first => exact ⟨t, by rw [BTree.call, first_refines hr]; rfl, hr⟩
  | last => exact ⟨t, by rw [BTree.call, last_refines hr]; rfl, hr⟩
  | iter => exact ⟨t, by rw [BTree.call, iter_refines hr]; rfl, hr⟩
  | retain p =>
    obtain ⟨t', heq, hr'⟩ := retain_refines hr hok
    exact ⟨t', by rw [BTree.call, heq]; rfl, hr'⟩
  | len => exact ⟨t, by rw [BTree.call, hr.len]; rfl, hr⟩

end Calls

/-! ### Runs -/

/-- In every run of safe calls from the empty tree, no call panics and the
answers are those of a finite ordered map. -/
theorem btree_refines_map (ops : List (MapOp K V)) (hok : OkRun CallOk BTree.call BTree.new ops) :
    ∃ t, runOps BTree.call BTree.new ops = some (answers mapCall OrdMap.empty ops, t) :=
  runOps_refines (f := BTree.call) (g := mapCall)
    (fun _ _ _ hr hcall => call_refines hr hcall) ops _ _ represents_new hok

/-- Ascending keys, with values to tell two writes of one key apart. -/
def ascending (n : ℕ) : List (MapOp ℕ ℕ) := (range n).map fun k => .insert k k

theorem btree_refines_map_sixteen :
    OkRun CallOk BTree.call (BTree.new : BTree ℕ ℕ)
        (ascending 16 ++ [.insert 7 99, .remove 3, .get 7, .getMut 8 5, .first, .last,
          .retain fun k _ => k % 2 = 0, .len, .iter]) ∧
      ∃ t, runOps BTree.call BTree.new
          (ascending 16 ++ [.insert 7 99, .remove 3, .get 7, .getMut 8 5, .first, .last,
            .retain fun k _ => k % 2 = 0, .len, .iter])
        = some (answers mapCall OrdMap.empty
          (ascending 16 ++ [.insert 7 99, .remove 3, .get 7, .getMut 8 5, .first, .last,
            .retain fun k _ => k % 2 = 0, .len, .iter]), t) :=
  ⟨by decide +kernel, btree_refines_map _ (by decide +kernel)⟩

/-- After the keys 0 to 22 the right leaf is full, with 15 in the middle.
Inserting 15 again splits it, and a second entry for 15 goes into the left half:
the call answers that there was none, and 15 is counted and listed twice. -/
theorem insert_median_again_duplicates :
    (runOps BTree.call (BTree.new : BTree ℕ ℕ) (ascending 23 ++ [.insert 15 99, .len])).map
        (fun r => r.1.drop 23) = some [.value none, .count 24] ∧
      (answers mapCall OrdMap.empty (ascending 23 ++ [.insert 15 99, .len])).drop 23
        = [.value (some 15), .count 23] := by
  constructor <;> decide +kernel

-- Each removal takes the successor of the root's key from the same leaf, until it is empty.
example : runOps BTree.call (BTree.new : BTree ℕ ℕ)
    (ascending 150 ++ (range 8).map fun i => .remove (63 + i)) |>.isNone := by
  decide +kernel

-- Removals of absent keys merge the children of the root and then those of its only child.
example : runOps BTree.call (BTree.new : BTree ℕ ℕ)
    ((range 128).map (fun k => .insert (2 * k) k) ++ [.remove 254, .insert 0 0] ++
      (range 9).map fun i => .remove (32 * i + 19)) |>.isNone := by
  decide +kernel

def BTree.after (t : BTree K V) (op : MapOp K V) : Option (BTree K V) := (t.call op).map Prod.snd

/-- In every run of safe calls the tree stays balanced and its height
logarithmic in its size. -/
theorem height_logarithmic {ops : List (MapOp K V)}
    (hrun : Run (Guarded CallOk (ofPartial BTree.after)) BTree.new ops t) :
    Wf t.root.height t.root ∧ (minKeys + 1) ^ (t.root.height - 1) ≤ t.len + 1 := by
  obtain ⟨m, hr⟩ : ∃ m, Represents t m := by
    refine hrun.invariant (fun t => ∃ m, Represents t m) ?_ ⟨_, represents_new⟩
    rintro t op t' ⟨m, hr⟩ ⟨hok, hcall⟩
    obtain ⟨t1, heq, hr1⟩ := call_refines hr hok
    rw [ofPartial, BTree.after, heq] at hcall
    cases hcall
    exact ⟨_, hr1⟩
  have hwf := hr.wf
  refine ⟨hwf, ?_⟩
  rw [hr.len, ← hr.list]
  generalize t.root.height = h at hwf
  cases h with
  | zero => exact Nat.le_add_left ..
  | succ h => exact (Nat.le_mul_of_pos_right _ (Nat.succ_pos _)).trans hwf.pow_le

theorem height_logarithmic_ascending :
    ∃ t : BTree ℕ ℕ, Run (Guarded CallOk (ofPartial BTree.after)) BTree.new (ascending 16) t ∧
      t.root.height = 1 ∧ Wf t.root.height t.root :=
  Run.exists_of_exec (by decide +kernel) fun _ hrun h => ⟨h, (height_logarithmic hrun).1⟩

end JanuaryOs.Libs.Btree

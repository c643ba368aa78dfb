import JanuaryOs.Lib.DigitMap
import JanuaryOs.Lib.Trace
import JanuaryOs.Libs.Rdtree.Tree

/-!
# The point operations of the radix tree answer as an ordered map does

`Node.items` reads off what is stored below a node, with keys relative to the
node: one block per slot, so that everything about a level is an instance of
`blocks`. `Node.Wf` says that values stand at level zero and nodes above it, and
that every count is the number of items. It says nothing about nodes being
non-empty: growing an empty tree leaves empty nodes behind in slot zero, and
they stay until a key is put there.
-/

namespace JanuaryOs.Libs.Rdtree

open Lib Function OrdMap
open List hiding length_insert length_erase

variable {V : Type*} {level : ℕ}

/-! ### Keys and their digits -/

theorem keyIndex_val (key level : ℕ) : (keyIndex key level : ℕ) = key / 64 ^ level % 64 := by
  have hpow : (2 : ℕ) ^ (level * 6) = 64 ^ level := by
    rw [Nat.mul_comm, Nat.pow_mul]
  have hmask : ∀ x : ℕ, x &&& 63 = x % 64 := fun x => Nat.and_two_pow_sub_one_eq_mod x 6
  show (key >>> (level * 6)) &&& 63 = _
  rw [hmask, Nat.shiftRight_eq_div_pow, hpow]

/-- The last digits of a key: one digit in front of those of the level below. -/
theorem mod_pow_eq_digit (key level : ℕ) :
    key % 64 ^ (level + 1) = (keyIndex key level : ℕ) * 64 ^ level + key % 64 ^ level := by
  rw [keyIndex_val, Nat.mod_pow_succ, Nat.mul_comm (64 ^ level), Nat.add_comm]

theorem mod_pow_lt (key level : ℕ) : key % 64 ^ level < 64 ^ level :=
  Nat.mod_lt _ (Nat.pow_pos (by decide))

/-- A tree is high enough for a key if the key has no more digits than levels. -/
theorem heightForKey_le_iff {key height : ℕ} (hkey : key < 2 ^ 64) :
    heightForKey key ≤ height ↔ 0 < height ∧ key < 64 ^ height := by
  have hpow : (64 : ℕ) ^ height = 2 ^ (6 * height) := by
    rw [Nat.pow_mul]
  unfold heightForKey leadingZeros
  by_cases hzero : key = 0
  · subst hzero
    simp only [if_true]
    exact ⟨fun h => ⟨h, Nat.pow_pos (by decide)⟩, fun h => h.1⟩
  have hlog : key.log2 < 64 := (Nat.log2_lt hzero).2 hkey
  have hlt : key < 64 ^ height ↔ key.log2 < 6 * height := by
    rw [hpow, Nat.log2_lt hzero]
  rw [if_neg hzero, if_neg hzero, hlt]
  simp only [SHIFT]
  omega

/-! ### What is stored below a node -/

namespace Node

/-- The value of a slot at level zero. -/
def leaf : Option (Slot V) → List (ℕ × V)
  | some (.value v) => [(0, v)]
  | _ => []

/-- The items of a slot above level zero. -/
def inner (items : Node V → List (ℕ × V)) : Option (Slot V) → List (ℕ × V)
  | some (.node child) => items child
  | _ => []

/-- The items below a node in ascending order, with keys relative to the node. -/
def items : ℕ → Node V → List (ℕ × V)
  | 0, node => blocks (64 ^ 0) fun i => leaf (node.slots i)
  | level + 1, node => blocks (64 ^ (level + 1)) fun i => inner (items level) (node.slots i)

/-- The items of a slot, with keys relative to the slot. -/
def slotItems : ℕ → Option (Slot V) → List (ℕ × V)
  | 0 => leaf
  | level + 1 => inner (items level)

theorem items_eq (level : ℕ) (node : Node V) :
    items level node = blocks (64 ^ level) fun i => slotItems level (node.slots i) := by
  cases level <;> rfl

/-- A slot of level zero holds no node. -/
def LeafWf (s : Option (Slot V)) : Prop := ∀ c, s ≠ some (.node c)

/-- A slot above level zero holds no value, and what it holds is right. -/
def InnerWf (Wf : Node V → Prop) (s : Option (Slot V)) : Prop :=
  (∀ v, s ≠ some (.value v)) ∧ ∀ c, s = some (.node c) → Wf c

/-- Values stand at level zero, nodes above, and the counts are right. -/
def Wf : ℕ → Node V → Prop
  | 0, node => (∀ i, LeafWf (node.slots i)) ∧ node.count = (items 0 node).length
  | level + 1, node =>
    (∀ i, InnerWf (Wf level) (node.slots i)) ∧ node.count = (items (level + 1) node).length

/-- A slot that is right at its level. -/
def SlotWf : ℕ → Option (Slot V) → Prop
  | 0 => LeafWf
  | level + 1 => InnerWf (Wf level)

variable {node : Node V}

theorem wf_iff :
    Wf level node ↔
      (∀ i, SlotWf level (node.slots i)) ∧ node.count = (items level node).length := by
  cases level <;> exact Iff.rfl

theorem slotWf_none (level : ℕ) : SlotWf level (none : Option (Slot V)) := by
  cases level with
  | zero => exact nofun
  | succ level => exact ⟨nofun, nofun⟩

theorem slotWf_value (v : V) : SlotWf 0 (some (.value v)) := fun c hc => by cases hc

theorem slotWf_node {c : Node V} (h : Wf level c) : SlotWf (level + 1) (some (.node c)) := by
  constructor
  · intro v hv
    cases hv
  · intro d hd
    cases hd
    exact h

theorem slotItems_none (level : ℕ) : slotItems level (none : Option (Slot V)) = [] := by
  cases level <;> rfl

theorem blockKV_slotItems (level : ℕ) (s : Option (Slot V)) :
    BlockKV (64 ^ level) (slotItems level s) := by
  induction level generalizing s with
  | zero =>
    show BlockKV _ (leaf s)
    unfold leaf
    split
    · exact ⟨pairwise_singleton _ _, by simp [BelowKV]⟩
    · exact .nil _
  | succ level ih =>
    show BlockKV _ (inner _ s)
    unfold inner
    split
    · rw [items_eq, Nat.pow_succ, Nat.mul_comm]
      exact blockKV_blocks fun i => ih _
    · exact .nil _

theorem blockKV_items (level : ℕ) (node : Node V) :
    BlockKV (64 ^ (level + 1)) (items level node) := by
  rw [items_eq, Nat.pow_succ, Nat.mul_comm]
  exact blockKV_blocks fun i => blockKV_slotItems level _

theorem items_new (level : ℕ) : items level (new : Node V) = [] := by
  rw [items_eq]
  simp [new, slotItems_none, blocks, shiftKV]

theorem wf_new (level : ℕ) : Wf level (new : Node V) :=
  wf_iff.2 ⟨fun _ => slotWf_none level, by rw [items_new]; rfl⟩

/-! ### One slot is exchanged -/

variable {s : Option (Slot V)} {base : ℕ}

section Exchange

variable {count : ℕ}

theorem items_update (i : Fin RADIX) (s : Option (Slot V)) (count : ℕ) :
    items level ⟨update node.slots i s, count⟩ =
      blocks (64 ^ level)
        (update (fun i => slotItems level (node.slots i)) i (slotItems level s)) := by
  rw [items_eq]
  refine congrArg (blocks _) (funext fun j => ?_)
  by_cases hj : j = i
  · subst hj
    simp only [update_self]
  · simp only [update_of_ne hj]

theorem wf_update (h : Wf level node) (i : Fin RADIX) (hs : SlotWf level s)
    (hcount : count = (items level ⟨update node.slots i s, count⟩).length) :
    Wf level ⟨update node.slots i s, count⟩ := by
  refine wf_iff.2 ⟨fun j => ?_, hcount⟩
  by_cases hj : j = i
  · subst hj
    simpa only [update_self] using hs
  · simpa only [update_of_ne hj] using (wf_iff.1 h).1 j

theorem lookupKV_items (level : ℕ) (node : Node V) (key : ℕ) :
    lookupKV (key % 64 ^ (level + 1)) (items level node) =
      lookupKV (key % 64 ^ level) (slotItems level (node.slots (keyIndex key level))) := by
  rw [items_eq, mod_pow_eq_digit]
  exact lookupKV_blocks (fun i => blockKV_slotItems level _) _ (mod_pow_lt key level)

theorem insert_slot (h : Wf level node) (key : ℕ) (v : V) (hs : SlotWf level s)
    (hitems : slotItems level s =
      insertKV (key % 64 ^ level) v (slotItems level (node.slots (keyIndex key level))))
    (hcount : count = if (lookupKV (key % 64 ^ (level + 1)) (items level node)).isNone
      then node.count + 1 else node.count) :
    Wf level ⟨update node.slots (keyIndex key level) s, count⟩ ∧
      items level ⟨update node.slots (keyIndex key level) s, count⟩ =
        insertKV (key % 64 ^ (level + 1)) v (items level node) := by
  have hnew : items level ⟨update node.slots (keyIndex key level) s, count⟩ =
      insertKV (key % 64 ^ (level + 1)) v (items level node) := by
    rw [items_update, hitems, items_eq, mod_pow_eq_digit, insertKV_blocks
      (fun i => blockKV_slotItems level _) _ (mod_pow_lt key level)]
  refine ⟨wf_update h _ hs ?_, hnew⟩
  have hlen := length_insert ⟨items level node, (blockKV_items level node).sorted⟩
    (key % 64 ^ (level + 1)) v
  rw [hcount, (wf_iff.1 h).2] at *
  rw [hnew]
  exact hlen.symm

theorem erase_slot (h : Wf level node) (key : ℕ) {v : V} (hs : SlotWf level s)
    (hitems : slotItems level s =
      eraseKV (key % 64 ^ level) (slotItems level (node.slots (keyIndex key level))))
    (hv : lookupKV (key % 64 ^ (level + 1)) (items level node) = some v) :
    Wf level ⟨update node.slots (keyIndex key level) s, node.count - 1⟩ ∧
      items level ⟨update node.slots (keyIndex key level) s, node.count - 1⟩ =
        eraseKV (key % 64 ^ (level + 1)) (items level node) := by
  have hnew : items level ⟨update node.slots (keyIndex key level) s, node.count - 1⟩ =
      eraseKV (key % 64 ^ (level + 1)) (items level node) := by
    rw [items_update, hitems, items_eq, mod_pow_eq_digit, eraseKV_blocks
      (fun i => blockKV_slotItems level _) _ (mod_pow_lt key level)]
  refine ⟨wf_update h _ hs ?_, hnew⟩
  have hlen := length_erase (m := ⟨items level node, (blockKV_items level node).sorted⟩) hv
  rw [hnew, (wf_iff.1 h).2]
  exact hlen.symm

end Exchange

/-! ### The functions on nodes -/

theorem lookupKV_leaf_some {v : V} (h : s = some (.value v)) (key : ℕ) :
    lookupKV (key % 64 ^ 0) (slotItems 0 s) = some v := by
  subst h
  simp [slotItems, leaf, lookupKV, Nat.mod_one]

theorem getAt_eq (key level : ℕ) (node : Node V) :
    getAt key level node = lookupKV (key % 64 ^ (level + 1)) (items level node) := by
  induction level generalizing node with
  | zero =>
    rw [lookupKV_items, getAt]
    rcases hcase : node.slots (keyIndex key 0) with _ | c | v
    · rfl
    · rfl
    · rw [lookupKV_leaf_some rfl]
  | succ level ih =>
    rw [lookupKV_items, getAt]
    rcases hcase : node.slots (keyIndex key (level + 1)) with _ | c | v
    · rfl
    · exact ih c
    · rfl

theorem slot_zero (h : Wf 0 node) (key : ℕ) :
    node.slots (keyIndex key 0) = none ∧ lookupKV (key % 64 ^ (0 + 1)) (items 0 node) = none ∨
      ∃ v, node.slots (keyIndex key 0) = some (.value v) ∧
        lookupKV (key % 64 ^ (0 + 1)) (items 0 node) = some v := by
  rw [lookupKV_items]
  rcases hcase : node.slots (keyIndex key 0) with _ | c | v
  · exact .inl ⟨rfl, rfl⟩
  · exact absurd hcase ((wf_iff.1 h).1 _ c)
  · exact .inr ⟨v, rfl, lookupKV_leaf_some rfl key⟩

theorem slot_succ (h : Wf (level + 1) node) (key : ℕ) :
    node.slots (keyIndex key (level + 1)) = none ∧
        lookupKV (key % 64 ^ (level + 1 + 1)) (items (level + 1) node) = none ∨
      ∃ c, node.slots (keyIndex key (level + 1)) = some (.node c) ∧ Wf level c ∧
        lookupKV (key % 64 ^ (level + 1 + 1)) (items (level + 1) node) =
          lookupKV (key % 64 ^ (level + 1)) (items level c) := by
  rw [lookupKV_items]
  rcases hcase : node.slots (keyIndex key (level + 1)) with _ | c | v
  · exact .inl ⟨rfl, rfl⟩
  · exact .inr ⟨c, rfl, ((wf_iff.1 h).1 _).2 c hcase, rfl⟩
  · exact absurd hcase (((wf_iff.1 h).1 _).1 v)

/-- `insert_at` never panics on a well-formed node; it answers the old value and
inserts the last digits of the key. -/
theorem insertAt_eq (key : ℕ) (v : V) (h : Wf level node) :
    ∃ node', insertAt key v level node =
        some (lookupKV (key % 64 ^ (level + 1)) (items level node), node') ∧ Wf level node' ∧
      items level node' = insertKV (key % 64 ^ (level + 1)) v (items level node) := by
  induction level generalizing node with
  | zero =>
    rw [insertAt]
    rcases slot_zero h key with ⟨hcase, hold⟩ | ⟨w, hcase, hold⟩
    all_goals
      rw [hcase, hold]
      refine ⟨_, rfl, insert_slot h key v (slotWf_value v) ?_ (by rw [hold]; rfl)⟩
      rw [hcase]
      simp [slotItems, leaf, insertKV, Nat.mod_one]
  | succ level ih =>
    -- a new child has no items, so both cases of the slot look the same
    have hchild : Wf level (childOrNew (node.slots (keyIndex key (level + 1)))) ∧
        slotItems (level + 1) (node.slots (keyIndex key (level + 1))) =
          items level (childOrNew (node.slots (keyIndex key (level + 1)))) := by
      rcases slot_succ h key with ⟨hcase, -⟩ | ⟨c, hcase, hwf, -⟩
      · rw [hcase]
        exact ⟨wf_new level, (items_new level).symm⟩
      · rw [hcase]
        exact ⟨hwf, rfl⟩
    obtain ⟨hwf, hslot⟩ := hchild
    obtain ⟨child', hins, hwf', hitems⟩ := ih hwf
    rw [← hslot, ← lookupKV_items] at hins
    rw [insertAt]
    simp only [hins]
    refine ⟨_, rfl, ?_⟩
    cases hnone : (lookupKV (key % 64 ^ (level + 1 + 1)) (items (level + 1) node)).isNone
    all_goals
      exact insert_slot h key v (slotWf_node hwf') (by rw [hslot]; exact hitems)
        (by rw [hnone]; rfl)

/-- `remove_at` never panics on a well-formed node; it answers the value and
erases the last digits of the key. -/
theorem removeAt_eq (key : ℕ) (h : Wf level node) :
    ∃ node', removeAt key level node =
        some (lookupKV (key % 64 ^ (level + 1)) (items level node), node') ∧ Wf level node' ∧
      items level node' = eraseKV (key % 64 ^ (level + 1)) (items level node) := by
  have hkeep : ∀ {level : ℕ} {node : Node V}, Wf level node →
      lookupKV (key % 64 ^ (level + 1)) (items level node) = none →
      Wf level node ∧ items level node = eraseKV (key % 64 ^ (level + 1)) (items level node) :=
    fun hwf hnone => ⟨hwf, (eraseKV_eq_self (lookupKV_eq_none.1 hnone)).symm⟩
  induction level generalizing node with
  | zero =>
    rw [removeAt]
    rcases slot_zero h key with ⟨hcase, hold⟩ | ⟨w, hcase, hold⟩
    · rw [hcase, hold]
      exact ⟨_, rfl, hkeep h hold⟩
    rw [hcase, hold]
    refine ⟨_, rfl, erase_slot h key (slotWf_none 0) ?_ hold⟩
    rw [hcase]
    simp [slotItems, leaf, eraseKV, Nat.mod_one]
  | succ level ih =>
    rw [removeAt]
    rcases slot_succ h key with ⟨hcase, hold⟩ | ⟨child, hcase, hwf, hold⟩
    · rw [hcase, hold]
      exact ⟨_, rfl, hkeep h hold⟩
    obtain ⟨child', hrem, hwf', hitems⟩ := ih hwf
    rw [← hold] at hrem
    simp only [hcase, hrem]
    cases hv : lookupKV (key % 64 ^ (level + 1 + 1)) (items (level + 1) node) with
    | none => exact ⟨_, rfl, hkeep h hv⟩
    | some v =>
      refine ⟨_, rfl, ?_⟩
      by_cases hempty : child'.count = 0
      · -- the child has been emptied, so nothing is lost with it
        have hnil : items level child' = [] :=
          length_eq_zero_iff.1 ((wf_iff.1 hwf').2 ▸ hempty)
        simp only [if_pos hempty]
        refine erase_slot h key (slotWf_none _) ?_ hv
        rw [hcase, slotItems_none, ← hnil]
        exact hitems
      · simp only [if_neg hempty]
        refine erase_slot h key (slotWf_node hwf') ?_ hv
        rw [hcase]
        exact hitems

/-- A write through the reference of `get_mut_at` leaves what inserting its
value leaves; nothing is written if `get_at` finds nothing. -/
theorem getMutAt_eq (key : ℕ) (write : V → V) (level : ℕ) (node : Node V) :
    getAt key level node = none ∧ getMutAt key write level node = (none, node) ∨
      ∃ v node', getAt key level node = some v ∧
        getMutAt key write level node = (some v, node') ∧
        insertAt key (write v) level node = some (some v, node') := by
  induction level generalizing node with
  | zero =>
    rw [getAt, getMutAt]
    rcases hcase : node.slots (keyIndex key 0) with _ | c | v
    · exact .inl ⟨rfl, rfl⟩
    · exact .inl ⟨rfl, rfl⟩
    · exact .inr ⟨v, _, rfl, rfl, by rw [insertAt, hcase]⟩
  | succ level ih =>
    rw [getAt, getMutAt]
    rcases hcase : node.slots (keyIndex key (level + 1)) with _ | c | v
    · exact .inl ⟨rfl, rfl⟩
    · rcases ih c with ⟨hget, hmut⟩ | ⟨v, child', hget, hmut, hins⟩
      · exact .inl ⟨hget, by simp only [hmut, setSlot, ← hcase, update_eq_self]⟩
      · simp only [hmut, insertAt, hcase, childOrNew]
        exact .inr ⟨v, _, hget, rfl, by rw [hins]; rfl⟩
    · exact .inl ⟨rfl, rfl⟩

/-! ### The key of an item -/

/-- The key that is put together on the way down to an item. -/
def keyFrom : ℕ → ℕ → ℕ → ℕ
  | 0, base, k => slotKey base 0 (keyIndex k 0)
  | level + 1, base, k =>
    keyFrom level (slotKey base (level + 1) (keyIndex k (level + 1))) (k % 64 ^ (level + 1))

theorem keyIndex_digit (d : Fin RADIX) {r : ℕ} (hr : r < 64 ^ level) :
    keyIndex (d * 64 ^ level + r) level = d := by
  refine Fin.ext ?_
  rw [keyIndex_val, Nat.mul_comm, Nat.mul_add_div (by omega), Nat.div_eq_of_lt hr, Nat.add_zero]
  exact Nat.mod_eq_of_lt d.isLt

theorem keyFrom_digit (d : Fin RADIX) {r : ℕ} (hr : r < 64 ^ (level + 1)) :
    keyFrom (level + 1) base (d * 64 ^ (level + 1) + r) =
      keyFrom level (slotKey base (level + 1) d) r := by
  rw [keyFrom, keyIndex_digit d hr, Nat.mul_add_mod_of_lt hr]

theorem slotKey_eq {i : Fin RADIX} (hbase : 64 ^ (level + 1) ∣ base)
    (hlt : (i : ℕ) * 64 ^ level < 2 ^ 64) : slotKey base level i = base + i * 64 ^ level := by
  have hpow : ∀ n : ℕ, (64 : ℕ) ^ n = 2 ^ (6 * n) := fun n => by rw [Nat.pow_mul]
  have hshift : (i : ℕ) <<< (level * SHIFT) = i * 64 ^ level := by
    rw [Nat.shiftLeft_eq, hpow, Nat.mul_comm level]
  obtain ⟨a, rfl⟩ := hbase
  rw [slotKey, hshift, Nat.mod_eq_of_lt hlt, hpow (level + 1), ← Nat.two_pow_add_eq_or_of_lt]
  rw [← hpow, Nat.pow_succ, Nat.mul_comm (64 ^ level)]
  exact Nat.mul_lt_mul_of_pos_right i.isLt (Nat.pow_pos (by decide))

theorem keyFrom_eq {k : ℕ} (hbase : 64 ^ (level + 1) ∣ base) (hk : k < 64 ^ (level + 1))
    (hlt : base + k < 2 ^ 64) : keyFrom level base k = base + k := by
  induction level generalizing base k with
  | zero =>
    have hdigit := mod_pow_eq_digit k 0
    rw [Nat.mod_eq_of_lt hk] at hdigit
    simp only [Nat.pow_zero, Nat.mod_one, Nat.mul_one, Nat.add_zero] at hdigit
    rw [keyFrom, slotKey_eq hbase (by rw [Nat.pow_zero]; omega)]
    omega
  | succ level ih =>
    have hdigit := mod_pow_eq_digit k (level + 1)
    rw [Nat.mod_eq_of_lt hk] at hdigit
    have hslot := slotKey_eq (i := keyIndex k (level + 1)) hbase (by omega)
    rw [keyFrom, hslot, ih _ (mod_pow_lt k (level + 1)) (by omega)]
    · omega
    · refine (Nat.dvd_add_right ?_).2 (Nat.dvd_mul_left _ _)
      exact Nat.dvd_trans (Nat.pow_dvd_pow 64 (Nat.le_succ _)) hbase

section Ends

variable {ends : List (ℕ × V) → Option (ℕ × V)} {order : List (Fin RADIX)}
  (hblocks : ∀ width (f : Fin RADIX → List (ℕ × V)), ends (blocks width f) =
    order.findSome? fun d => (ends (f d)).map fun e => (d * width + e.1, e.2))
  (hnil : ends [] = none) (hone : ∀ e, ends [e] = some e) (hmem : ∀ l e, ends l = some e → e ∈ l)
  {find : ℕ → ℕ → Node V → Option (ℕ × V)}
  (hzero : ∀ base node, find 0 base node = order.findSome? fun d =>
    match node.slots d with
    | some (.value v) => some (slotKey base 0 d, v)
    | _ => none)
  (hsucc : ∀ level base node, find (level + 1) base node = order.findSome? fun d =>
    match node.slots d with
    | some (.node c) => find level (slotKey base (level + 1) d) c
    | _ => none)
include hblocks hnil hone hmem hzero hsucc

/-- `find_first` and `find_last` find an end of the items: above level zero it
is that of a child. -/
theorem find_eq (level base : ℕ) (node : Node V) :
    find level base node = (ends (items level node)).map fun e =>
      (keyFrom level base e.1, e.2) := by
  induction level generalizing base node with
  | zero =>
    rw [items_eq, hblocks, map_findSome?, hzero]
    refine congrArg (findSome? · _) (funext fun d => ?_)
    rcases hcase : node.slots d with _ | c | v
    · simp [hcase, slotItems, leaf, hnil]
    · simp [hcase, slotItems, leaf, hnil]
    · have hdigit : keyIndex (d * 64 ^ 0 + 0) 0 = d := keyIndex_digit d (by decide)
      simp only [comp_apply, hcase, slotItems, leaf, hone, Option.map_some, keyFrom, hdigit]
  | succ level ih =>
    rw [items_eq, hblocks, map_findSome?, hsucc]
    refine congrArg (findSome? · _) (funext fun d => ?_)
    rcases hcase : node.slots d with _ | c | v
    · simp [hcase, slotItems, inner, hnil]
    · simp only [comp_apply, hcase, slotItems, inner, Option.map_map, ih]
      refine Option.map_congr fun e he => ?_
      have hlt := (blockKV_items level c).below e (hmem _ e he)
      simp only [comp_apply, keyFrom_digit d hlt]
    · simp [hcase, slotItems, inner, hnil]

end Ends

theorem findFirst_eq (level base : ℕ) (node : Node V) : findFirst level base node =
    (items level node).head?.map fun e => (keyFrom level base e.1, e.2) :=
  find_eq (fun _ _ => head?_blocks) rfl (fun _ => rfl) (fun _ _ => mem_of_head?)
    (fun _ _ => rfl) (fun _ _ _ => rfl) level base node

theorem findLast_eq (level base : ℕ) (node : Node V) : findLast level base node =
    (items level node).getLast?.map fun e => (keyFrom level base e.1, e.2) :=
  find_eq (fun _ _ => getLast?_blocks) rfl (fun _ => rfl) (fun _ _ => mem_of_getLast?)
    (fun _ _ => rfl) (fun _ _ _ => rfl) level base node

end Node

/-! ### The tree -/

namespace RadixTree

def contents (t : RadixTree V) : List (ℕ × V) :=
  match t.root with
  | none => []
  | some root => root.items (t.height - 1)

/-- The root is right for the height, the length is the number of entries and
the keys fit in a `usize`. -/
structure Sound (t : RadixTree V) : Prop where
  shape : t.root = none ∧ t.height = 0 ∨
    ∃ root level, t.root = some root ∧ t.height = level + 1 ∧ root.Wf level
  len_eq : t.len = t.contents.length
  fits : BelowKV (2 ^ 64) t.contents

/-- The tree holds the map `m`. -/
def Holds (t : RadixTree V) (m : OrdMap ℕ V) : Prop := Sound t ∧ t.contents = m.entries

variable {t : RadixTree V}

theorem contents_none (h : t.root = none) : t.contents = [] := by
  rw [contents, h]

variable {root : Node V} {m : OrdMap ℕ V}

theorem contents_some (h : t.root = some root) (hlevel : t.height = level + 1) :
    t.contents = root.items level := by
  rw [contents, h, hlevel]
  rfl

theorem blockKV_contents (h : Sound t) : BlockKV (64 ^ t.height) t.contents := by
  rcases h.shape with ⟨hroot, -⟩ | ⟨root, level, hroot, hheight, -⟩
  · rw [contents_none hroot]
    exact .nil _
  · rw [contents_some hroot hheight, hheight]
    exact Node.blockKV_items level root

theorem sound_new : Sound (new : RadixTree V) := ⟨.inl ⟨rfl, rfl⟩, rfl, nofun⟩

theorem holds_new : Holds (new : RadixTree V) OrdMap.empty := ⟨sound_new, rfl⟩

theorem grow_sound (h : Sound t) : Sound t.grow ∧ t.grow.contents = t.contents := by
  have hcontents : t.grow.contents = t.contents ∧
      ∃ root, t.grow.root = some root ∧ root.Wf t.height := by
    rcases h.shape with ⟨hroot, hheight⟩ | ⟨root, level, hroot, hheight, hwf⟩
    · refine ⟨?_, Node.new, by simp only [grow, hroot], Node.wf_new _⟩
      have hnew : t.grow.root = some Node.new := by simp only [grow, hroot]
      rw [contents_none hroot, contents_some hnew rfl, Node.items_new]
    have hitems : ∀ count, Node.items (level + 1)
        ⟨update (Node.new : Node V).slots 0 (some (.node root)), count⟩ =
          root.items level := by
      intro count
      have hzero : ∀ i : Fin RADIX, i ≠ 0 → Node.slotItems (level + 1)
          (update (Node.new : Node V).slots 0 (some (.node root)) i) = [] := by
        intro i hi
        rw [update_of_ne hi]
        exact Node.slotItems_none _
      rw [Node.items_eq, blocks, finRange_succ, flatMap_cons, flatMap_map,
        flatMap_eq_nil_iff.2 fun i _ => ?_]
      · simp [shiftKV, Node.slotItems, Node.inner]
      · simp only [hzero _ (Fin.succ_ne_zero i)]
        rfl
    have hlen : t.len = (root.items level).length := by
      rw [h.len_eq, contents_some hroot hheight]
    have hnew : t.grow.root =
        some ⟨update Node.new.slots 0 (some (.node root)), t.len⟩ := by
      simp only [grow, hroot, Node.setSlot]
    have hgrown : t.grow.height = level + 1 + 1 := by simp only [grow, hheight]
    refine ⟨?_, _, hnew, ?_⟩
    · rw [contents_some hroot hheight, contents_some hnew hgrown, hitems]
    · rw [hheight]
      refine Node.wf_update (Node.wf_new _) 0 (Node.slotWf_node hwf) ?_
      rw [hitems, hlen]
  obtain ⟨hsame, root, hroot, hwf⟩ := hcontents
  refine ⟨⟨.inr ⟨root, t.height, hroot, rfl, hwf⟩, ?_, ?_⟩, hsame⟩
  · rw [hsame]
    exact h.len_eq
  · rw [hsame]
    exact h.fits

theorem ensureHeight_sound (h : Sound t) (height : ℕ) :
    Sound (t.ensureHeight height) ∧ (t.ensureHeight height).contents = t.contents ∧
      (t.ensureHeight height).height = max t.height height := by
  have hiter : ∀ n, Sound (grow^[n] t) ∧ (grow^[n] t).contents = t.contents ∧
      (grow^[n] t).height = t.height + n := by
    intro n
    induction n with
    | zero => exact ⟨h, rfl, rfl⟩
    | succ n ih =>
      rw [iterate_succ_apply']
      obtain ⟨hsound, hsame⟩ := grow_sound ih.1
      refine ⟨hsound, hsame.trans ih.2.1, ?_⟩
      show (grow^[n] t).height + 1 = _
      rw [ih.2.2]
      omega
  obtain ⟨hsound, hsame, hheight⟩ := hiter (height - t.height)
  refine ⟨hsound, hsame, ?_⟩
  rw [ensureHeight, hheight]
  omega

section Operations

variable {key : ℕ} {e : ℕ × V}

/-- Either the tree is too low for a key, and then does not hold it, or the key
has as many digits as there are levels below the root. -/
theorem low_or_reaches (h : Sound t) (hkey : key < 2 ^ 64) :
    t.height < heightForKey key ∧ lookupKV key t.contents = none ∨
      ¬ t.height < heightForKey key ∧ ∃ root level, t.root = some root ∧ t.height = level + 1 ∧
        root.Wf level ∧ key % 64 ^ (level + 1) = key ∧ t.contents = root.items level := by
  rcases h.shape with ⟨hroot, hheight⟩ | ⟨root, level, hroot, hheight, hwf⟩
  · have hpos : ¬ heightForKey key ≤ t.height := by
      rw [heightForKey_le_iff hkey, hheight]
      exact fun hlt => absurd hlt.1 (lt_irrefl 0)
    exact .inl ⟨not_le.1 hpos, by rw [contents_none hroot]; rfl⟩
  by_cases hlow : t.height < heightForKey key
  · refine .inl ⟨hlow, lookupKV_eq_none_of_below (blockKV_contents h).below ?_⟩
    by_contra hlt
    have := (heightForKey_le_iff hkey).2 ⟨by omega, not_le.1 hlt⟩
    omega
  · have hfits := ((heightForKey_le_iff hkey).1 (not_lt.1 hlow)).2
    rw [hheight] at hfits
    exact .inr ⟨hlow, root, level, hroot, hheight, hwf, Nat.mod_eq_of_lt hfits,
      contents_some hroot hheight⟩

theorem sound_of_root {len : ℕ} (hwf : root.Wf level) (hlen : len = (root.items level).length)
    (hfits : BelowKV (2 ^ 64) (root.items level)) : Sound ⟨some root, len, level + 1⟩ :=
  ⟨.inr ⟨root, level, rfl, rfl, hwf⟩, hlen, hfits⟩

theorem get_eq (h : Holds t m) (hkey : key < 2 ^ 64) : t.get key = m.get? key := by
  have hm : m.get? key = lookupKV key t.contents := by rw [h.2]; rfl
  rw [hm]
  rcases low_or_reaches h.1 hkey with ⟨hlow, hnone⟩ |
    ⟨hhigh, root, level, hroot, hheight, -, hmod, hcontents⟩
  · rw [get, if_pos hlow, hnone]
  · rw [get, if_neg hhigh, hroot, hheight]
    simp only [Nat.add_sub_cancel]
    rw [Node.getAt_eq, hmod, hcontents]

/-- `insert` does not panic, answers the old value and inserts. -/
theorem insert_holds (h : Holds t m) (hkey : key < 2 ^ 64) (v : V) :
    ∃ t', t.insert key v = some (m.get? key, t') ∧ Holds t' (m.insert key v) := by
  obtain ⟨hsound, hsame, hmax⟩ := ensureHeight_sound h.1 (heightForKey key)
  have hm : m.get? key = lookupKV key (t.ensureHeight (heightForKey key)).contents := by
    rw [hsame, h.2]
    rfl
  rcases low_or_reaches hsound hkey with ⟨hlow, -⟩ |
    ⟨-, root, level, hroot, hheight, hwf, hmod, hcontents⟩
  · omega
  obtain ⟨root', hins, hwf', hitems⟩ := Node.insertAt_eq key v hwf
  have hlen := hsound.len_eq
  have hnew : root'.items level = (m.insert key v).entries := by
    rw [hitems, hmod, ← hcontents, hsame, h.2]
    rfl
  rw [hmod, ← hcontents, ← hm] at hins
  rw [insert]
  simp only [hroot, hheight, Nat.add_sub_cancel, hins]
  refine ⟨_, rfl, sound_of_root hwf' ?_ ?_, hnew⟩
  · rw [hnew, length_insert, hlen, hsame, h.2]
  · rw [hnew]
    intro e he
    rcases mem_insertKV.1 he with rfl | ⟨he, -⟩
    · exact hkey
    · exact h.1.fits e (h.2 ▸ he)

/-- `remove` does not panic, answers the value and erases. -/
theorem remove_holds (h : Holds t m) (hkey : key < 2 ^ 64) :
    ∃ t', t.remove key = some (m.get? key, t') ∧ Holds t' (m.erase key) := by
  have hm : m.get? key = lookupKV key t.contents := by rw [h.2]; rfl
  rcases low_or_reaches h.1 hkey with ⟨hlow, hnone⟩ |
    ⟨hhigh, root, level, hroot, hheight, hwf, hmod, hcontents⟩
  · rw [remove, if_pos hlow, hm, hnone]
    rw [erase_eq_self (hm.trans hnone)]
    exact ⟨t, rfl, h⟩
  · obtain ⟨root', hrem, hwf', hitems⟩ := Node.removeAt_eq key hwf
    have hnew : root'.items level = (m.erase key).entries := by
      rw [hitems, hmod, ← hcontents, h.2]
      rfl
    have hfits : BelowKV (2 ^ 64) (root'.items level) := by
      rw [hnew]
      exact fun e he => h.1.fits e (h.2 ▸ (mem_eraseKV.1 he).1)
    rw [hmod, ← hcontents, ← hm] at hrem
    rw [remove, if_neg hhigh, hroot, hheight]
    simp only [Nat.add_sub_cancel, hrem]
    cases hv : m.get? key with
    | none =>
      refine ⟨_, rfl, sound_of_root hwf' ?_ hfits, hnew⟩
      rw [hnew, erase_eq_self hv, h.1.len_eq, h.2]
    | some v =>
      have hlen : t.len - 1 = (m.erase key).entries.length := by
        rw [length_erase hv, h.1.len_eq, h.2]
      by_cases hempty : 0 < level + 1 ∧ root'.count = 0
      · -- nothing is left, the tree starts again without a root
        have hnil : (m.erase key).entries = [] := by
          rw [← hnew]
          exact length_eq_zero_iff.1 ((Node.wf_iff.1 hwf').2 ▸ hempty.2)
        simp only [if_pos hempty]
        refine ⟨_, rfl, ⟨.inl ⟨rfl, rfl⟩, ?_, nofun⟩, hnil.symm⟩
        show t.len - 1 = 0
        rw [hlen, hnil]
        rfl
      · simp only [if_neg hempty]
        exact ⟨_, rfl, sound_of_root hwf' (hlen.trans (congrArg _ hnew.symm)) hfits, hnew⟩

/-- `get_mut` answers the value; a write through the reference changes the value
of that key only. -/
theorem getMut_holds (h : Holds t m) (hkey : key < 2 ^ 64) (write : V → V) :
    ∃ t', t.getMut key write = (m.get? key, t') ∧ Holds t' (m.modify key write) := by
  have hget := get_eq h hkey
  rw [get] at hget
  rw [getMut, OrdMap.modify]
  rcases low_or_reaches h.1 hkey with ⟨hlow, -⟩ | ⟨hhigh, root, level, hroot, hheight, -⟩
  · rw [if_pos hlow] at hget ⊢
    rw [← hget]
    exact ⟨t, rfl, h⟩
  rw [if_neg hhigh, hroot, hheight] at hget ⊢
  simp only [Nat.add_sub_cancel] at hget ⊢
  rcases Node.getMutAt_eq key write level root with ⟨hnone, hmut⟩ | ⟨v, root', hsome, hmut, hins'⟩
  · rw [← hget, hnone, hmut, ← hroot, ← hheight]
    exact ⟨t, rfl, h⟩
  · obtain ⟨t', hins, hholds⟩ := insert_holds h hkey (write v)
    have hensure : t.ensureHeight (heightForKey key) = t := by
      rw [ensureHeight, Nat.sub_eq_zero_of_le (not_lt.1 hhigh)]
      rfl
    rw [← hget, hsome] at hins ⊢
    simp only [insert, hensure, hroot, hheight, Nat.add_sub_cancel, hins', Option.some.injEq,
      Prod.mk.injEq, true_and] at hins
    rw [hmut]
    exact ⟨t', by rw [← hins]; rfl, hholds⟩

/-- The key of an entry is put together again from its digits. -/
theorem keyFrom_contents (h : Sound t) (hroot : t.root = some root) (hheight : t.height = level + 1)
    (he : e ∈ root.items level) : Node.keyFrom level 0 e.1 = e.1 := by
  have hfits := h.fits e (by rwa [contents_some hroot hheight])
  have hlt := (Node.blockKV_items level root).below e he
  rw [Node.keyFrom_eq (Nat.dvd_zero _) hlt (by omega), Nat.zero_add]

theorem first_eq (h : Holds t m) : t.first = m.entries.head? := by
  rw [← h.2]
  rcases h.1.shape with ⟨hroot, -⟩ | ⟨root, level, hroot, hheight, -⟩
  · rw [first, hroot, contents_none hroot]
    rfl
  rw [first, hroot, contents_some hroot hheight, hheight]
  simp only [Nat.add_sub_cancel, Node.findFirst_eq]
  refine (Option.map_congr fun e he => ?_).trans Option.map_id'
  rw [keyFrom_contents h.1 hroot hheight (mem_of_head? he)]

theorem last_eq (h : Holds t m) : t.last = m.entries.getLast? := by
  rw [← h.2]
  rcases h.1.shape with ⟨hroot, -⟩ | ⟨root, level, hroot, hheight, -⟩
  · rw [last, hroot, contents_none hroot]
    rfl
  rw [last, hroot, contents_some hroot hheight, hheight]
  simp only [Nat.add_sub_cancel, Node.findLast_eq]
  refine (Option.map_congr fun e he => ?_).trans Option.map_id'
  rw [keyFrom_contents h.1 hroot hheight (mem_of_getLast? he)]

theorem popEntry_holds (h : Holds t m) (he : e ∈ m.entries) :
    ∃ t', t.popEntry (some e) = some (some e, t') ∧ Holds t' (m.erase e.1) := by
  obtain ⟨key, v⟩ := e
  have hkey : key < 2 ^ 64 := h.1.fits (key, v) (h.2 ▸ he)
  obtain ⟨t', hrem, hholds⟩ := remove_holds h hkey
  rw [mem_entries_iff.1 he] at hrem
  exact ⟨t', by simp only [popEntry, hrem, Option.map_some], hholds⟩

end Operations

/-! ### Runs of point operations -/

inductive Op (V : Type*)
  | insert (key : Usize) (value : V)
  | remove (key : Usize)
  | get (key : Usize)
  /-- `get_mut`, followed by a write through the reference. -/
  | getMut (key : Usize) (write : V → V)
  | first
  | last
  | popFirst
  | popLast

/-- What a call answers: a value or an entry, and the length afterwards. -/
structure Answer (V : Type*) where
  value : Option V := none
  entry : Option (ℕ × V) := none
  len : ℕ

/-- A call on the tree; `none` is a panic. -/
def step (t : RadixTree V) : Op V → Option (Answer V × RadixTree V)
  | .insert key v => (t.insert key v).map fun r => ({ value := r.1, len := r.2.len }, r.2)
  | .remove key => (t.remove key).map fun r => ({ value := r.1, len := r.2.len }, r.2)
  | .get key => some ({ value := t.get key, len := t.len }, t)
  | .getMut key write =>
    let r := t.getMut key write
    some ({ value := r.1, len := r.2.len }, r.2)
  | .first => some ({ entry := t.first, len := t.len }, t)
  | .last => some ({ entry := t.last, len := t.len }, t)
  | .popFirst => t.popFirst.map fun r => ({ entry := r.1, len := r.2.len }, r.2)
  | .popLast => t.popLast.map fun r => ({ entry := r.1, len := r.2.len }, r.2)

/-- Answer an entry of a map and erase it. -/
def specPop (m : OrdMap ℕ V) (entry : Option (ℕ × V)) : Answer V × OrdMap ℕ V :=
  let m' := entry.elim m fun e => m.erase e.1
  ({ entry := entry, len := m'.entries.length }, m')

/-- The same call on a finite map with its keys in ascending order. -/
def specStep (m : OrdMap ℕ V) : Op V → Answer V × OrdMap ℕ V
  | .insert key v =>
    ({ value := m.get? key, len := (m.insert key v).entries.length }, m.insert key v)
  | .remove key => ({ value := m.get? key, len := (m.erase key).entries.length }, m.erase key)
  | .get key => ({ value := m.get? key, len := m.entries.length }, m)
  | .getMut key write =>
    ({ value := m.get? key, len := (m.modify key write).entries.length }, m.modify key write)
  | .first => ({ entry := m.entries.head?, len := m.entries.length }, m)
  | .last => ({ entry := m.entries.getLast?, len := m.entries.length }, m)
  | .popFirst => specPop m m.entries.head?
  | .popLast => specPop m m.entries.getLast?

theorem Holds.len_eq (h : Holds t m) : t.len = m.entries.length := by
  rw [h.1.len_eq, h.2]

theorem popEntry_step (h : Holds t m) {o : Option (ℕ × V)} (ho : ∀ e, o = some e → e ∈ m.entries) :
    ∃ t', ((t.popEntry o).map fun r => (({ entry := r.1, len := r.2.len } : Answer V), r.2)) =
        some ((specPop m o).1, t') ∧ Holds t' (specPop m o).2 := by
  cases o with
  | none => exact ⟨t, by simp [popEntry, specPop, h.len_eq], h⟩
  | some e =>
    obtain ⟨t', hpop, hholds⟩ := popEntry_holds h (ho e rfl)
    exact ⟨t', by simp [hpop, specPop, hholds.len_eq], hholds⟩

theorem step_refines (t : RadixTree V) (m : OrdMap ℕ V) (op : Op V) (h : Holds t m) :
    ∃ t', t.step op = some ((specStep m op).1, t') ∧ Holds t' (specStep m op).2 := by
  cases op with
  | insert key v =>
    obtain ⟨t', heq, hholds⟩ := insert_holds h key.isLt v
    exact ⟨t', by simp [step, heq, specStep, hholds.len_eq], hholds⟩
  | remove key =>
    obtain ⟨t', heq, hholds⟩ := remove_holds h key.isLt
    exact ⟨t', by simp [step, heq, specStep, hholds.len_eq], hholds⟩
  | get key => exact ⟨t, by simp [step, get_eq h key.isLt, specStep, h.len_eq], h⟩
  | getMut key write =>
    obtain ⟨t', heq, hholds⟩ := getMut_holds h key.isLt write
    exact ⟨t', by simp [step, heq, specStep, hholds.len_eq], hholds⟩
  | first => exact ⟨t, by simp [step, first_eq h, specStep, h.len_eq], h⟩
  | last => exact ⟨t, by simp [step, last_eq h, specStep, h.len_eq], h⟩
  | popFirst =>
    rw [step, popFirst, first_eq h]
    exact popEntry_step h fun e he => mem_of_head? he
  | popLast =>
    rw [step, popLast, last_eq h]
    exact popEntry_step h fun e he => mem_of_getLast? he

/-- Every list of point operations on the empty tree runs without panic, with
the answers of a finite map from `usize`. -/
theorem point_operations_refine (ops : List (Op V)) :
    ∃ t', runOps step new ops = some (answers specStep OrdMap.empty ops, t') := by
  obtain ⟨t', hrun, -⟩ := runOps_refines_total step_refines ops new OrdMap.empty holds_new
  exact ⟨t', hrun⟩

end RadixTree

end JanuaryOs.Libs.Rdtree

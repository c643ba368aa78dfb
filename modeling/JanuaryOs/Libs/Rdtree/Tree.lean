import JanuaryOs.Base

/-!
# The radix tree of `libs/rdtree/tree.rs`, which maps `usize` indexes to values

A node has 64 slots and is addressed by six bits of the key. Its level is not
stored: it follows from the height of the tree and is passed down by every
function, so a slot may hold a value or a node at any level, and what the code
does with the wrong one is modelled too. The functions recurse on the level.
`none` as the whole result of a function is a panic (`unwrap`, `unreachable!`).
Keys are natural numbers below `2 ^ 64`; the counters are natural numbers,
because a tree cannot hold more entries than there are keys.
-/

namespace JanuaryOs.Libs.Rdtree

open List Function

/-- Slots of a node. -/
abbrev RADIX : ℕ := 64

/-- Bits of the key that a level consumes. -/
abbrev SHIFT : ℕ := 6

/-- The lowest `SHIFT` bits. -/
abbrev MASK : ℕ := RADIX - 1

/-- A `usize`. -/
abbrev Usize : Type := Fin (2 ^ 64)

/-- `leading_zeros` of a `usize`. -/
def leadingZeros (key : ℕ) : ℕ := if key = 0 then 64 else 63 - key.log2

/-- `height_for_key`: the levels that a key needs. -/
def heightForKey (key : ℕ) : ℕ :=
  if key = 0 then 1 else (64 - leadingZeros key + SHIFT - 1) / SHIFT

/-- `key_index`: the slot of a key at a level. -/
def keyIndex (key level : ℕ) : Fin RADIX :=
  ⟨(key >>> (level * SHIFT)) &&& MASK, Nat.lt_succ_of_le Nat.and_le_right⟩

/-- The key of a slot below a node, `prefix | (i << (level * SHIFT))`. -/
def slotKey (base level : ℕ) (i : Fin RADIX) : ℕ := base ||| ((i : ℕ) <<< (level * SHIFT)) % 2 ^ 64

/-- A node whose slots hold `S`. -/
structure NodeOf (S : Type*) where
  slots : Fin RADIX → Option S
  /-- The number of values below the node. -/
  count : ℕ

inductive Slot (V : Type*)
  | node (child : NodeOf (Slot V))
  | value (v : V)

abbrev Node (V : Type*) := NodeOf (Slot V)

variable {V : Type*}

namespace Node

def new : Node V := ⟨fun _ => none, 0⟩

def setSlot (node : Node V) (i : Fin RADIX) (slot : Slot V) : Node V :=
  { node with slots := update node.slots i (some slot) }

def removeSlot (node : Node V) (i : Fin RADIX) : Node V :=
  { node with slots := update node.slots i none }

/-- The child that `insert_at` descends to: a new one if the slot holds none. -/
def childOrNew : Option (Slot V) → Node V
  | some (.node child) => child
  | _ => new

/-- `insert_at`: the old value and the new node. -/
def insertAt (key : ℕ) (value : V) : ℕ → Node V → Option (Option V × Node V)
  | 0, node =>
    let idx := keyIndex key 0
    let node' := node.setSlot idx (.value value)
    match node.slots idx with
    | none => some (none, { node' with count := node.count + 1 })
    | some (.value v) => some (some v, node')
    | some (.node _) => none
  | level + 1, node =>
    let idx := keyIndex key (level + 1)
    match insertAt key value level (childOrNew (node.slots idx)) with
    | none => none
    | some (old, child') =>
      let node' := node.setSlot idx (.node child')
      some (old, if old.isNone then { node' with count := node.count + 1 } else node')

def getAt (key : ℕ) : ℕ → Node V → Option V
  | 0, node =>
    match node.slots (keyIndex key 0) with
    | some (.value v) => some v
    | _ => none
  | level + 1, node =>
    match node.slots (keyIndex key (level + 1)) with
    | some (.node child) => getAt key level child
    | _ => none

/-- `get_mut_at`, with the write that its caller makes through the reference. -/
def getMutAt (key : ℕ) (write : V → V) : ℕ → Node V → Option V × Node V
  | 0, node =>
    let idx := keyIndex key 0
    match node.slots idx with
    | some (.value v) => (some v, node.setSlot idx (.value (write v)))
    | _ => (none, node)
  | level + 1, node =>
    let idx := keyIndex key (level + 1)
    match node.slots idx with
    | some (.node child) =>
      let (v, child') := getMutAt key write level child
      (v, node.setSlot idx (.node child'))
    | _ => (none, node)

/-- `remove_at`: the removed value and the new node. -/
def removeAt (key : ℕ) : ℕ → Node V → Option (Option V × Node V)
  | 0, node =>
    let idx := keyIndex key 0
    match node.slots idx with
    | none => some (none, node)
    | some (.value v) => some (some v, { node.removeSlot idx with count := node.count - 1 })
    | some (.node _) => none
  | level + 1, node =>
    let idx := keyIndex key (level + 1)
    match node.slots idx with
    | some (.node child) =>
      match removeAt key level child with
      | none => none
      | some (none, _) => some (none, node)
      | some (some v, child') =>
        -- an emptied child is taken out of its slot
        let node' := if child'.count = 0 then node.removeSlot idx
          else node.setSlot idx (.node child')
        some (some v, { node' with count := node.count - 1 })
    | _ => some (none, node)

def findFirst : ℕ → ℕ → Node V → Option (ℕ × V)
  | 0, base, node => (finRange RADIX).findSome? fun i =>
    match node.slots i with
    | some (.value v) => some (slotKey base 0 i, v)
    | _ => none
  | level + 1, base, node => (finRange RADIX).findSome? fun i =>
    match node.slots i with
    | some (.node child) => findFirst level (slotKey base (level + 1) i) child
    | _ => none

def findLast : ℕ → ℕ → Node V → Option (ℕ × V)
  | 0, base, node => (finRange RADIX).reverse.findSome? fun i =>
    match node.slots i with
    | some (.value v) => some (slotKey base 0 i, v)
    | _ => none
  | level + 1, base, node => (finRange RADIX).reverse.findSome? fun i =>
    match node.slots i with
    | some (.node child) => findLast level (slotKey base (level + 1) i) child
    | _ => none

end Node

structure RadixTree (V : Type*) where
  root : Option (Node V)
  len : ℕ
  height : ℕ

namespace RadixTree

def new : RadixTree V := ⟨none, 0, 0⟩

variable (t : RadixTree V)

/-- One round of `ensure_height`: the old root becomes the first child of a new
one. -/
def grow : RadixTree V :=
  let newRoot : Node V := match t.root with
    | some oldRoot => { Node.new.setSlot 0 (.node oldRoot) with count := t.len }
    | none => Node.new
  { t with root := some newRoot, height := t.height + 1 }

def ensureHeight (requiredHeight : ℕ) : RadixTree V :=
  grow^[requiredHeight - t.height] t

/-- `insert`: the replaced value and the new tree. -/
def insert (index : ℕ) (value : V) : Option (Option V × RadixTree V) :=
  let t := t.ensureHeight (heightForKey index)
  match t.root with
  | none => none
  | some root =>
    match root.insertAt index value (t.height - 1) with
    | none => none
    | some (old, root') =>
      some (old, { t with root := some root', len := if old.isNone then t.len + 1 else t.len })

def get (index : ℕ) : Option V :=
  if t.height < heightForKey index then none
  else
    match t.root with
    | none => none
    | some root => root.getAt index (t.height - 1)

/-- `get_mut`, with the write that its caller makes through the reference. -/
def getMut (index : ℕ) (write : V → V) : Option V × RadixTree V :=
  if t.height < heightForKey index then (none, t)
  else
    match t.root with
    | none => (none, t)
    | some root =>
      let (v, root') := root.getMutAt index write (t.height - 1)
      (v, { t with root := some root' })

def remove (index : ℕ) : Option (Option V × RadixTree V) :=
  if t.height < heightForKey index then some (none, t)
  else
    match t.root with
    | none => some (none, t)
    | some root =>
      match root.removeAt index (t.height - 1) with
      | none => none
      | some (none, root') => some (none, { t with root := some root' })
      | some (some v, root') =>
        -- the loop that shrinks the tree runs at most once, it sets the height to zero
        if 0 < t.height ∧ root'.count = 0 then
          some (some v, { root := none, len := t.len - 1, height := 0 })
        else some (some v, { t with root := some root', len := t.len - 1 })

def first : Option (ℕ × V) :=
  match t.root with
  | none => none
  | some root => root.findFirst (t.height - 1) 0

def last : Option (ℕ × V) :=
  match t.root with
  | none => none
  | some root => root.findLast (t.height - 1) 0

/-- `remove(key).map(|v| (key, v))` for the entry found before. -/
def popEntry : Option (ℕ × V) → Option (Option (ℕ × V) × RadixTree V)
  | none => some (none, t)
  | some (key, _) =>
    match t.remove key with
    | none => none
    | some (v, t') => some (v.map fun v => (key, v), t')

def popFirst : Option (Option (ℕ × V) × RadixTree V) := t.popEntry t.first

def popLast : Option (Option (ℕ × V) × RadixTree V) := t.popEntry t.last

end RadixTree

end JanuaryOs.Libs.Rdtree

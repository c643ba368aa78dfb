import Mathlib

/-!
# The kernel's B-tree (`libs/btree/tree.rs`), as it computes

A node's keys and values are two vectors that are always changed together, kept
here as one list of entries; the leaf flag is the constructor. Every vector
access that can panic is an `Option`: `none` is the panic. The recursive
procedures go down one level per call and take the number of levels as fuel,
which the public operations set to the height of the root plus one.
-/

namespace JanuaryOs.Libs.Btree

/-- Branching factor. -/
def B : ℕ := 16

/-- The fewest keys a node other than the root should have. -/
def minKeys : ℕ := B / 2 - 1

/-- The most keys a node can have. -/
def maxKeys : ℕ := B - 1

/-- A node: its entries, and for an internal node one more child than it has
entries. -/
inductive Node (K V : Type*)
  | leaf (entries : List (K × V))
  | internal (entries : List (K × V)) (children : List (Node K V))

variable {K V : Type*} (es : List (K × V))

namespace Node

def entries : Node K V → List (K × V)
  | .leaf es => es
  | .internal es _ => es

def size (n : Node K V) : ℕ := n.entries.length

def isFull (n : Node K V) : Bool := maxKeys ≤ n.size

def height : Node K V → ℕ
  | .leaf _ => 0
  | .internal _ [] => 1
  | .internal _ (c :: _) => c.height + 1

@[simp] theorem entries_leaf : (leaf es).entries = es := rfl

@[simp] theorem entries_internal (cs : List (Node K V)) :
    (internal es cs).entries = es := rfl

@[simp] theorem size_leaf : (leaf es).size = es.length := rfl

@[simp] theorem size_internal (cs : List (Node K V)) :
    (internal es cs).size = es.length := by
  rw [size, entries_internal]

/-! ### Splitting -/

/-- Cut a node at its middle entry. -/
def split : Node K V → Option (Node K V × (K × V) × Node K V)
  | .leaf es =>
    match es[minKeys]? with
    | none => none
    | some m => some (.leaf (es.take minKeys), m, .leaf (es.drop (minKeys + 1)))
  | .internal es cs =>
    match es[minKeys]? with
    | none => none
    | some m =>
      if minKeys + 1 ≤ cs.length then
        some (.internal (es.take minKeys) (cs.take (minKeys + 1)), m,
          .internal (es.drop (minKeys + 1)) (cs.drop (minKeys + 1)))
      else none

end Node

/-- `split_child_static`: the middle entry of child `i` moves up between the two
halves. -/
def splitChild (cs : List (Node K V)) (i : ℕ) :
    Option (List (K × V) × List (Node K V)) :=
  match cs[i]? with
  | none => none
  | some child =>
    match child.split with
    | none => none
    | some (l, m, r) =>
      if i ≤ es.length then some (es.insertIdx i m, (cs.set i l).insertIdx (i + 1) r)
      else none

section Search

variable [LinearOrder K]

/-- `keys.iter().position(|k| k == key)`. -/
def keyPos (key : K) (es : List (K × V)) : Option ℕ := es.findIdx? (fun e => e.1 = key)

/-- `keys.iter().position(|k| k > key).unwrap_or(keys.len())`. -/
def childIdx (key : K) (es : List (K × V)) : ℕ := es.findIdx (fun e => key < e.1)

/-- `get_in_node`. The outer option is the panic. -/
def getInNode (key : K) : ℕ → Node K V → Option (Option V)
  | 0, _ => none
  | fuel + 1, n =>
    match keyPos key n.entries with
    | some pos => (n.entries[pos]?).map fun e => some e.2
    | none =>
      match n with
      | .leaf _ => some none
      | .internal es cs =>
        match cs[childIdx key es]? with
        | none => none
        | some c => getInNode key fuel c

/-- A write through the reference returned by `get_mut_in_node`: the value that
was there, and the node with the new one. -/
def getMutInNode (key : K) (value : V) : ℕ → Node K V → Option (Option V × Node K V)
  | 0, _ => none
  | fuel + 1, n =>
    match keyPos key n.entries with
    | some pos =>
      (n.entries[pos]?).map fun e =>
        (some e.2, match n with
          | .leaf es => .leaf (es.set pos (e.1, value))
          | .internal es cs => .internal (es.set pos (e.1, value)) cs)
    | none =>
      match n with
      | .leaf es => some (none, .leaf es)
      | .internal es cs =>
        let i := childIdx key es
        match cs[i]? with
        | none => none
        | some c =>
          (getMutInNode key value fuel c).map fun r => (r.1, .internal es (cs.set i r.2))

/-- `insert_non_full_static`: descend, splitting every full child on the way.
After a split the key is compared with the promoted entry by `>` only. -/
def insertNonFull (key : K) (value : V) : ℕ → Node K V → Option (Option V × Node K V)
  | 0, _ => none
  | fuel + 1, n =>
    match keyPos key n.entries with
    | some pos =>
      (n.entries[pos]?).map fun e =>
        (some e.2, match n with
          | .leaf es => .leaf (es.set pos (e.1, value))
          | .internal es cs => .internal (es.set pos (e.1, value)) cs)
    | none =>
      match n with
      | .leaf es => some (none, .leaf (es.insertIdx (childIdx key es) (key, value)))
      | .internal es cs =>
        let i := childIdx key es
        let descend (es : List (K × V)) (cs : List (Node K V)) (i : ℕ) :=
          match cs[i]? with
          | none => none
          | some c =>
            (insertNonFull key value fuel c).map fun r => (r.1, .internal es (cs.set i r.2))
        match cs[i]? with
        | none => none
        | some c =>
          if c.isFull then
            match splitChild es cs i with
            | none => none
            | some (es', cs') =>
              match es'[i]? with
              | none => none
              | some m => descend es' cs' (if m.1 < key then i + 1 else i)
          else descend es cs i

end Search

/-! ### Borrowing and merging -/

/-- Move the last entry of the left node up and the separator down into the
right node, with the last child of the left node if the right one is internal. -/
def rotateRight (left : Node K V) (sep : K × V) (right : Node K V) :
    Option (Node K V × (K × V) × Node K V) :=
  match left.entries.getLast? with
  | none => none
  | some e =>
    match left, right with
    | .leaf les, .leaf res => some (.leaf les.dropLast, e, .leaf (sep :: res))
    | .internal les lcs, .leaf res => some (.internal les.dropLast lcs, e, .leaf (sep :: res))
    | .leaf _, .internal _ _ => none
    | .internal les lcs, .internal res rcs =>
      match lcs.getLast? with
      | none => none
      | some c =>
        some (.internal les.dropLast lcs.dropLast, e, .internal (sep :: res) (c :: rcs))

/-- Move the first entry of the right node up and the separator down into the
left node, with the first child of the right node if the left one is internal. -/
def rotateLeft (left : Node K V) (sep : K × V) (right : Node K V) :
    Option (Node K V × (K × V) × Node K V) :=
  match right.entries with
  | [] => none
  | e :: res =>
    match left, right with
    | .leaf les, .leaf _ => some (.leaf (les ++ [sep]), e, .leaf res)
    | .leaf les, .internal _ rcs => some (.leaf (les ++ [sep]), e, .internal res rcs)
    | .internal _ _, .leaf _ => none
    | .internal les lcs, .internal _ rcs =>
      match rcs with
      | [] => none
      | c :: rcs' => some (.internal (les ++ [sep]) (lcs ++ [c]), e, .internal res rcs')

/-- Join two nodes around their separator. A leaf on the left drops the children
of the right node. -/
def mergeNodes (left : Node K V) (sep : K × V) (right : Node K V) : Node K V :=
  match left, right with
  | .leaf les, r => .leaf (les ++ sep :: r.entries)
  | .internal les lcs, .leaf res => .internal (les ++ sep :: res) lcs
  | .internal les lcs, .internal res rcs => .internal (les ++ sep :: res) (lcs ++ rcs)

/-- `borrow_from_left_static`. -/
def borrowFromLeft (cs : List (Node K V)) (i : ℕ) :
    Option (List (K × V) × List (Node K V)) :=
  match cs[i - 1]?, es[i - 1]?, cs[i]? with
  | some l, some sep, some c =>
    (rotateRight l sep c).map fun r => (es.set (i - 1) r.2.1, (cs.set (i - 1) r.1).set i r.2.2)
  | _, _, _ => none

/-- `borrow_from_right_static`. -/
def borrowFromRight (cs : List (Node K V)) (i : ℕ) :
    Option (List (K × V) × List (Node K V)) :=
  match cs[i]?, es[i]?, cs[i + 1]? with
  | some c, some sep, some r =>
    (rotateLeft c sep r).map fun r => (es.set i r.2.1, (cs.set i r.1).set (i + 1) r.2.2)
  | _, _, _ => none

/-- `merge_children_static`. -/
def mergeChildren (cs : List (Node K V)) (i : ℕ) :
    Option (List (K × V) × List (Node K V)) :=
  match cs[i]?, es[i]?, cs[i + 1]? with
  | some l, some sep, some r =>
    some (es.eraseIdx i, (cs.set i (mergeNodes l sep r)).eraseIdx (i + 1))
  | _, _, _ => none

/-- A sibling with an entry to spare. -/
def canLend (cs : List (Node K V)) (i : ℕ) : Bool :=
  match cs[i]? with
  | some c => minKeys < c.size
  | none => false

/-- `fix_child_static`: give child `i` a key from a sibling that has one to
spare, or merge it with one. -/
def fixChild (cs : List (Node K V)) (i : ℕ) :
    Option (List (K × V) × List (Node K V)) :=
  if 0 < i ∧ canLend cs (i - 1) then borrowFromLeft es cs i
  else if i < cs.length - 1 ∧ canLend cs (i + 1) then borrowFromRight es cs i
  else if 0 < i then mergeChildren es cs (i - 1)
  else mergeChildren es cs i

/-! ### Removing -/

/-- `remove_max_static`: take the last entry of the rightmost leaf. Nothing is
rebalanced on the way. -/
def removeMax : ℕ → Node K V → Option ((K × V) × Node K V)
  | 0, _ => none
  | _ + 1, .leaf es =>
    match es.getLast? with
    | none => none
    | some e => some (e, .leaf es.dropLast)
  | fuel + 1, .internal es cs =>
    match cs.getLast? with
    | none => none
    | some c => (removeMax fuel c).map fun r => (r.1, .internal es (cs.dropLast ++ [r.2]))

/-- `remove_min_static`: take the first entry of the leftmost leaf. -/
def removeMin : ℕ → Node K V → Option ((K × V) × Node K V)
  | 0, _ => none
  | _ + 1, .leaf es =>
    match es with
    | [] => none
    | e :: es' => some (e, .leaf es')
  | fuel + 1, .internal es cs =>
    match cs with
    | [] => none
    | c :: cs' => (removeMin fuel c).map fun r => (r.1, .internal es (r.2 :: cs'))

/-- `remove_from_node_static`. The outer option is the panic, the inner one the
answer. -/
def removeFromNode [LinearOrder K] (key : K) : ℕ → Node K V → Option (Option V × Node K V)
  | 0, _ => none
  | _ + 1, .leaf es =>
    match keyPos key es with
    | some pos => (es[pos]?).map fun e => (some e.2, .leaf (es.eraseIdx pos))
    | none => some (none, .leaf es)
  | fuel + 1, .internal es cs =>
    match keyPos key es with
    | some pos =>
      match es[pos]?, cs[pos]? with
      | some e, some l =>
        if minKeys < l.size then
          (removeMax fuel l).map fun m => (some e.2, .internal (es.set pos m.1) (cs.set pos m.2))
        else
          match cs[pos + 1]? with
          | none => none
          | some r =>
            if minKeys < r.size then
              (removeMin fuel r).map fun m =>
                (some e.2, .internal (es.set pos m.1) (cs.set (pos + 1) m.2))
            else
              match mergeChildren es cs pos with
              | none => none
              | some (es', cs') =>
                match cs'[pos]? with
                | none => none
                | some c =>
                  (removeFromNode key fuel c).map fun r => (r.1, .internal es' (cs'.set pos r.2))
      | _, _ => none
    | none =>
      let i := childIdx key es
      match cs[i]? with
      | none => none
      | some c =>
        match (if c.size ≤ minKeys then fixChild es cs i else some (es, cs)) with
        | none => none
        | some (es', cs') =>
          -- the child to descend into may have moved
          let j := childIdx key es'
          match cs'[j]? with
          | none => none
          | some c' =>
            (removeFromNode key fuel c').map fun r => (r.1, .internal es' (cs'.set j r.2))

end JanuaryOs.Libs.Btree

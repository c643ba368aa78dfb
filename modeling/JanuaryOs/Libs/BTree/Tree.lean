import JanuaryOs.Libs.BTree.Node

/-!
# The public operations of the B-tree and its iterator
-/

namespace JanuaryOs.Libs.Btree

variable {K V : Type*}

/-! ### Iterator -/

/-- The iterator's stack: nodes with the position reached in each. In an
internal node the even positions are children and the odd ones entries. -/
abbrev IterStack (K V : Type*) := List (Node K V × ℕ)

/-- What one round of the loop in `next` does. -/
inductive IterStep (K V : Type*)
  | done
  | item (e : K × V) (stack : IterStack K V)
  | again (stack : IterStack K V)

/-- One round of the loop in `BTreeIter::next`. -/
def iterStep : IterStack K V → IterStep K V
  | [] => .done
  | (.leaf es, i) :: stack =>
    match es[i]? with
    | some e => .item e ((.leaf es, i + 1) :: stack)
    | none => .again stack
  | (.internal es cs, i) :: stack =>
    if i < cs.length + es.length then
      if i % 2 = 0 then
        match cs[i / 2]? with
        | some c => .again ((c, 0) :: (.internal es cs, i + 1) :: stack)
        | none => .again ((.internal es cs, i + 1) :: stack)
      else
        match es[i / 2]? with
        | some e => .item e ((.internal es cs, i + 1) :: stack)
        | none => .again ((.internal es cs, i + 1) :: stack)
    else .again stack

/-- The items of repeated calls of `next` until it returns `None`, in at most
`fuel` rounds of its loop. -/
def collect : ℕ → IterStack K V → Option (List (K × V))
  | 0, _ => none
  | fuel + 1, stack =>
    match iterStep stack with
    | .done => some []
    | .item e stack' => (collect fuel stack').map (e :: ·)
    | .again stack' => collect fuel stack'

mutual

/-- The rounds the iterator spends on a node. -/
def Node.rounds : Node K V → ℕ
  | .leaf es => es.length + 1
  | .internal es cs => es.length + cs.length + 1 + roundsAll cs

/-- The rounds the iterator spends on a list of children. -/
def roundsAll : List (Node K V) → ℕ
  | [] => 0
  | c :: cs => c.rounds + roundsAll cs

end

/-! ### Tree -/

/-- A B-tree: its root and the number of its entries. -/
structure BTree (K V : Type*) where
  root : Node K V
  len : ℕ

namespace BTree

def new : BTree K V := ⟨.leaf [], 0⟩

/-- Fuel for a descent from the root. -/
def depth (t : BTree K V) : ℕ := t.root.height + 1

/-- `iter`, drained. -/
def iter (t : BTree K V) : Option (List (K × V)) := collect (t.root.rounds + 1) [(t.root, 0)]

/-- `first_in_node`. The outer option is the panic. -/
def firstInNode : ℕ → Node K V → Option (Option (K × V))
  | 0, _ => none
  | _ + 1, .leaf es => some es.head?
  | fuel + 1, .internal _ cs =>
    match cs.head? with
    | none => none
    | some c => firstInNode fuel c

def lastInNode : ℕ → Node K V → Option (Option (K × V))
  | 0, _ => none
  | _ + 1, .leaf es => some es.getLast?
  | fuel + 1, .internal _ cs =>
    match cs.getLast? with
    | none => none
    | some c => lastInNode fuel c

def first (t : BTree K V) : Option (Option (K × V)) :=
  if t.len = 0 then some none else firstInNode t.depth t.root

def last (t : BTree K V) : Option (Option (K × V)) :=
  if t.len = 0 then some none else lastInNode t.depth t.root

variable [LinearOrder K]

def get (t : BTree K V) (key : K) : Option (Option V) := getInNode key t.depth t.root

/-- `get_mut`, followed by a write of `value` through the reference. -/
def getMut (t : BTree K V) (key : K) (value : V) : Option (Option V × BTree K V) :=
  (getMutInNode key value t.depth t.root).map fun r => (r.1, ⟨r.2, t.len⟩)

/-- The root `insert` descends from: a full root is split under a new one. -/
def splitRoot (root : Node K V) : Option (Node K V) :=
  if root.isFull then
    (splitChild [] [root] 0).map fun r => .internal r.1 r.2
  else some root

def insert (t : BTree K V) (key : K) (value : V) : Option (Option V × BTree K V) :=
  match splitRoot t.root with
  | none => none
  | some root =>
    (insertNonFull key value (root.height + 1) root).map fun r =>
      (r.1, ⟨r.2, if r.1.isNone then t.len + 1 else t.len⟩)

/-- A root without keys is replaced by its child. -/
def shrinkRoot : Node K V → Node K V
  | .internal [] cs => cs.getLast?.getD (.internal [] cs)
  | n => n

/-- `remove`. An absent key returns before the root is looked at again. -/
def remove (t : BTree K V) (key : K) : Option (Option V × BTree K V) :=
  match removeFromNode key t.depth t.root with
  | none => none
  | some (none, root) => some (none, ⟨root, t.len⟩)
  | some (some v, root) => some (some v, ⟨shrinkRoot root, t.len - 1⟩)

def removeAll (t : BTree K V) : List K → Option (BTree K V)
  | [] => some t
  | key :: keys =>
    match t.remove key with
    | none => none
    | some (_, t') => t'.removeAll keys

/-- `retain`: collect the keys to drop, then remove them. -/
def retain (t : BTree K V) (p : K → V → Bool) : Option (BTree K V) :=
  match t.iter with
  | none => none
  | some es => t.removeAll ((es.filter fun e => !p e.1 e.2).map (·.1))

end BTree

end JanuaryOs.Libs.Btree

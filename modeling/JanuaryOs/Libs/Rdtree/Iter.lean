import JanuaryOs.Libs.Rdtree.Point

/-!
# The iterators of the radix tree and the functions built on them

An iterator is a stack of nodes, each with the slot at which its scan continues.
A round looks for the next occupied slot of the node on top. If it is a child,
the round advances the parent and pushes the child with slot zero; then it
stores the scan position *of the parent* in whatever is on top of the stack,
which is now the child. So a child that stands in slot `i` is scanned from slot
`i + 1` on.

`Node.scan` is what is visited below a node under this rule, and `Node.Rising`
says which keys that are: those whose digits strictly increase from the root
down. The machine yields `scan` (`iter_eq`, `iterMut_eq`), so an iteration is
complete if and only if all stored keys are rising (`iteration_complete_iff`).
-/

namespace JanuaryOs.Libs.Rdtree

open Lib OrdMap List

variable {V : Type*}

/-! ### The iterators -/

/-- What a slot offers to an iterator at a level. -/
inductive Found (V : Type*)
  | value (v : V)
  | child (c : Node V)

/-- The arms of the `match` on a slot: a value counts at level zero, a node
above. -/
def Slot.found (level : ℕ) : Slot V → Option (Found V)
  | .value v => if level = 0 then some (.value v) else none
  | .node c => if 0 < level then some (.child c) else none

/-- The state of an iterator at one node. -/
structure IterState (V : Type*) where
  node : Node V
  /-- The key of the node. -/
  base : ℕ
  level : ℕ
  index : ℕ

/-- The inner loop: the next slot from `index` on that counts. -/
def IterState.seek (state : IterState V) : Option (Fin RADIX × Found V) :=
  (List.finRange RADIX).findSome? fun i : Fin RADIX =>
    if state.index ≤ i then
      (state.node.slots i).bind fun slot => (slot.found state.level).map fun found => (i, found)
    else none

/-- What a round of the outer loop does. The stack is a list with its top first. -/
inductive Round (V : Type*)
  | yield (entry : ℕ × V) (stack : List (IterState V))
  | next (stack : List (IterState V))
  | done

/-- A round of `Iter::next`. -/
def Iter.round : List (IterState V) → Round V
  | [] => .done
  | top :: below =>
    match top.seek with
    | some (i, .value v) =>
      .yield (slotKey top.base top.level i, v) ({ top with index := i + 1 } :: below)
    | some (i, .child c) =>
      let child : IterState V := ⟨c, slotKey top.base top.level i, top.level - 1, 0⟩
      let below := { top with index := i + 1 } :: below
      -- the index goes to the top of the stack, where the child is by now
      let child := { child with index := i + 1 }
      if RADIX ≤ child.index then .next below else .next (child :: below)
    | none => if below.isEmpty then .done else .next below

/-- A round of `IterMut::next`. After a descent it goes on without testing the
index. -/
def IterMut.round : List (IterState V) → Round V
  | [] => .done
  | top :: below =>
    match top.seek with
    | some (i, .value v) =>
      .yield (slotKey top.base top.level i, v) ({ top with index := i + 1 } :: below)
    | some (i, .child c) =>
      let child : IterState V := ⟨c, slotKey top.base top.level i, top.level - 1, 0⟩
      .next ({ child with index := i + 1 } :: { top with index := i + 1 } :: below)
    | none => if below.isEmpty then .done else .next below

/-- A bound for the rounds that are spent at a node and below. -/
def scanCost : ℕ → ℕ → ℕ
  | 0, index => RADIX - index + 1
  | level + 1, index => (RADIX - index) * (scanCost level 0 + 1) + 1

/-- A bound for the rounds until the iteration ends. -/
def stackCost (stack : List (IterState V)) : ℕ :=
  (stack.map fun state => scanCost state.level state.index).sum

/-- The outer loop of `next`, for at most `fuel` rounds. -/
def nextLoop (round : List (IterState V) → Round V) :
    ℕ → List (IterState V) → Option (ℕ × V) × List (IterState V)
  | 0, stack => (none, stack)
  | fuel + 1, stack =>
    match round stack with
    | .yield entry stack' => (some entry, stack')
    | .next stack' => nextLoop round fuel stack'
    | .done => (none, [])

namespace RadixTree

/-- `next`: an empty stack starts at the root. -/
def next (round : List (IterState V) → Round V) (t : RadixTree V)
    (stack : List (IterState V)) : Option (ℕ × V) × List (IterState V) :=
  let stack := if stack.isEmpty then
      match t.root with
      | some root => [⟨root, 0, t.height - 1, 0⟩]
      | none => []
    else stack
  nextLoop round (stackCost stack + 1) stack

/-- Calls of `next` until it answers `None`, at most `fuel` of them. -/
def collectLoop (round : List (IterState V) → Round V) (t : RadixTree V) :
    ℕ → List (IterState V) → List (ℕ × V)
  | 0, _ => []
  | fuel + 1, stack =>
    match t.next round stack with
    | (some entry, stack') => entry :: collectLoop round t fuel stack'
    | (none, _) => []

/-- All entries that `iter` yields. -/
def iter (t : RadixTree V) : List (ℕ × V) := t.collectLoop Iter.round (t.len + 1) []

/-- All entries that `iter_mut` yields. -/
def iterMut (t : RadixTree V) : List (ℕ × V) := t.collectLoop IterMut.round (t.len + 1) []

/-! ### What is built on them -/

/-- `insert` for each entry. -/
def insertAll (t : RadixTree V) : List (ℕ × V) → Option (RadixTree V)
  | [] => some t
  | e :: entries => (t.insert e.1 e.2).bind fun r => r.2.insertAll entries

/-- `remove` for each key. -/
def removeAll (t : RadixTree V) : List ℕ → Option (RadixTree V)
  | [] => some t
  | key :: keys => (t.remove key).bind fun r => r.2.removeAll keys

def clone (t : RadixTree V) : Option (RadixTree V) := insertAll new t.iter

/-- `IntoIter::next` until it answers `None`: the keys are removed one after the
other. -/
def drain (t : RadixTree V) : List ℕ → Option (List (ℕ × V))
  | [] => some []
  | key :: keys => (t.remove key).bind fun r =>
    match r.1 with
    | some v => (r.2.drain keys).map ((key, v) :: ·)
    | none => some []

/-- `into_iter`, all of it. -/
def intoIter (t : RadixTree V) : Option (List (ℕ × V)) := t.drain (t.iter.map Prod.fst)

/-- `append`; the other tree is left empty. -/
def append (t other : RadixTree V) : Option (RadixTree V × RadixTree V) :=
  other.intoIter.bind fun items => (t.insertAll items).map fun t' => (t', new)

/-- The writes of a closure through the references that `iter_mut` yields. -/
def writeAll (t : RadixTree V) (f : ℕ → V → Bool × V) : List (ℕ × V) → RadixTree V
  | [] => t
  | e :: entries => (t.getMut e.1 fun v => (f e.1 v).2).2.writeAll f entries

/-- `retain`. The closure sees each value by reference and may change it. -/
def retain (t : RadixTree V) (f : ℕ → V → Bool × V) : Option (RadixTree V) :=
  let visited := t.iterMut
  let keysToRemove := (visited.filter fun e => !(f e.1 e.2).1).map Prod.fst
  (t.writeAll f visited).removeAll keysToRemove

/-- The loop of `split_off` over the collected keys: the rest and the new tree. -/
def moveAll (t newTree : RadixTree V) : List ℕ → Option (RadixTree V × RadixTree V)
  | [] => some (t, newTree)
  | key :: keys => (t.remove key).bind fun r =>
    match r.1 with
    | some v => (newTree.insert key v).bind fun r' => moveAll r.2 r'.2 keys
    | none => moveAll r.2 newTree keys

/-- `split_off`: what is left and what has been moved. -/
def splitOff (t : RadixTree V) (index : ℕ) : Option (RadixTree V × RadixTree V) :=
  moveAll t new ((t.iter.filter fun e => index ≤ e.1).map Prod.fst)

/-- `TaskManager::all_process_ids`, on the table of processes. -/
def allProcessIds (processes : RadixTree V) : List ℕ := processes.iter.map Prod.fst

/-- `TaskManager::process_ids_by_pgid`, where `pgidOf` reads the group of a
process. -/
def processIdsByPgid (pgidOf : V → ℕ) (processes : RadixTree V) (pgid : ℕ) : List ℕ :=
  (processes.iter.filter fun e => pgidOf e.2 = pgid).map Prod.fst

end RadixTree

/-! ### What an iteration visits -/

namespace Node

/-- The items below a node that a scan from `index` on visits. -/
def scan : ℕ → Node V → ℕ → List (ℕ × V)
  | 0, node, index => blocks (64 ^ 0) fun i => if index ≤ (i : ℕ) then leaf (node.slots i) else []
  | level + 1, node, index => blocks (64 ^ (level + 1)) fun i =>
    if index ≤ (i : ℕ) then inner (fun c => scan level c (i + 1)) (node.slots i) else []

/-- The items that are visited in slot `i`. -/
def slotScan : ℕ → Fin RADIX → Option (Slot V) → List (ℕ × V)
  | 0, _ => leaf
  | level + 1, i => inner fun c => scan level c (i + 1)

theorem scan_eq (level : ℕ) (node : Node V) (index : ℕ) :
    scan level node index = blocks (64 ^ level) fun i =>
      if index ≤ (i : ℕ) then slotScan level i (node.slots i) else [] := by
  cases level <;> rfl

/-- The digits of a key, from the leading one on, are at least `lo` and strictly
increase. -/
def Rising : ℕ → ℕ → ℕ → Bool
  | 0, lo, k => lo ≤ keyIndex k 0
  | level + 1, lo, k =>
    lo ≤ keyIndex k (level + 1) && Rising level (keyIndex k (level + 1) + 1) (k % 64 ^ (level + 1))

theorem scan_eq_filter (level : ℕ) (node : Node V) (lo : ℕ) :
    scan level node lo = (items level node).filter fun e => Rising level lo e.1 := by
  induction level generalizing node lo with
  | zero =>
    rw [scan_eq, items_eq, filter_blocks]
    refine congrArg (blocks _) (funext fun d => ?_)
    rcases hcase : node.slots d with _ | c | v
    · simp [slotScan, slotItems, leaf]
    · simp [slotScan, slotItems, leaf]
    · have hdigit : keyIndex (d * 64 ^ 0 + 0) 0 = d := keyIndex_digit d (by decide)
      have hfilter : [((0 : ℕ), v)].filter (fun e => Rising 0 lo (d * 64 ^ 0 + e.1)) =
          if lo ≤ (d : ℕ) then [(0, v)] else [] := by
        rw [filter_singleton, Rising, hdigit]
        by_cases hlo : lo ≤ (d : ℕ) <;> simp [hlo]
      exact hfilter.symm
  | succ level ih =>
    rw [scan_eq, items_eq, filter_blocks]
    refine congrArg (blocks _) (funext fun d => ?_)
    rcases hcase : node.slots d with _ | c | v
    · simp [slotScan, slotItems, inner]
    · have hrising : ∀ e ∈ items level c, Rising (level + 1) lo (d * 64 ^ (level + 1) + e.1) =
          (decide (lo ≤ (d : ℕ)) && Rising level (d + 1) e.1) := by
        intro e he
        have hlt := (blockKV_items level c).below e he
        rw [Rising, keyIndex_digit d hlt, Nat.mul_add_mod_of_lt hlt]
      simp only [slotScan, slotItems, inner, ih]
      rw [filter_congr hrising]
      by_cases hlo : lo ≤ (d : ℕ)
      · simp [hlo]
      · simp [hlo]
    · simp [slotScan, slotItems, inner]

end Node

variable {state : IterState V} {t : RadixTree V}

namespace IterState

/-- The entries that are visited from a state on, at its node and below. -/
def visits (state : IterState V) : List (ℕ × V) :=
  (state.node.scan state.level state.index).map fun e =>
    (Node.keyFrom state.level state.base e.1, e.2)

variable {i : Fin RADIX}

/-- A value is found at level zero, a child above. -/
theorem found_cases {level : ℕ} {slot : Slot V} {found : Found V}
    (h : slot.found level = some found) :
    (∃ v, level = 0 ∧ slot = .value v ∧ found = .value v) ∨
      ∃ l c, level = l + 1 ∧ slot = .node c ∧ found = .child c := by
  cases level <;> cases slot <;> cases h
  · exact .inl ⟨_, rfl, rfl, rfl⟩
  · exact .inr ⟨_, _, rfl, rfl, rfl⟩

theorem found_eq_none {level : ℕ} {s : Option (Slot V)}
    (h : (s.bind fun slot => (slot.found level).map fun found => (i, found)) = none) :
    Node.slotScan level i s = [] := by
  rcases s with _ | c | v
  · cases level <;> rfl
  · cases level with
    | zero => rfl
    | succ level => simp [Slot.found] at h
  · cases level with
    | zero => simp [Slot.found] at h
    | succ level => rfl

theorem visits_of_seek_none (h : state.seek = none) : state.visits = [] := by
  have hnil : state.node.scan state.level state.index = [] := by
    rw [Node.scan_eq]
    refine flatMap_eq_nil_iff.2 fun i hi => ?_
    have hi := findSome?_eq_none_iff.1 h i hi
    by_cases hle : state.index ≤ (i : ℕ)
    · rw [if_pos hle] at hi
      simp only [if_pos hle, found_eq_none hi]
      rfl
    · simp only [if_neg hle]
      rfl
  rw [visits, hnil]
  rfl

/-- The next slot splits a scan into the part in that slot and the part behind
it. -/
theorem scan_of_seek {found : Found V} (h : state.seek = some (i, found)) :
    state.index ≤ i ∧
      (∃ slot, state.node.slots i = some slot ∧ slot.found state.level = some found) ∧
      state.node.scan state.level state.index =
        shiftKV (i * 64 ^ state.level) (Node.slotScan state.level i (state.node.slots i)) ++
          state.node.scan state.level (i + 1) := by
  obtain ⟨A, d, B, hsplit, hd, hA⟩ := findSome?_eq_some_iff.1 h
  split at hd
  · rename_i hle
    obtain ⟨slot, hslot, hfound⟩ := Option.bind_eq_some_iff.1 hd
    obtain ⟨found', hfound', heq⟩ := Option.map_eq_some_iff.1 hfound
    cases heq
    refine ⟨hle, ⟨slot, hslot, hfound'⟩, ?_⟩
    rw [Node.scan_eq, Node.scan_eq]
    refine blocks_from hsplit hle fun c hc hlo => ?_
    have hnone := hA c hc
    rw [if_pos hlo] at hnone
    exact found_eq_none hnone
  · cases hd

end IterState

/-- The entries that are visited from a stack on. -/
def stackVisits (stack : List (IterState V)) : List (ℕ × V) := stack.flatMap IterState.visits

theorem scanCost_pos (level index : ℕ) : 0 < scanCost level index := by
  cases level <;> exact Nat.succ_pos _

theorem scanCost_le (level index : ℕ) : scanCost level index ≤ scanCost level 0 := by
  cases level with
  | zero =>
    simp only [scanCost]
    omega
  | succ level => exact Nat.succ_le_succ (Nat.mul_le_mul_right _ (by omega))

/-- What the loops rely on: a round that goes on visits what is left to visit,
in order and at some cost, and the iteration ends when nothing is left. -/
def RoundOk (round : List (IterState V) → Round V) : Prop :=
  ∀ stack, match round stack with
    | .yield entry stack' => stackVisits stack = entry :: stackVisits stack' ∧ stack' ≠ [] ∧
        stackCost stack' < stackCost stack
    | .next stack' => stackVisits stack = stackVisits stack' ∧ stack' ≠ [] ∧
        stackCost stack' < stackCost stack
    | .done => stackVisits stack = []

section Rounds

variable {top : IterState V} (below : List (IterState V)) {i : Fin RADIX}

theorem stackVisits_cons (top : IterState V) (below : List (IterState V)) :
    stackVisits (top :: below) = top.visits ++ stackVisits below := rfl

theorem stackCost_cons (top : IterState V) (below : List (IterState V)) :
    stackCost (top :: below) = scanCost top.level top.index + stackCost below := by
  simp [stackCost]

theorem round_value {v : V} (h : top.seek = some (i, .value v)) :
    stackVisits (top :: below) =
        (slotKey top.base top.level i, v) ::
          stackVisits ({ top with index := i + 1 } :: below) ∧
      stackCost ({ top with index := i + 1 } :: below) < stackCost (top :: below) := by
  obtain ⟨hle, ⟨slot, hslot, hfound⟩, hscan⟩ := IterState.scan_of_seek h
  have hlt := i.isLt
  obtain ⟨node, base, level, index⟩ := top
  simp only at hle hslot hfound hscan
  obtain ⟨_, rfl, rfl, hv⟩ | ⟨_, _, -, -, hv⟩ := IterState.found_cases hfound <;> cases hv
  have hdigit : keyIndex (i * 64 ^ 0 + 0) 0 = i := Node.keyIndex_digit i (by decide)
  constructor
  · simp only [stackVisits_cons, IterState.visits, hscan, hslot, Node.slotScan, Node.leaf, shiftKV,
      map_cons, map_nil, cons_append, nil_append, Node.keyFrom, hdigit]
  · simp only [stackCost_cons, scanCost]
    omega

/-- A child in the next slot is visited first, from the slot behind its own on. -/
theorem round_child {c : Node V} (h : top.seek = some (i, .child c)) :
    stackVisits (top :: below) =
        stackVisits (⟨c, slotKey top.base top.level i, top.level - 1, i + 1⟩ ::
          { top with index := i + 1 } :: below) ∧
      stackCost (⟨c, slotKey top.base top.level i, top.level - 1, i + 1⟩ ::
          { top with index := i + 1 } :: below) < stackCost (top :: below) := by
  obtain ⟨hle, ⟨slot, hslot, hfound⟩, hscan⟩ := IterState.scan_of_seek h
  have hlt := i.isLt
  obtain ⟨node, base, level, index⟩ := top
  simp only at hle hslot hfound hscan
  obtain ⟨_, -, -, hc⟩ | ⟨level, _, rfl, rfl, hc⟩ := IterState.found_cases hfound <;> cases hc
  constructor
  · simp only [stackVisits_cons, IterState.visits, hscan, hslot, Node.slotScan, Node.inner, shiftKV,
      map_append, map_map, Nat.add_sub_cancel, append_assoc]
    congr 1
    refine map_congr_left fun e he => ?_
    rw [Node.scan_eq_filter] at he
    have hbelow := (Node.blockKV_items level c).below e (mem_of_mem_filter he)
    simp only [Function.comp_apply, Node.keyFrom_digit i hbelow]
  · have hchild := scanCost_le level (i + 1)
    have hsub : RADIX - index = (RADIX - (i + 1)) + (i + 1 - index) := by omega
    simp only [stackCost_cons, scanCost, Nat.add_sub_cancel]
    rw [hsub, Nat.add_mul]
    have hone : 1 * (scanCost level 0 + 1) ≤ (i + 1 - index) * (scanCost level 0 + 1) :=
      Nat.mul_le_mul_right _ (by omega)
    omega

theorem round_none (h : top.seek = none) :
    stackVisits (top :: below) = stackVisits below ∧
      stackCost below < stackCost (top :: below) := by
  have hpos := scanCost_pos top.level top.index
  rw [stackVisits_cons, IterState.visits_of_seek_none h, stackCost_cons]
  exact ⟨rfl, by omega⟩

theorem visits_of_radix_le (h : RADIX ≤ state.index) : state.visits = [] := by
  refine IterState.visits_of_seek_none (findSome?_eq_none_iff.2 fun i _ => ?_)
  rw [if_neg (by omega)]

end Rounds

theorem iterMut_roundOk : RoundOk (IterMut.round : List (IterState V) → Round V) := by
  intro stack
  cases stack with
  | nil => rfl
  | cons top below =>
    rw [IterMut.round]
    rcases hseek : top.seek with _ | ⟨i, v | c⟩
    · obtain ⟨hvisits, hcost⟩ := round_none below hseek
      cases below with
      | nil => exact hvisits
      | cons next below => exact ⟨hvisits, nofun, hcost⟩
    · obtain ⟨hvisits, hcost⟩ := round_value below hseek
      exact ⟨hvisits, nofun, hcost⟩
    · obtain ⟨hvisits, hcost⟩ := round_child below hseek
      exact ⟨hvisits, nofun, hcost⟩

theorem iter_roundOk : RoundOk (Iter.round : List (IterState V) → Round V) := by
  intro stack
  have hmut := iterMut_roundOk stack
  cases stack with
  | nil => rfl
  | cons top below =>
    rw [Iter.round]
    rw [IterMut.round] at hmut
    rcases hseek : top.seek with _ | ⟨i, v | c⟩
    all_goals rw [hseek] at hmut
    · exact hmut
    · exact hmut
    · obtain ⟨hvisits, -, hcost⟩ := hmut
      by_cases hradix : RADIX ≤ (i : ℕ) + 1
      · -- the child is entered behind its last slot and left at once
        simp only [if_pos hradix]
        rw [stackVisits_cons _ (_ :: _), visits_of_radix_le (by exact hradix), nil_append]
          at hvisits
        rw [stackCost_cons] at hcost
        exact ⟨hvisits, nofun, by omega⟩
      · simp only [if_neg hradix]
        exact ⟨hvisits, nofun, hcost⟩

/-! ### The loops -/

section Loops

variable {round : List (IterState V) → Round V} (hround : RoundOk round)

include hround

variable {stack : List (IterState V)} {fuel : ℕ}

/-- `next` answers the first entry that is left, with enough fuel. -/
theorem nextLoop_eq (hfuel : stackCost stack < fuel) :
    match stackVisits stack with
    | [] => nextLoop round fuel stack = (none, [])
    | entry :: rest => ∃ stack', nextLoop round fuel stack = (some entry, stack') ∧
        stackVisits stack' = rest ∧ stack' ≠ [] := by
  induction fuel generalizing stack with
  | zero => omega
  | succ fuel ih =>
    have hok := hround stack
    rw [nextLoop]
    cases hcase : round stack with
    | yield entry stack' =>
      rw [hcase] at hok
      rw [hok.1]
      exact ⟨stack', rfl, rfl, hok.2.1⟩
    | next stack' =>
      rw [hcase] at hok
      rw [hok.1]
      exact ih (by omega)
    | done =>
      rw [hcase] at hok
      rw [hok]

theorem collectLoop_eq (t : RadixTree V) (hne : stack ≠ [])
    (hfuel : (stackVisits stack).length < fuel) :
    t.collectLoop round fuel stack = stackVisits stack := by
  induction fuel generalizing stack with
  | zero => omega
  | succ fuel ih =>
    have hnext : t.next round stack = nextLoop round (stackCost stack + 1) stack := by
      simp only [RadixTree.next, isEmpty_eq_false_iff.2 hne, Bool.false_eq_true, if_false]
    have hloop := nextLoop_eq hround (Nat.lt_succ_self (stackCost stack))
    rw [RadixTree.collectLoop, hnext]
    cases hvisits : stackVisits stack with
    | nil =>
      rw [hvisits] at hloop
      simp only [hloop]
    | cons entry rest =>
      rw [hvisits] at hloop hfuel
      obtain ⟨stack', hstep, hrest, hne'⟩ := hloop
      simp only [hstep]
      rw [ih hne' (by rw [hrest]; simpa using hfuel), hrest]

/-- A whole iteration yields the entries with rising keys. -/
theorem collect_eq (h : t.Sound) :
    t.collectLoop round (t.len + 1) [] =
      t.contents.filter fun e => Node.Rising (t.height - 1) 0 e.1 := by
  rcases h.shape with ⟨hroot, -⟩ | ⟨root, level, hroot, hheight, -⟩
  · have hdone : t.next round [] = (none, []) := by
      have hloop := nextLoop_eq hround (Nat.lt_succ_self (stackCost ([] : List (IterState V))))
      simp only [RadixTree.next, isEmpty_nil, if_true, hroot]
      exact hloop
    rw [RadixTree.collectLoop, hdone, RadixTree.contents_none hroot]
    rfl
  · have hlevel : t.height - 1 = level := by omega
    have hvisits : stackVisits [(⟨root, 0, level, 0⟩ : IterState V)] =
        t.contents.filter fun e => Node.Rising level 0 e.1 := by
      rw [stackVisits_cons, IterState.visits, Node.scan_eq_filter,
        RadixTree.contents_some hroot hheight]
      show _ ++ [] = _
      rw [append_nil]
      refine (map_congr_left fun e he => ?_).trans (map_id _)
      rw [RadixTree.keyFrom_contents h hroot hheight (mem_of_mem_filter he)]
      rfl
    -- the first call of `next` puts the root on the stack
    have hstart : t.collectLoop round (t.len + 1) [] =
        t.collectLoop round (t.len + 1) [⟨root, 0, level, 0⟩] := by
      simp only [RadixTree.collectLoop, RadixTree.next, isEmpty_nil, if_true, hroot, hlevel,
        isEmpty_cons, Bool.false_eq_true, if_false]
    rw [hstart, collectLoop_eq hround t (cons_ne_nil _ _), hvisits, hlevel]
    rw [hvisits, h.len_eq]
    exact Nat.lt_succ_of_le (length_filter_le _ _)

end Loops

namespace RadixTree

/-- The keys of the tree have strictly increasing digits, from the root down. -/
def AllRising (t : RadixTree V) : Prop :=
  ∀ e ∈ t.contents, Node.Rising (t.height - 1) 0 e.1 = true

theorem iter_eq (h : t.Sound) :
    t.iter = t.contents.filter fun e => Node.Rising (t.height - 1) 0 e.1 :=
  collect_eq iter_roundOk h

theorem iterMut_eq (h : t.Sound) :
    t.iterMut = t.contents.filter fun e => Node.Rising (t.height - 1) 0 e.1 :=
  collect_eq iterMut_roundOk h

theorem iter_eq_contents_iff (h : t.Sound) : t.iter = t.contents ↔ t.AllRising := by
  rw [iter_eq h, filter_eq_self]
  rfl

/-! ### Lists of updates -/

variable {l : List (ℕ × V)}

section Updates

variable {m : OrdMap ℕ V}

theorem insertAll_holds (h : Holds t m) (hl : BelowKV (2 ^ 64) l) :
    ∃ t', t.insertAll l = some t' ∧ Holds t' (l.foldl (fun m e => m.insert e.1 e.2) m) := by
  induction l generalizing t m with
  | nil => exact ⟨t, rfl, h⟩
  | cons e l ih =>
    obtain ⟨t1, hins, h1⟩ := insert_holds h (hl e mem_cons_self) e.2
    obtain ⟨t2, hall, h2⟩ := ih h1 fun e' he' => hl e' (mem_cons_of_mem e he')
    exact ⟨t2, by rw [insertAll, hins, Option.bind_some, hall], h2⟩

theorem removeAll_holds (h : Holds t m) {keys : List ℕ} (hkeys : ∀ k ∈ keys, k < 2 ^ 64) :
    ∃ t', t.removeAll keys = some t' ∧ Holds t' (keys.foldl OrdMap.erase m) := by
  induction keys generalizing t m with
  | nil => exact ⟨t, rfl, h⟩
  | cons k keys ih =>
    obtain ⟨t1, hrem, h1⟩ := remove_holds h (hkeys k mem_cons_self)
    obtain ⟨t2, hall, h2⟩ := ih h1 fun k' hk' => hkeys k' (mem_cons_of_mem k hk')
    exact ⟨t2, by rw [removeAll, hrem, Option.bind_some, hall], h2⟩

theorem drain_eq (h : Holds t m) (hl : SortedKV l) (hmem : ∀ e ∈ l, m.get? e.1 = some e.2) :
    t.drain (l.map Prod.fst) = some l := by
  induction l generalizing t m with
  | nil => rfl
  | cons e l ih =>
    obtain ⟨hlt, hl'⟩ := pairwise_cons.1 hl
    have hget := hmem e mem_cons_self
    have hkey : e.1 < 2 ^ 64 := h.1.fits e (h.2 ▸ mem_entries_iff.2 hget)
    obtain ⟨t1, hrem, h1⟩ := remove_holds h hkey
    have hrest := ih h1 hl' fun e' he' => by
      rw [get?_erase_ne _ (hlt e' he').ne']
      exact hmem e' (mem_cons_of_mem e he')
    rw [map_cons, drain, hrem, hget, Option.bind_some]
    simp only [hrest, Option.map_some]

/-- Writing through the references to entries of the tree. -/
theorem writeAll_holds (h : Holds t m) (f : ℕ → V → Bool × V) (hl : BelowKV (2 ^ 64) l) :
    Holds (t.writeAll f l) (l.foldl (fun m e => m.modify e.1 fun v => (f e.1 v).2) m) := by
  induction l generalizing t m with
  | nil => exact h
  | cons e l ih =>
    obtain ⟨t1, hget, h1⟩ := getMut_holds h (hl e mem_cons_self) fun v => (f e.1 v).2
    rw [writeAll, hget]
    exact ih h1 fun e' he' => hl e' (mem_cons_of_mem e he')

theorem moveAll_holds {s : RadixTree V} {n : OrdMap ℕ V} (h : Holds t m) (hs : Holds s n)
    (hl : SortedKV l) (hmem : ∀ e ∈ l, m.get? e.1 = some e.2) :
    ∃ t' s', moveAll t s (l.map Prod.fst) = some (t', s') ∧
      Holds t' ((l.map Prod.fst).foldl OrdMap.erase m) ∧
      Holds s' (l.foldl (fun m e => m.insert e.1 e.2) n) := by
  induction l generalizing t m s n with
  | nil => exact ⟨t, s, rfl, h, hs⟩
  | cons e l ih =>
    obtain ⟨hlt, hl'⟩ := pairwise_cons.1 hl
    have hget := hmem e mem_cons_self
    have hkey : e.1 < 2 ^ 64 := h.1.fits e (h.2 ▸ mem_entries_iff.2 hget)
    obtain ⟨t1, hrem, h1⟩ := remove_holds h hkey
    obtain ⟨s1, hins, hs1⟩ := insert_holds hs hkey e.2
    obtain ⟨t2, s2, hmove, h2, hs2⟩ := ih h1 hs1 hl' fun e' he' => by
      rw [get?_erase_ne _ (hlt e' he').ne']
      exact hmem e' (mem_cons_of_mem e he')
    refine ⟨t2, s2, ?_, h2, hs2⟩
    rw [map_cons, moveAll, hrem, hget, Option.bind_some]
    simp only [hins, Option.bind_some, hmove]

end Updates

/-! ### Complete iteration -/

/-- What `retain` should leave of a map. -/
def retained (f : ℕ → V → Bool × V) (m : OrdMap ℕ V) : OrdMap ℕ V :=
  m.filterMap fun k v => if (f k v).1 then some (f k v).2 else none

/-- What `append` should make of two maps. -/
def appended (m n : OrdMap ℕ V) : OrdMap ℕ V := n.entries.foldl (fun m e => m.insert e.1 e.2) m

/-- The iterators yield every entry of the map once, in ascending order, and
nothing that is built on them misses one. -/
structure Complete (t : RadixTree V) (m : OrdMap ℕ V) : Prop where
  iter : t.iter = m.entries
  iterMut : t.iterMut = m.entries
  clone : ∃ c, t.clone = some c ∧ Holds c m
  intoIter : t.intoIter = some m.entries
  retain : ∀ f, ∃ t', t.retain f = some t' ∧ Holds t' (retained f m)
  append : ∀ s n, Holds s n → ∃ s', s.append t = some (s', new) ∧ Holds s' (appended n m)
  splitOff : ∀ index, ∃ rest moved, t.splitOff index = some (rest, moved) ∧
    Holds rest (m.filter fun k _ => k < index) ∧ Holds moved (m.filter fun k _ => index ≤ k)
  allProcessIds : t.allProcessIds = m.entries.map Prod.fst
  processIdsByPgid : ∀ pgidOf pgid, t.processIdsByPgid pgidOf pgid =
    (m.entries.filter fun e => pgidOf e.2 = pgid).map Prod.fst

section Complete

variable {m : OrdMap ℕ V}

theorem fits_entries (h : Holds t m) : BelowKV (2 ^ 64) m.entries := h.2 ▸ h.1.fits

theorem foldl_insert_entries (m : OrdMap ℕ V) :
    m.entries.foldl (fun m e => m.insert e.1 e.2) OrdMap.empty = m := by
  refine ext_get? fun k => ?_
  rw [get?_foldl_insert m.sorted, get?_empty, Option.or_none]
  rfl

theorem get?_foldl_modify (g : ℕ → V → V) (hl : SortedKV l) (m : OrdMap ℕ V) (k : ℕ) :
    (l.foldl (fun m e => m.modify e.1 (g e.1)) m).get? k =
      if (lookupKV k l).isSome then (m.get? k).map (g k) else m.get? k := by
  induction l generalizing m with
  | nil => rfl
  | cons e l ih =>
    obtain ⟨hlt, hl'⟩ := pairwise_cons.1 hl
    rw [foldl_cons, ih hl', get?_modify, lookupKV_cons]
    by_cases hk : k = e.1
    · subst hk
      rw [lookupKV_eq_none_of_gt hlt]
      simp
    · rw [if_neg hk, if_neg (Ne.symm hk)]

theorem retain_holds (h : Holds t m) (hiter : t.iterMut = m.entries) (f : ℕ → V → Bool × V) :
    ∃ t', t.retain f = some t' ∧ Holds t' (retained f m) := by
  have hfits := fits_entries h
  have hwritten := writeAll_holds h f hfits
  have hkeys : ∀ k ∈ (m.entries.filter fun e => !(f e.1 e.2).1).map Prod.fst, k < 2 ^ 64 := by
    intro k hk
    obtain ⟨e, he, rfl⟩ := mem_map.1 hk
    exact hfits e (mem_of_mem_filter he)
  obtain ⟨t', hrem, hholds⟩ := removeAll_holds hwritten hkeys
  refine ⟨t', ?_, ?_⟩
  · rw [retain, hiter]
    exact hrem
  · -- compare the two maps key by key
    have hmap : ((m.entries.filter fun e => !(f e.1 e.2).1).map Prod.fst).foldl OrdMap.erase
        (m.entries.foldl (fun m e => m.modify e.1 fun v => (f e.1 v).2) m) = retained f m := by
      refine ext_get? fun k => ?_
      rw [get?_foldl_erase, get?_foldl_modify (fun k v => (f k v).2) m.sorted, retained,
        get?_filterMap]
      have hlookup : lookupKV k m.entries = m.get? k := rfl
      rw [hlookup]
      cases hget : m.get? k with
      | none => simp
      | some v => cases hkeep : (f k v).1 <;> simp [mem_keys_filter hget, hkeep]
    rwa [hmap] at hholds

theorem splitOff_holds (h : Holds t m) (hiter : t.iter = m.entries) (index : ℕ) :
    ∃ rest moved, t.splitOff index = some (rest, moved) ∧
      Holds rest (m.filter fun k _ => k < index) ∧
      Holds moved (m.filter fun k _ => index ≤ k) := by
  have hl : SortedKV (m.entries.filter fun e => index ≤ e.1) := m.sorted.filter _
  obtain ⟨rest, moved, hmove, hrest, hmoved⟩ := moveAll_holds h holds_new hl fun e he =>
    mem_entries_iff.1 (mem_of_mem_filter he)
  refine ⟨rest, moved, ?_, ?_, ?_⟩
  · rw [splitOff, hiter]
    exact hmove
  · have hmap := m.foldl_erase_filter fun k _ => k < index
    simp only [← decide_not, not_lt] at hmap
    rwa [← hmap]
  · have hmap := foldl_insert_entries (m.filter fun k _ => index ≤ k)
    rwa [← hmap]

/-- All stored keys are rising if and only if nothing is missed. -/
theorem complete_iff (h : Holds t m) : Complete t m ↔ t.AllRising := by
  constructor
  · intro hcomplete
    rw [← iter_eq_contents_iff h.1, hcomplete.iter, h.2]
  · intro hrising
    have hiter : t.iter = m.entries := ((iter_eq_contents_iff h.1).2 hrising).trans h.2
    have hiterMut : t.iterMut = m.entries := by rw [iterMut_eq h.1, ← iter_eq h.1, hiter]
    have hinto : t.intoIter = some m.entries := by
      rw [intoIter, hiter]
      exact drain_eq h m.sorted fun e he => mem_entries_iff.1 he
    refine ⟨hiter, hiterMut, ?_, hinto, retain_holds h hiterMut, fun s n hs => ?_,
      splitOff_holds h hiter, ?_, fun pgidOf pgid => ?_⟩
    · obtain ⟨c, hclone, hc⟩ := insertAll_holds holds_new (fits_entries h)
      rw [foldl_insert_entries] at hc
      exact ⟨c, by rw [clone, hiter]; exact hclone, hc⟩
    · obtain ⟨s', hins, hs'⟩ := insertAll_holds hs (fits_entries h)
      exact ⟨s', by rw [append, hinto, Option.bind_some, hins, Option.map_some], hs'⟩
    · rw [allProcessIds, hiter]
    · rw [processIdsByPgid, hiter]

end Complete

/-- For every map that is built by point operations: the tree is iterated
completely if and only if all its keys have strictly increasing digits, from the
root down. -/
theorem iteration_complete_iff (ops : List (Op V)) :
    ∃ bs t, runOps step new ops = some (bs, t) ∧
      (Complete t (finalState specStep OrdMap.empty ops) ↔ t.AllRising) := by
  obtain ⟨t, hrun, hholds⟩ := runOps_refines_total step_refines ops new OrdMap.empty holds_new
  exact ⟨_, t, hrun, complete_iff hholds⟩

/-- A tree that was built by two insertions. -/
def twoEntries : Option (List (Answer Bool) × RadixTree Bool) :=
  runOps step new [.insert 0 true, .insert 64 false]

/-- A tree with the keys 0 and 64 is iterated as if it were empty. -/
theorem iteration_misses_all :
    twoEntries.map (fun r => (r.2.get 0, r.2.get 64)) = some (some true, some false) ∧
      twoEntries.map (fun r => (r.2.iter, r.2.iterMut)) = some ([], []) := by
  decide

end RadixTree

end JanuaryOs.Libs.Rdtree

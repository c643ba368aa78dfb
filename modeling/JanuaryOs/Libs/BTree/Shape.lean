import JanuaryOs.Lib.ListIndex
import JanuaryOs.Lib.OrdMap
import JanuaryOs.Libs.BTree.Tree

/-!
# What a node stands for, and which nodes are well formed

The meaning of a node is the list of its entries in order, `Node.toList`. Order
is not a property of the shape: a search tree is a well-formed tree whose list
is sorted, and the procedures are specified by what they do to the list. The
shape, `Wf h`, is what the procedures index by: all leaves on level `h`, one
more child than entries, no node above the capacity, and no internal node except
the root below `minKeys` keys. Leaves may fall below: `remove_max_static` and
`remove_min_static` take their entry without rebalancing.

A procedure works at one child of a node. `interleave_focus` writes the list of
the node around that child, and `focus_child` and `focus_key` find it by the
key.
-/

namespace JanuaryOs.Libs.Btree

open Lib List

variable {K V : Type*}

/-! ### Entries in order -/

mutual

/-- All entries of a node, in order. -/
def Node.toList : Node K V → List (K × V)
  | .leaf es => es
  | .internal es cs => interleave es cs

/-- The entries of a list of children, with one entry of the parent between
neighbours. -/
def interleave : List (K × V) → List (Node K V) → List (K × V)
  | _, [] => []
  | [], c :: cs => c.toList ++ interleave [] cs
  | e :: es, c :: cs => c.toList ++ e :: interleave es cs

end

@[simp] theorem toList_leaf (es : List (K × V)) : (Node.leaf es).toList = es := by
  simp [Node.toList]

@[simp] theorem toList_internal (es : List (K × V)) (cs : List (Node K V)) :
    (Node.internal es cs).toList = interleave es cs := by
  simp [Node.toList]

/-- What comes before a child: each earlier child followed by its entry. -/
def before : List (K × V) → List (Node K V) → List (K × V)
  | e :: es, c :: cs => c.toList ++ e :: before es cs
  | _, _ => []

/-- What comes after a child: each later entry followed by its child. -/
def after : List (K × V) → List (Node K V) → List (K × V)
  | e :: es, c :: cs => e :: c.toList ++ after es cs
  | _, _ => []

@[simp] theorem before_nil (cs : List (Node K V)) : before [] cs = [] := by simp [before]

@[simp] theorem after_nil (cs : List (Node K V)) : after [] cs = [] := by simp [after]

variable {A B es : List (K × V)} {X Y Z Z' cs cs' : List (Node K V)} {e : K × V} {h : ℕ}
  {l n r : Node K V} {k : K} {v : V}

theorem interleave_append (h : A.length = X.length) (B : List (K × V)) (Y : List (Node K V)) :
    interleave (A ++ B) (X ++ Y) = before A X ++ interleave B Y := by
  induction A generalizing X with
  | nil =>
    obtain rfl := eq_nil_of_length_eq_zero h.symm
    simp [before]
  | cons e A ih =>
    obtain _ | ⟨c, X⟩ := X
    · cases h
    simp only [cons_append, interleave, before, ih (Nat.succ.inj h),
      append_assoc]

theorem interleave_cons (h : B.length = Y.length) (c : Node K V) :
    interleave B (c :: Y) = c.toList ++ after B Y := by
  induction B generalizing c Y with
  | nil =>
    obtain rfl := eq_nil_of_length_eq_zero h.symm
    simp [interleave, after]
  | cons e B ih =>
    cases Y with
    | nil => cases h
    | cons d Y => simp only [interleave, after, ih (Nat.succ.inj h), cons_append]

/-- Two nodes joined by an entry. -/
theorem interleave_join {L : List (K × V)} (hX : X.length = L.length + 1) (s : K × V)
    (R : List (K × V)) (Y : List (Node K V)) :
    interleave (L ++ s :: R) (X ++ Y) = interleave L X ++ s :: interleave R Y := by
  obtain ⟨X, x, rfl⟩ := exists_concat hX
  have hL : L.length = X.length := by simpa using hX.symm
  have hlast := interleave_append hL [] [x]
  rw [append_nil] at hlast
  rw [append_assoc, singleton_append, interleave_append hL, hlast]
  simp [interleave]

/-- The list of a node around some neighbouring children and the entries between
them. -/
theorem interleave_window {S : List (K × V)} (hA : A.length = X.length)
    (hZ : Z.length = S.length + 1) (hB : B.length = Y.length) :
    interleave (A ++ (S ++ B)) (X ++ (Z ++ Y)) = before A X ++ (interleave S Z ++ after B Y) := by
  obtain ⟨Z, z, rfl⟩ := exists_concat hZ
  have hS : S.length = Z.length := by simpa using hZ.symm
  have hlast : interleave S (Z ++ [z]) = before S Z ++ z.toList := by
    have := interleave_append hS [] [z]
    simpa [interleave] using this
  rw [interleave_append hA, append_assoc Z, singleton_append, interleave_append hS,
    interleave_cons hB, hlast, append_assoc]

/-- The list of a node around one child. -/
theorem interleave_focus (c : Node K V) (hA : A.length = X.length) (hB : B.length = Y.length) :
    interleave (A ++ B) (X ++ c :: Y) = before A X ++ (c.toList ++ after B Y) := by
  rw [interleave_append hA, interleave_cons hB]

@[simp] theorem interleave_two (s : K × V) (l r : Node K V) :
    interleave [s] [l, r] = l.toList ++ s :: r.toList := by
  simp [interleave]

@[simp] theorem interleave_one (c : Node K V) : interleave [] [c] = c.toList := by
  simp [interleave]

/-- The list of a node around one entry. -/
theorem interleave_key (s : K × V) (l r : Node K V) (hA : A.length = X.length)
    (hB : B.length = Y.length) :
    interleave (A ++ s :: B) (X ++ l :: r :: Y)
      = (before A X ++ l.toList) ++ s :: (r.toList ++ after B Y) := by
  have := interleave_window (S := [s]) (Z := [l, r]) hA rfl hB
  simpa using this

theorem before_append (h : A.length = X.length) (A' : List (K × V)) (X' : List (Node K V)) :
    before (A ++ A') (X ++ X') = before A X ++ before A' X' := by
  induction A generalizing X with
  | nil =>
    obtain rfl := eq_nil_of_length_eq_zero h.symm
    simp [before]
  | cons e A ih =>
    cases X with
    | nil => cases h
    | cons c X => simp only [cons_append, before, ih (Nat.succ.inj h), append_assoc]

theorem mem_before (h : A.length = X.length) (he : e ∈ A) : e ∈ before A X := by
  induction A generalizing X with
  | nil => cases he
  | cons a A ih =>
    obtain _ | ⟨c, X⟩ := X
    · cases h
    rw [before, mem_append, mem_cons]
    rcases mem_cons.1 he with rfl | he
    · exact .inr (.inl rfl)
    · exact .inr (.inr (ih (Nat.succ.inj h) he))

theorem mem_after (h : B.length = Y.length) (he : e ∈ B) : e ∈ after B Y := by
  induction B generalizing Y with
  | nil => cases he
  | cons b B ih =>
    obtain _ | ⟨c, Y⟩ := Y
    · cases h
    rw [after, cons_append, mem_cons, mem_append]
    rcases mem_cons.1 he with rfl | he
    · exact .inl rfl
    · exact .inr (.inr (ih (Nat.succ.inj h) he))

theorem sublist_interleave (h : es.length < cs.length) : es.Sublist (interleave es cs) := by
  induction es generalizing cs with
  | nil => exact nil_sublist _
  | cons e es ih =>
    obtain _ | ⟨c, cs⟩ := cs
    · cases h
    rw [interleave]
    exact ((ih (Nat.lt_of_succ_lt_succ h)).cons_cons e).trans
      (sublist_append_right _ _)

/-! ### Well-formed nodes -/

/-- All leaves are `h` levels down, every internal node has one more child than
entries, no node has more than `maxKeys` entries and no internal node below this
one fewer than `minKeys`. -/
def Wf : ℕ → Node K V → Prop
  | 0, .leaf es => es.length ≤ maxKeys
  | h + 1, .internal es cs =>
    es.length ≤ maxKeys ∧ cs.length = es.length + 1 ∧
      ∀ c ∈ cs, Wf h c ∧ (0 < h → minKeys ≤ c.size)
  | 0, .internal _ _ => False
  | _ + 1, .leaf _ => False

/-- A node that may stand below another one, on level `h`. -/
def ChildOk (h : ℕ) (c : Node K V) : Prop := Wf h c ∧ (0 < h → minKeys ≤ c.size)

theorem wf_internal :
    Wf (h + 1) (.internal es cs) ↔
      es.length ≤ maxKeys ∧ cs.length = es.length + 1 ∧ ∀ c ∈ cs, ChildOk h c := by
  simp [Wf, ChildOk]

theorem wf_leaf : Wf 0 (.leaf es) ↔ es.length ≤ maxKeys := by simp [Wf]

theorem Wf.size_le (hn : Wf h n) : n.size ≤ maxKeys := by
  cases h <;> cases n <;> simp only [Wf] at hn
  · exact hn
  · exact hn.1

theorem Wf.leaf_of_zero (hn : Wf 0 n) : ∃ es, n = .leaf es := by
  cases n with
  | leaf es => exact ⟨es, rfl⟩
  | internal es cs => simp [Wf] at hn

theorem Wf.internal_of_succ (hn : Wf (h + 1) n) : ∃ es cs, n = .internal es cs := by
  cases n with
  | leaf es => simp [Wf] at hn
  | internal es cs => exact ⟨es, cs, rfl⟩

/-- Induction on the level of a node, with the fuel of a descent through it. -/
theorem Wf.descent {motive : ∀ h fuel (n : Node K V), Wf h n → h < fuel → Prop}
    (leaf : ∀ fuel es hn hfuel, motive 0 (fuel + 1) (.leaf es) hn hfuel)
    (internal : ∀ h fuel es cs hn (hfuel : h < fuel), cs.length = es.length + 1 →
      (∀ c ∈ cs, ChildOk h c) → (∀ c hc, motive h fuel c hc hfuel) →
      motive (h + 1) (fuel + 1) (.internal es cs) hn (Nat.succ_lt_succ hfuel))
    (h fuel : ℕ) (n : Node K V) (hn : Wf h n) (hfuel : h < fuel) : motive h fuel n hn hfuel := by
  induction h generalizing fuel n with
  | zero =>
    obtain ⟨fuel, rfl⟩ := Nat.exists_eq_add_one_of_ne_zero hfuel.ne'
    obtain ⟨es, rfl⟩ := hn.leaf_of_zero
    exact leaf fuel es hn hfuel
  | succ h ih =>
    obtain ⟨fuel, rfl⟩ := Nat.exists_eq_add_one_of_ne_zero (Nat.ne_zero_of_lt hfuel)
    obtain ⟨es, cs, rfl⟩ := hn.internal_of_succ
    obtain ⟨-, hlen, hcs⟩ := wf_internal.1 hn
    exact internal h fuel es cs hn (Nat.lt_of_succ_lt_succ hfuel) hlen hcs fun c hc => ih ..

theorem Wf.height_eq (hn : Wf h n) : n.height = h := by
  induction h generalizing n with
  | zero =>
    obtain ⟨es, rfl⟩ := hn.leaf_of_zero
    simp [Node.height]
  | succ h ih =>
    obtain ⟨es, cs, rfl⟩ := hn.internal_of_succ
    obtain ⟨-, hlen, hcs⟩ := wf_internal.1 hn
    cases cs with
    | nil => cases hlen
    | cons c cs => rw [Node.height, ih (hcs c mem_cons_self).1]

theorem Wf.mem_toList (hn : Wf h n) (he : e ∈ n.entries) : e ∈ n.toList := by
  cases h with
  | zero =>
    obtain ⟨es, rfl⟩ := hn.leaf_of_zero
    simpa using he
  | succ h =>
    obtain ⟨es, cs, rfl⟩ := hn.internal_of_succ
    rw [toList_internal]
    exact (sublist_interleave (by simp [(wf_internal.1 hn).2.1])).mem he

theorem le_length_interleave {m : ℕ} (hlen : cs.length = es.length + 1)
    (hcs : ∀ c ∈ cs, m ≤ c.toList.length + 1) :
    m * (es.length + 1) ≤ (interleave es cs).length + 1 := by
  induction es generalizing cs with
  | nil =>
    obtain ⟨c, rfl⟩ := length_eq_one_iff.1 hlen
    simpa using hcs
  | cons e es ih =>
    obtain _ | ⟨c, cs⟩ := cs
    · cases hlen
    have hrest := ih (Nat.succ.inj hlen) fun d hd => hcs d (mem_cons_of_mem _ hd)
    have hc := hcs c mem_cons_self
    rw [interleave, length_append, length_cons, length_cons, Nat.mul_succ]
    omega

/-- A node lists exponentially many entries in its level. -/
theorem Wf.pow_le (hn : Wf (h + 1) n) :
    (minKeys + 1) ^ h * (n.size + 1) ≤ n.toList.length + 1 := by
  induction h generalizing n
  all_goals
    obtain ⟨es, cs, rfl⟩ := hn.internal_of_succ
    obtain ⟨-, hlen, hcs⟩ := wf_internal.1 hn
    rw [toList_internal]
    refine le_length_interleave hlen fun c hc => ?_
  case zero => exact Nat.le_add_left ..
  case succ h ih =>
    have hmin := (hcs c hc).2 (Nat.succ_pos h)
    rw [pow_succ]
    exact (Nat.mul_le_mul_left _ (Nat.succ_le_succ hmin)).trans (ih (hcs c hc).1)

/-! ### Nodes below a node -/

mutual

/-- All nodes below a node. -/
def Node.descendants : Node K V → List (Node K V)
  | .leaf _ => []
  | .internal _ cs => descendantsOf cs

/-- The nodes of a list and all nodes below them. -/
def descendantsOf : List (Node K V) → List (Node K V)
  | [] => []
  | c :: cs => c :: (c.descendants ++ descendantsOf cs)

end

@[simp] theorem descendants_leaf (es : List (K × V)) : (Node.leaf es).descendants = [] := by
  simp [Node.descendants]

@[simp] theorem descendants_internal (es : List (K × V)) (cs : List (Node K V)) :
    (Node.internal es cs).descendants = descendantsOf cs := by
  simp [Node.descendants]

theorem mem_descendantsOf : n ∈ descendantsOf cs ↔ ∃ c ∈ cs, n = c ∨ n ∈ c.descendants := by
  induction cs with
  | nil => simp [descendantsOf]
  | cons c cs ih => simp [descendantsOf, ih, or_assoc]

@[simp] theorem mem_descendantsOf_append :
    n ∈ descendantsOf (cs ++ cs') ↔ n ∈ descendantsOf cs ∨ n ∈ descendantsOf cs' := by
  induction cs with
  | nil => simp [descendantsOf]
  | cons c cs ih => simp [descendantsOf, ih, or_assoc]

theorem mem_interleave (hn : n ∈ cs) (he : e ∈ n.toList) : e ∈ interleave es cs := by
  induction cs generalizing es with
  | nil => cases hn
  | cons c cs ih =>
    rcases mem_cons.1 hn with rfl | hn
    · cases es <;> simp [interleave, he]
    · cases es <;> simp [interleave, ih hn]

/-- An entry of a node further down is in the list. -/
theorem Wf.mem_toList_below (hn : Wf h n) (hl : l ∈ n.descendants) (he : e ∈ l.entries) :
    e ∈ n.toList := by
  induction h generalizing n with
  | zero =>
    obtain ⟨es, rfl⟩ := hn.leaf_of_zero
    cases hl
  | succ h ih =>
    obtain ⟨es, cs, rfl⟩ := hn.internal_of_succ
    obtain ⟨-, -, hcs⟩ := wf_internal.1 hn
    rw [descendants_internal, mem_descendantsOf] at hl
    rw [toList_internal]
    obtain ⟨c, hc, rfl | hl⟩ := hl
    · exact mem_interleave hc ((hcs l hc).1.mem_toList he)
    · exact mem_interleave hc (ih (hcs c hc).1 hl)

theorem mem_descendantsOf_pair (hn : n ∈ l.descendants ∨ n ∈ r.descendants) :
    n ∈ descendantsOf (X ++ l :: r :: Y) := by
  simp only [mem_descendantsOf_append, descendantsOf, mem_cons, mem_append]
  tauto

/-! ### The outermost leaves -/

/-- The entries of the leftmost leaf, `h` levels down. -/
def leftmost : ℕ → Node K V → List (K × V)
  | 0, n => n.entries
  | _ + 1, .leaf _ => []
  | h + 1, .internal _ cs => (cs.head?.map (leftmost h)).getD []

/-- The entries of the rightmost leaf, `h` levels down. -/
def rightmost : ℕ → Node K V → List (K × V)
  | 0, n => n.entries
  | _ + 1, .leaf _ => []
  | h + 1, .internal _ cs => (cs.getLast?.map (rightmost h)).getD []

@[simp] theorem leftmost_internal (h : ℕ) (es : List (K × V)) (c : Node K V)
    (cs : List (Node K V)) : leftmost (h + 1) (.internal es (c :: cs)) = leftmost h c := by
  simp [leftmost]

@[simp] theorem rightmost_internal (h : ℕ) (es : List (K × V)) (cs : List (Node K V))
    (c : Node K V) : rightmost (h + 1) (.internal es (cs ++ [c])) = rightmost h c := by
  simp [rightmost]

theorem Wf.leftmost_append (hn : Wf h n) : ∃ l, n.toList = leftmost h n ++ l := by
  induction h generalizing n with
  | zero =>
    obtain ⟨es, rfl⟩ := hn.leaf_of_zero
    exact ⟨[], by simp [leftmost]⟩
  | succ h ih =>
    obtain ⟨es, cs, rfl⟩ := hn.internal_of_succ
    obtain ⟨-, hlen, hcs⟩ := wf_internal.1 hn
    obtain _ | ⟨c, cs⟩ := cs
    · cases hlen
    obtain ⟨l, hl⟩ := ih (hcs c mem_cons_self).1
    refine ⟨l ++ after es cs, ?_⟩
    rw [toList_internal, interleave_cons (by simpa using hlen.symm), hl,
      leftmost_internal, append_assoc]

theorem Wf.rightmost_append (hn : Wf h n) : ∃ l, n.toList = l ++ rightmost h n := by
  induction h generalizing n with
  | zero =>
    obtain ⟨es, rfl⟩ := hn.leaf_of_zero
    exact ⟨[], by simp [rightmost]⟩
  | succ h ih =>
    obtain ⟨es, cs, rfl⟩ := hn.internal_of_succ
    obtain ⟨-, hlen, hcs⟩ := wf_internal.1 hn
    obtain ⟨X, c, rfl⟩ := exists_concat hlen
    obtain ⟨l, hl⟩ := ih (hcs c (by simp)).1
    have hX : es.length = X.length := by simpa using hlen.symm
    refine ⟨before es X ++ l, ?_⟩
    have hfocus := interleave_focus (B := []) (Y := []) c hX rfl
    rw [append_nil, after_nil, append_nil] at hfocus
    rw [toList_internal, hfocus, hl, rightmost_internal, append_assoc]

/-- The entries of the leftmost leaf below a list of nodes. -/
def leftmostOf (h : ℕ) (cs : List (Node K V)) : List (K × V) :=
  (cs.head?.map (leftmost h)).getD []

/-- The entries of the rightmost leaf below a list of nodes. -/
def rightmostOf (h : ℕ) (cs : List (Node K V)) : List (K × V) :=
  (cs.getLast?.map (rightmost h)).getD []

/-- Replacing the nodes `Z` by `Z'` leaves no outermost leaf empty that was not. -/
structure EdgesKept (h : ℕ) (Z Z' : List (Node K V)) : Prop where
  left : leftmostOf h Z ≠ [] → leftmostOf h Z' ≠ []
  right : rightmostOf h Z ≠ [] → rightmostOf h Z' ≠ []

theorem leftmostOf_append (h : ℕ) (hX : X ≠ []) (Y : List (Node K V)) :
    leftmostOf h (X ++ Y) = leftmostOf h X := by
  cases X with
  | nil => exact absurd rfl hX
  | cons c X => simp [leftmostOf]

theorem rightmostOf_append (h : ℕ) (X : List (Node K V)) (hY : Y ≠ []) :
    rightmostOf h (X ++ Y) = rightmostOf h Y := by
  unfold rightmostOf
  rw [getLast?_append_of_ne_nil X hY]

theorem size_pos_of_leftmostOf (hne : leftmostOf 0 (l :: Z) ≠ []) : 0 < l.size :=
  length_pos_of_ne_nil hne

theorem size_pos_of_rightmostOf (hne : rightmostOf 0 (X ++ [l, r]) ≠ []) : 0 < r.size := by
  rw [rightmostOf_append 0 X (by simp)] at hne
  exact length_pos_of_ne_nil hne

theorem EdgesKept.refl (h : ℕ) (Z : List (Node K V)) : EdgesKept h Z Z := ⟨id, id⟩

theorem EdgesKept.trans {Z'' : List (Node K V)} (h1 : EdgesKept h Z Z') (h2 : EdgesKept h Z' Z'') :
    EdgesKept h Z Z'' :=
  ⟨fun hne => h2.left (h1.left hne), fun hne => h2.right (h1.right hne)⟩

/-- Edges of a node whose children are replaced in one place. -/
theorem EdgesKept.internal (hk : EdgesKept h Z Z') (hZ : Z ≠ []) (hZ' : Z' ≠ [])
    (es es' : List (K × V)) (X Y : List (Node K V)) :
    EdgesKept (h + 1) [.internal es (X ++ (Z ++ Y))] [.internal es' (X ++ (Z' ++ Y))] where
  left := by
    show leftmostOf h (X ++ (Z ++ Y)) ≠ [] → leftmostOf h (X ++ (Z' ++ Y)) ≠ []
    by_cases hX : X = []
    · subst hX
      rw [nil_append, nil_append, leftmostOf_append h hZ, leftmostOf_append h hZ']
      exact hk.left
    · rw [leftmostOf_append h hX, leftmostOf_append h hX]
      exact id
  right := by
    show rightmostOf h (X ++ (Z ++ Y)) ≠ [] → rightmostOf h (X ++ (Z' ++ Y)) ≠ []
    rw [rightmostOf_append h X (by simp [hZ]), rightmostOf_append h X (by simp [hZ'])]
    by_cases hY : Y = []
    · subst hY
      rw [append_nil, append_nil]
      exact hk.right
    · rw [rightmostOf_append h Z hY, rightmostOf_append h Z' hY]
      exact id

/-- Nodes and their neighbours, cut in another place. -/
theorem edgesKept_regroup {L R L' R' : List (K × V)} {X' Y' : List (Node K V)} (hX : X ≠ [])
    (hY : Y ≠ []) (hX' : X' ≠ []) (hY' : Y' ≠ []) (heq : X ++ Y = X' ++ Y') :
    EdgesKept (h + 1) [.internal L X, .internal R Y] [.internal L' X', .internal R' Y'] where
  left := by
    show leftmostOf h X ≠ [] → leftmostOf h X' ≠ []
    rw [← leftmostOf_append h hX Y, heq, leftmostOf_append h hX' Y']
    exact id
  right := by
    show rightmostOf h Y ≠ [] → rightmostOf h Y' ≠ []
    rw [← rightmostOf_append h X hY, heq, rightmostOf_append h X' hY']
    exact id

theorem edgesKept_join (h : ℕ) (E L R : List (K × V)) (hX : X ≠ []) (hY : Y ≠ []) :
    EdgesKept (h + 1) [.internal E (X ++ Y)] [.internal L X, .internal R Y] ∧
      EdgesKept (h + 1) [.internal L X, .internal R Y] [.internal E (X ++ Y)] := by
  have hl : leftmostOf (h + 1) [.internal E (X ++ Y)] = leftmostOf h X :=
    leftmostOf_append h hX Y
  have hr : rightmostOf (h + 1) [.internal E (X ++ Y)] = rightmostOf h Y :=
    rightmostOf_append h X hY
  exact ⟨⟨fun hne => hl ▸ hne, fun hne => hr ▸ hne⟩, ⟨fun hne => hl ▸ hne, fun hne => hr ▸ hne⟩⟩

/-- `n'` can take the place of `n` on level `h`, and its list is `l`. -/
structure Becomes (h : ℕ) (n n' : Node K V) (l : List (K × V)) : Prop where
  wf : Wf h n'
  list : n'.toList = l
  edges : EdgesKept h [n] [n']

theorem Becomes.refl (hn : Wf h n) : Becomes h n n n.toList :=
  ⟨hn, rfl, .refl h _⟩

theorem Becomes.trans {n' n'' : Node K V} {l l' : List (K × V)} (h1 : Becomes h n n' l)
    (h2 : Becomes h n' n'' l') : Becomes h n n'' l' :=
  ⟨h2.wf, h2.list, h1.edges.trans h2.edges⟩

theorem becomes_set_leaf {w : V} (hn : Wf 0 (.leaf (A ++ (k, v) :: B))) :
    Becomes 0 (.leaf (A ++ (k, v) :: B)) (.leaf (A ++ (k, w) :: B)) (A ++ (k, w) :: B) := by
  refine ⟨wf_leaf.2 (by simpa using wf_leaf.1 hn), by simp, ?_, ?_⟩ <;>
    simp [leftmostOf, rightmostOf, leftmost, rightmost]

/-- Neighbouring children are replaced. -/
theorem becomes_window (S S' : List (K × V)) (Z Z' : List (Node K V)) (hA : A.length = X.length)
    (hB : B.length = Y.length) (hn : Wf (h + 1) (.internal (A ++ (S ++ B)) (X ++ (Z ++ Y))))
    (hZ : Z.length = S.length + 1) (hZ' : Z'.length = S'.length + 1)
    (hroom : (A ++ (S' ++ B)).length ≤ maxKeys) (hok : ∀ c ∈ Z', ChildOk h c)
    (hedges : EdgesKept h Z Z') :
    Becomes (h + 1) (.internal (A ++ (S ++ B)) (X ++ (Z ++ Y)))
      (.internal (A ++ (S' ++ B)) (X ++ (Z' ++ Y)))
      (before A X ++ (interleave S' Z' ++ after B Y)) := by
  obtain ⟨-, -, hcs⟩ := wf_internal.1 hn
  refine ⟨wf_internal.2 ⟨hroom, ?_, fun c hc => ?_⟩, ?_, ?_⟩
  · simp only [length_append]
    omega
  · simp only [mem_append] at hc
    rcases hc with hc | hc | hc
    · exact hcs c (by simp [hc])
    · exact hok c hc
    · exact hcs c (by simp [hc])
  · rw [toList_internal, interleave_window hA hZ' hB]
  · exact hedges.internal (ne_nil_of_length_eq_add_one hZ)
      (ne_nil_of_length_eq_add_one hZ') _ _ X Y

/-- The value of an entry is replaced. -/
theorem becomes_set_internal {w : V} (hA : A.length = X.length) (hB : B.length = Y.length)
    (hn : Wf (h + 1) (.internal (A ++ (k, v) :: B) (X ++ l :: r :: Y))) :
    Becomes (h + 1) (.internal (A ++ (k, v) :: B) (X ++ l :: r :: Y))
      (.internal (A ++ (k, w) :: B) (X ++ l :: r :: Y))
      ((before A X ++ l.toList) ++ (k, w) :: (r.toList ++ after B Y)) := by
  obtain ⟨hes, -, hcs⟩ := wf_internal.1 hn
  have := becomes_window [(k, v)] [(k, w)] [l, r] [l, r] hA hB hn rfl rfl
    (by simpa using hes) (fun c hc => hcs c (by simp at hc ⊢; tauto)) (.refl h _)
  simpa using this

/-! ### Finding the place of a key -/

section Search

variable [LinearOrder K]

variable {key : K} {c : Node K V} {c' : Node K V} {pos : ℕ}

theorem keyPos_eq_none : keyPos key es = none ↔ ∀ e ∈ es, e.1 ≠ key := by
  simp [keyPos, findIdx?_eq_none_iff]

/-- A node cut at an entry. -/
theorem keyPos_split (h : keyPos key es = some pos) :
    ∃ A v B, es = A ++ (key, v) :: B ∧ A.length = pos ∧ ∀ e ∈ A, e.1 ≠ key := by
  obtain ⟨hlt, hkey, hfirst⟩ := findIdx?_eq_some_iff_getElem.1 h
  obtain ⟨A, e, B, rfl, rfl⟩ := exists_split_of_lt hlt
  have he : e.1 = key := by simpa using hkey
  refine ⟨A, e.2, B, by rw [← he], rfl, fun a ha => ?_⟩
  obtain ⟨i, hi, rfl⟩ := List.getElem_of_mem ha
  have := hfirst i hi
  rw [getElem_append_left hi] at this
  simpa using this

theorem childIdx_append (hA : ∀ e ∈ A, e.1 < key) (hB : ∀ e ∈ B, key < e.1) :
    childIdx key (A ++ B) = A.length := by
  induction A with
  | nil =>
    cases B with
    | nil => rfl
    | cons b B => simp [childIdx, findIdx_cons, hB b mem_cons_self]
  | cons a A ih =>
    have ha : ¬ key < a.1 := (hA a mem_cons_self).le.not_gt
    have ih := ih fun e he => hA e (mem_cons_of_mem _ he)
    simp only [childIdx, cons_append, findIdx_cons, ha, decide_false,
      length_cons, cond_false] at ih ⊢
    rw [ih]

/-- What comes before the child of a key is below the key. -/
theorem before_lt (hsorted : SortedKV (before A X)) (hA : ∀ e ∈ A, e.1 < key) :
    ∀ e ∈ before A X, e.1 < key := by
  induction A generalizing X with
  | nil => simp [before]
  | cons a A ih =>
    cases X with
    | nil => simp [before]
    | cons x X =>
      rw [before] at hsorted ⊢
      obtain ⟨-, htail, hcross⟩ := pairwise_append.1 hsorted
      have ha := hA a mem_cons_self
      intro e he
      rcases mem_append.1 he with he | he
      · exact (hcross e he a mem_cons_self).trans ha
      rcases mem_cons.1 he with rfl | he
      · exact ha
      · exact ih (pairwise_cons.1 htail).2
          (fun e he => hA e (mem_cons_of_mem _ he)) e he

theorem after_gt (hsorted : SortedKV (after B Y)) (hB : ∀ e ∈ B, key < e.1) :
    ∀ e ∈ after B Y, key < e.1 := by
  cases B with
  | nil => simp [after]
  | cons b B =>
    cases Y with
    | nil => simp [after]
    | cons y Y =>
      rw [after, cons_append] at hsorted ⊢
      have hb := hB b mem_cons_self
      intro e he
      rcases mem_cons.1 he with rfl | he
      · exact hb
      · exact hb.trans ((pairwise_cons.1 hsorted).1 e he)

theorem Becomes.sorted {L : List (K × V)} (hb : Becomes h n (.internal es cs) L)
    (hL : SortedKV L) : SortedKV (interleave es cs) := by
  rwa [← toList_internal, hb.list]

/-- A node cut at the child that a key not among its entries belongs to. -/
structure Focus (key : K) (es : List (K × V)) (cs : List (Node K V)) (A B : List (K × V))
    (X : List (Node K V)) (c : Node K V) (Y : List (Node K V)) : Prop where
  entries : es = A ++ B
  children : cs = X ++ c :: Y
  left : A.length = X.length
  right : B.length = Y.length
  smaller : ∀ e ∈ before A X, e.1 < key
  larger : ∀ e ∈ after B Y, key < e.1

theorem Focus.childIdx_eq (h : Focus key es cs A B X c Y) : childIdx key es = X.length := by
  rw [h.entries, childIdx_append (fun e he => h.smaller e (mem_before h.left he))
    (fun e he => h.larger e (mem_after h.right he)), h.left]

theorem Focus.interleave_eq (h : Focus key es cs A B X c Y) :
    interleave es cs = before A X ++ (c.toList ++ after B Y) := by
  rw [h.entries, h.children, interleave_focus c h.left h.right]

theorem Focus.child_sorted (h : Focus key es cs A B X c Y) (hsorted : SortedKV (interleave es cs)) :
    SortedKV c.toList := by
  rw [h.interleave_eq] at hsorted
  exact (pairwise_append.1 (pairwise_append.1 hsorted).2.1).1

/-- Replace the child in focus. -/
theorem Focus.replace (hf : Focus key es cs A B X c Y) (hn : Wf (h + 1) (.internal es cs))
    (hc : ChildOk h c') :
    Wf (h + 1) (.internal es (cs.set X.length c')) ∧
      interleave es (cs.set X.length c') = before A X ++ (c'.toList ++ after B Y) := by
  obtain ⟨hes, hlen, hcs⟩ := wf_internal.1 hn
  refine ⟨wf_internal.2 ⟨hes, by rwa [length_set], fun d hd => ?_⟩, ?_⟩
  · rcases mem_or_eq_of_mem_set hd with hd | rfl
    · exact hcs d hd
    · exact hc
  · rw [hf.entries, hf.children, set_at, interleave_focus c' hf.left hf.right]

theorem Focus.becomes {l : List (K × V)} (hf : Focus key es cs A B X c Y)
    (hn : Wf (h + 1) (.internal es cs)) (hc : Becomes h c c' l) (hsize : 0 < h → minKeys ≤ c'.size)
    :
    Becomes (h + 1) (.internal es cs) (.internal es (cs.set X.length c'))
      (before A X ++ (l ++ after B Y)) := by
  obtain ⟨hwf, hlist⟩ := hf.replace hn ⟨hc.wf, hsize⟩
  refine ⟨hwf, by rw [toList_internal, hlist, hc.list], ?_⟩
  rw [hf.children, set_at]
  exact hc.edges.internal (cons_ne_nil _ _) (cons_ne_nil _ _) _ _ X Y

/-- A key above an entry, and below all later ones, belongs to the child after
it. -/
theorem focus_right (hA : A.length = X.length) (hB : B.length = Y.length)
    (hsorted : SortedKV (interleave (A ++ (k, v) :: B) (X ++ l :: r :: Y)))
    (hlarger : ∀ e ∈ after B Y, key < e.1) (hk : k < key) :
    Focus key (A ++ (k, v) :: B) (X ++ l :: r :: Y) (A ++ [(k, v)]) B (X ++ [l]) r Y := by
  refine ⟨by simp, by simp, by simp [hA], hB, fun e he => ?_, hlarger⟩
  rw [interleave_key (k, v) l r hA hB] at hsorted
  rw [before_append hA, before, before_nil, ← append_assoc] at he
  rcases mem_append.1 he with he | he
  · exact (hsorted.lt_of_before e he).trans hk
  · rw [mem_singleton.1 he]
    exact hk

/-- A key below an entry, and above all earlier ones, belongs to the child
before it. -/
theorem focus_left (hA : A.length = X.length) (hB : B.length = Y.length)
    (hsorted : SortedKV (interleave (A ++ (k, v) :: B) (X ++ l :: r :: Y)))
    (hsmaller : ∀ e ∈ before A X, e.1 < key) (hk : key < k) :
    Focus key (A ++ (k, v) :: B) (X ++ l :: r :: Y) A ((k, v) :: B) X l (r :: Y) := by
  refine ⟨rfl, rfl, hA, by simp [hB], hsmaller, fun e he => ?_⟩
  rw [interleave_key (k, v) l r hA hB] at hsorted
  rw [after, cons_append, mem_cons] at he
  rcases he with rfl | he
  · exact hk
  · exact hk.trans (hsorted.lt_of_after e he)

/-- A key that is not an entry cuts the entries in two. -/
theorem split_at_key (hes : SortedKV es) (hkey : keyPos key es = none) :
    ∃ A B, es = A ++ B ∧ (∀ e ∈ A, e.1 < key) ∧ ∀ e ∈ B, key < e.1 := by
  induction es with
  | nil => exact ⟨[], [], rfl, by simp, by simp⟩
  | cons e es ih =>
    obtain ⟨he, hes'⟩ := pairwise_cons.1 hes
    have hne := keyPos_eq_none.1 hkey
    rcases lt_or_gt_of_ne (hne e mem_cons_self) with hlt | hgt
    · obtain ⟨A, B, rfl, hA, hB⟩ := ih hes'
        (keyPos_eq_none.2 fun x hx => hne x (mem_cons_of_mem _ hx))
      refine ⟨e :: A, B, rfl, fun x hx => ?_, hB⟩
      rcases mem_cons.1 hx with rfl | hx
      · exact hlt
      · exact hA x hx
    · refine ⟨[], e :: es, rfl, by simp, fun x hx => ?_⟩
      rcases mem_cons.1 hx with rfl | hx
      · exact hgt
      · exact lt_trans hgt (he x hx)

/-- In a sorted node, a key that is not an entry belongs to one child. -/
theorem focus_child (hlen : cs.length = es.length + 1) (hsorted : SortedKV (interleave es cs))
    (hkey : keyPos key es = none) : ∃ A B X c Y, Focus key es cs A B X c Y := by
  have hes : SortedKV es := hsorted.sublist (sublist_interleave (by omega))
  obtain ⟨A, B, rfl, hA, hB⟩ := split_at_key hes hkey
  rw [length_append] at hlen
  obtain ⟨X, c, Y, rfl, hX⟩ := exists_split_of_lt (l := cs) (i := A.length) (by omega)
  rw [length_append, length_cons] at hlen
  have hY : B.length = Y.length := by omega
  rw [interleave_focus c hX.symm hY] at hsorted
  obtain ⟨hbefore, hrest, -⟩ := pairwise_append.1 hsorted
  obtain ⟨-, hafter, -⟩ := pairwise_append.1 hrest
  exact ⟨A, B, X, c, Y, rfl, rfl, hX.symm, hY, before_lt hbefore hA, after_gt hafter hB⟩

/-- A node cut at the entry of a key. -/
theorem focus_key (hlen : cs.length = es.length + 1) (hkey : keyPos key es = some pos) :
    ∃ A v B X l r Y, es = A ++ (key, v) :: B ∧ cs = X ++ l :: r :: Y ∧ X.length = pos ∧
      A.length = X.length ∧ B.length = Y.length ∧ ∀ e ∈ A, e.1 ≠ key := by
  obtain ⟨A, v, B, rfl, rfl, hne⟩ := keyPos_split hkey
  simp only [length_append, length_cons] at hlen
  obtain ⟨X, l, Z, rfl, hX⟩ := exists_split_of_lt (l := cs) (i := A.length) (by omega)
  simp only [length_append, length_cons] at hlen
  cases Z with
  | nil =>
    simp only [length_nil] at hlen
    omega
  | cons r Y =>
    simp only [length_cons] at hlen
    exact ⟨A, v, B, X, l, r, Y, rfl, rfl, hX, hX.symm, by omega, hne⟩

end Search

end JanuaryOs.Libs.Btree

import JanuaryOs.Libs.BTree.Rebalance

/-!
# Removal

The descent fixes each child before it enters it, so a node below the root
always has a key to spare. The replacement of an entry of an internal node does
not go down that way: `remove_max_static` and `remove_min_static` walk to the
outermost leaf without fixing anything and take an entry there, which panics if
repeated removals have left that leaf empty. `KeyOk` excludes this, and
`fixable` a root without keys whose only child cannot be fixed.
-/

namespace JanuaryOs.Libs.Btree

open Lib List

variable {K V : Type*}

/-! ### Taking the outermost entry -/

/-- `n'` is `n` without its last entry `e`. -/
structure TakesMax (h : ℕ) (n : Node K V) (e : K × V) (n' : Node K V) : Prop where
  wf : Wf h n'
  list : n.toList = n'.toList ++ [e]
  size : n.size ≤ n'.size + 1
  inner : 0 < h → n.size ≤ n'.size
  left : 2 ≤ n.size → leftmost h n ≠ [] → leftmost h n' ≠ []

variable {n : Node K V} {h fuel : ℕ}

theorem removeMax_spec (hn : Wf h n) (hne : rightmost h n ≠ []) (hfuel : h < fuel) :
    ∃ e n', removeMax fuel n = some (e, n') ∧ TakesMax h n e n' := by
  induction h, fuel, n, hn, hfuel using Wf.descent with
  | leaf fuel es hn hfuel =>
    obtain ⟨L, e, rfl⟩ := (eq_nil_or_concat' es).resolve_left hne
    have hle := wf_leaf.1 hn
    rw [length_append, length_singleton] at hle
    refine ⟨e, .leaf L, ?_, wf_leaf.2 (by omega), by simp, by simp, by omega, fun h2 _ => ?_⟩
    · simp only [removeMax, getLast?_concat, dropLast_concat]
    · rw [Node.size_leaf, length_append, length_singleton] at h2
      exact ne_nil_of_length_pos (show 0 < L.length by omega)
  | internal h fuel es cs hn hfuel hlen hcs ih =>
    have hes := (wf_internal.1 hn).1
    obtain ⟨X, c, rfl⟩ := exists_concat hlen
    rw [rightmost_internal] at hne
    have hc := hcs c (by simp)
    obtain ⟨e, c', heq, ht⟩ := ih c hc.1 hne
    have hX : es.length = X.length := by simpa using hlen.symm
    refine ⟨e, .internal es (X ++ [c']), ?_, wf_internal.2 ⟨hes, by simp [hX], ?_⟩, ?_,
      by simp, fun _ => by simp, fun h2 hleft => ?_⟩
    · simp only [removeMax, getLast?_concat, heq, Option.map_some, dropLast_concat]
    · intro d hd
      rcases mem_append.1 hd with hd | hd
      · exact hcs d (by simp [hd])
      · rw [mem_singleton.1 hd]
        exact ⟨ht.wf, fun hpos => (hc.2 hpos).trans (ht.inner hpos)⟩
    · have hlast := fun d : Node K V => interleave_append hX [] [d]
      simp only [append_nil, interleave_one] at hlast
      rw [toList_internal, toList_internal, hlast, hlast, ht.list, append_assoc]
    · have hXne : X ≠ [] := ne_nil_of_length_pos (by simp at h2; omega)
      have : leftmostOf h (X ++ [c]) ≠ [] := hleft
      rw [leftmostOf_append h hXne, ← leftmostOf_append h hXne [c']] at this
      exact this

/-- `n'` is `n` without its first entry `e`. -/
structure TakesMin (h : ℕ) (n : Node K V) (e : K × V) (n' : Node K V) : Prop where
  wf : Wf h n'
  list : n.toList = e :: n'.toList
  size : n.size ≤ n'.size + 1
  inner : 0 < h → n.size ≤ n'.size
  right : 2 ≤ n.size → rightmost h n ≠ [] → rightmost h n' ≠ []

theorem removeMin_spec (hn : Wf h n) (hne : leftmost h n ≠ []) (hfuel : h < fuel) :
    ∃ e n', removeMin fuel n = some (e, n') ∧ TakesMin h n e n' := by
  induction h, fuel, n, hn, hfuel using Wf.descent with
  | leaf fuel es hn hfuel =>
    obtain ⟨e, R, rfl⟩ := exists_cons_of_ne_nil hne
    have hle := wf_leaf.1 hn
    rw [length_cons] at hle
    refine ⟨e, .leaf R, rfl, wf_leaf.2 (by omega), by simp, by simp, by omega, fun h2 _ => ?_⟩
    rw [Node.size_leaf, length_cons] at h2
    exact ne_nil_of_length_pos (show 0 < R.length by omega)
  | internal h fuel es cs hn hfuel hlen hcs ih =>
    have hes := (wf_internal.1 hn).1
    obtain ⟨c, Y, rfl⟩ := exists_cons_of_length_eq_add_one hlen
    rw [leftmost_internal] at hne
    have hc := hcs c (by simp)
    obtain ⟨e, c', heq, ht⟩ := ih c hc.1 hne
    have hY : es.length = Y.length := by simpa using hlen.symm
    refine ⟨e, .internal es (c' :: Y), ?_, wf_internal.2 ⟨hes, by simp [hY], ?_⟩, ?_,
      by simp, fun _ => by simp, fun h2 hright => ?_⟩
    · simp only [removeMin, heq, Option.map_some]
    · intro d hd
      rcases mem_cons.1 hd with rfl | hd
      · exact ⟨ht.wf, fun hpos => (hc.2 hpos).trans (ht.inner hpos)⟩
      · exact hcs d (by simp [hd])
    · rw [toList_internal, toList_internal, interleave_cons hY, interleave_cons hY, ht.list,
        cons_append]
    · have hYne : Y ≠ [] := ne_nil_of_length_pos (by simp at h2; omega)
      have : rightmostOf h ([c] ++ Y) ≠ [] := hright
      rw [rightmostOf_append h [c] hYne, ← rightmostOf_append h [c'] hYne] at this
      exact this

/-! ### The descent -/

/-- A root without keys has an only child, which has to have a key to spare. -/
def fixable : Node K V → Bool
  | .internal [] cs => cs.all fun c => minKeys < c.size
  | _ => true

theorem fixable_of_lt (hn : 0 < n.size) : fixable n = true := by
  match n with
  | .leaf _ => rfl
  | .internal [] cs => simp at hn
  | .internal (_ :: _) _ => rfl

/-! What `replaceable` gives in each case. -/

theorem rightmost_ne_of_replaceable {l r : Node K V} (hspare : minKeys < l.size)
    (hok : replaceable h l r = true) : rightmost h l ≠ [] := by
  cases h with
  | zero => exact ne_nil_of_length_pos (Nat.zero_lt_of_lt hspare)
  | succ h => simpa [replaceable, hspare] using hok

theorem leftmost_ne_of_replaceable {l r : Node K V} (hl : l.size ≤ minKeys)
    (hspare : minKeys < r.size) (hok : replaceable h l r = true) : leftmost h r ≠ [] := by
  cases h with
  | zero => exact ne_nil_of_length_pos (Nat.zero_lt_of_lt hspare)
  | succ h => simpa [replaceable, hl.not_gt, hspare] using hok

section Descent

variable [LinearOrder K] {key : K}

/-- Wherever the key is an entry of an internal node, it can be replaced there. -/
def KeyOk (key : K) (n : Node K V) : Prop :=
  ∀ m ∈ n :: n.descendants, entryOk key m = true

/-- `n'` is what a removal makes of `n`. -/
structure Removed (key : K) (h fuel : ℕ) (n n' : Node K V) : Prop where
  answer : removeFromNode key fuel n = some (lookupKV key n.toList, n')
  wf : Wf h n'
  list : n'.toList = eraseKV key n.toList
  size : n.size ≤ n'.size + 1
  edges : 0 < h → EdgesKept h [n] [n']

/-- The outermost leaves keep an entry; on the lowest level, if there are two. -/
theorem Removed.outermost_ne {n' : Node K V} (hr : Removed key h fuel n n') :
    (leftmost h n ≠ [] → (h = 0 → 2 ≤ n.size) → leftmost h n' ≠ []) ∧
      (rightmost h n ≠ [] → (h = 0 → 2 ≤ n.size) → rightmost h n' ≠ []) := by
  cases h with
  | zero =>
    have hpos : 2 ≤ n.size → n'.entries ≠ [] := fun h2 => by
      have hsize := hr.size
      exact ne_nil_of_length_pos (show 0 < n'.size by omega)
    exact ⟨fun _ h2 => hpos (h2 rfl), fun _ h2 => hpos (h2 rfl)⟩
  | succ h =>
    have hedges := hr.edges (Nat.succ_pos h)
    exact ⟨fun hne _ => hedges.left hne, fun hne _ => hedges.right hne⟩

variable {es es' A B : List (K × V)} {cs cs' X Y : List (Node K V)} {c d d' l r : Node K V}

theorem removed_leaf (key : K) (fuel : ℕ) (hn : Wf 0 (.leaf es)) (hsorted : SortedKV es) :
    ∃ n', Removed key 0 (fuel + 1) (.leaf es) n' := by
  cases hpos : keyPos key es with
  | none =>
    have hne := keyPos_eq_none.1 hpos
    refine ⟨.leaf es, ?_, hn, ?_, by simp, by omega⟩
    · rw [toList_leaf, lookupKV_eq_none.2 hne]
      simp only [removeFromNode, hpos]
    · rw [toList_leaf, eraseKV_eq_self hne]
  | some pos =>
    obtain ⟨A, v, B, rfl, rfl, -⟩ := keyPos_split hpos
    have hle := wf_leaf.1 hn
    simp only [length_append, length_cons] at hle
    refine ⟨.leaf (A ++ B), ?_, wf_leaf.2 (by simp; omega), ?_, by simp; omega, by omega⟩
    · rw [toList_leaf, lookupKV_around hsorted]
      simp only [removeFromNode, hpos, getElem?_at, Option.map_some, eraseIdx_at]
    · rw [toList_leaf, toList_leaf, eraseKV_around hsorted]

/-- Descend into the child in focus of what rebalancing has made of the node. -/
theorem removed_descend
    (hb : Becomes (h + 1) (.internal es cs) (.internal es' cs') (interleave es cs))
    (hshrinks : es.length ≤ es'.length + 1) (hf : Focus key es' cs' A B X d Y)
    (hspare : 0 < h → minKeys < d.size) (hleft : h = 0 → X = [] → leftmostOf h cs ≠ [] → 2 ≤ d.size)
    (hright : h = 0 → Y = [] → rightmostOf h cs ≠ [] → 2 ≤ d.size)
    (heq : removeFromNode key (fuel + 1) (.internal es cs) =
      (removeFromNode key fuel d).map fun r => (r.1, .internal es' (cs'.set X.length r.2)))
    (hd : Removed key h fuel d d') :
    Removed key (h + 1) (fuel + 1) (.internal es cs) (.internal es' (cs'.set X.length d')) := by
  have hlist : interleave es cs = before A X ++ (d.toList ++ after B Y) := by
    rw [← hb.list, toList_internal, hf.interleave_eq]
  have hchild : ChildOk h d' := ⟨hd.wf, fun hpos => by
    have := hspare hpos
    have := hd.size
    omega⟩
  obtain ⟨hwf, hlist'⟩ := hf.replace hb.wf hchild
  have hset : cs'.set X.length d' = X ++ d' :: Y := by rw [hf.children, set_at]
  refine ⟨?_, hwf, ?_, hshrinks, fun _ => ⟨fun hne => ?_, fun hne => ?_⟩⟩
  · rw [heq, hd.answer, Option.map_some, toList_internal, hlist,
      lookupKV_mid hf.smaller hf.larger]
  · rw [toList_internal, toList_internal, hlist', hlist, eraseKV_append hf.smaller hf.larger,
      hd.list]
  · have hne' : leftmostOf h (X ++ d :: Y) ≠ [] := hf.children ▸ hb.edges.left hne
    show leftmostOf h (cs'.set X.length d') ≠ []
    rw [hset]
    by_cases hX : X = []
    · subst hX
      exact hd.outermost_ne.1 hne' fun h0 => hleft h0 rfl hne
    · rwa [leftmostOf_append h hX] at hne' ⊢
  · have hne' : rightmostOf h (X ++ d :: Y) ≠ [] := hf.children ▸ hb.edges.right hne
    show rightmostOf h (cs'.set X.length d') ≠ []
    rw [hset]
    by_cases hY : Y = []
    · subst hY
      rw [rightmostOf_append h X (cons_ne_nil _ _)] at hne' ⊢
      exact hd.outermost_ne.2 hne' fun h0 => hright h0 rfl hne
    · rw [← singleton_append, ← append_assoc, rightmostOf_append h _ hY] at hne' ⊢
      exact hne'

/-- One level of the descent, into a child with a key to spare. -/
theorem removeFromNode_child (fuel : ℕ)
    (hpos : keyPos key es = none) (hf : Focus key es cs A B X c Y) (hspare : minKeys < c.size) :
    removeFromNode key (fuel + 1) (.internal es cs)
      = (removeFromNode key fuel c).map fun r => (r.1, .internal es (cs.set X.length r.2)) := by
  have hat : cs[X.length]? = some c := by rw [hf.children, getElem?_at]
  rw [removeFromNode]
  simp [hpos, hf.childIdx_eq, hat, hspare.not_ge]

theorem removeFromNode_fix (fuel : ℕ) {A' B' : List (K × V)} {X' Y' : List (Node K V)}
    {c' : Node K V} (hpos : keyPos key es = none) (hf : Focus key es cs A B X c Y)
    (hsmall : c.size ≤ minKeys) (hfix : fixChild es cs X.length = some (es', cs'))
    (hf' : Focus key es' cs' A' B' X' c' Y') :
    removeFromNode key (fuel + 1) (.internal es cs)
      = (removeFromNode key fuel c').map fun r => (r.1, .internal es' (cs'.set X'.length r.2)) := by
  have hat : cs[X.length]? = some c := by rw [hf.children, getElem?_at]
  have hat' : cs'[X'.length]? = some c' := by rw [hf'.children, getElem?_at]
  rw [removeFromNode]
  simp [hpos, hf.childIdx_eq, hat, hsmall, hfix, hf'.childIdx_eq, hat']

/-! ### The key is an entry of an internal node -/

section Found

variable {v : V} (hA : A.length = X.length) (hB : B.length = Y.length)
  (hn : Wf (h + 1) (.internal (A ++ (key, v) :: B) (X ++ l :: r :: Y)))
  (hsorted : SortedKV (interleave (A ++ (key, v) :: B) (X ++ l :: r :: Y)))
  (hpos : keyPos key (A ++ (key, v) :: B) = some X.length)

include hA hB hn hsorted

/-- The entry is replaced by one taken from a neighbouring child. -/
theorem removed_replace (e : K × V) (l' r' : Node K V)
    (hlist : l'.toList ++ e :: r'.toList = l.toList ++ r.toList) (hl' : ChildOk h l')
    (hr' : ChildOk h r') (hedges : EdgesKept h [l, r] [l', r'])
    (heq : removeFromNode key (fuel + 1) (.internal (A ++ (key, v) :: B) (X ++ l :: r :: Y))
      = some (some v, .internal (A ++ e :: B) (X ++ l' :: r' :: Y))) :
    ∃ n', Removed key (h + 1) (fuel + 1)
      (.internal (A ++ (key, v) :: B) (X ++ l :: r :: Y)) n' := by
  have hes := (wf_internal.1 hn).1
  have hb := becomes_window [(key, v)] [e] [l, r] [l', r'] hA hB hn
    rfl rfl (by simpa using hes)
    (by
      intro d hd
      rcases mem_pair.1 hd with rfl | rfl
      · exact hl'
      · exact hr')
    hedges
  rw [interleave_key (key, v) l r hA hB] at hsorted
  refine ⟨_, ?_, hb.wf, ?_, by simp, fun _ => hb.edges⟩
  · rw [toList_internal, interleave_key (key, v) l r hA hB, lookupKV_around hsorted]
    exact heq
  · rw [hb.list, interleave_two, hlist, toList_internal, interleave_key (key, v) l r hA hB,
      eraseKV_around hsorted]
    simp

include hpos

theorem removed_predecessor (hspare : minKeys < l.size) (hne : rightmost h l ≠ [])
    (hfuel : h < fuel) : ∃ n', Removed key (h + 1) (fuel + 1)
      (.internal (A ++ (key, v) :: B) (X ++ l :: r :: Y)) n' := by
  obtain ⟨hl, hr⟩ := neighbours_ok hn
  have hmin : 0 < minKeys := by decide
  obtain ⟨e, l', hmax, ht⟩ := removeMax_spec hl.1 hne hfuel
  refine removed_replace hA hB hn hsorted e l' r (by simp [ht.list])
    ⟨ht.wf, fun h0 => hspare.le.trans (ht.inner h0)⟩ hr
    ⟨ht.left (by omega), id⟩ ?_
  simp only [removeFromNode, hpos, getElem?_at_of hA, getElem?_at, if_pos hspare, hmax,
    Option.map_some, set_at_of _ hA, set_at]

theorem removed_successor (hl : l.size ≤ minKeys) (hspare : minKeys < r.size)
    (hne : leftmost h r ≠ []) (hfuel : h < fuel) : ∃ n', Removed key (h + 1) (fuel + 1)
      (.internal (A ++ (key, v) :: B) (X ++ l :: r :: Y)) n' := by
  obtain ⟨hl', hr⟩ := neighbours_ok hn
  have hmin : 0 < minKeys := by decide
  obtain ⟨e, r', hmax, ht⟩ := removeMin_spec hr.1 hne hfuel
  refine removed_replace hA hB hn hsorted e l r' (by simp [ht.list])
    hl' ⟨ht.wf, fun h0 => hspare.le.trans (ht.inner h0)⟩
    ⟨id, ht.right (by omega)⟩ ?_
  simp only [removeFromNode, hpos, getElem?_at_of hA, getElem?_at, if_neg hl.not_gt, getElem?_after,
    if_pos hspare, hmax, Option.map_some, set_at_of _ hA, set_after]

/-- Neither neighbour has an entry to give: they are merged around the key,
which is then removed from the merged child. -/
theorem removed_merge (hl : l.size ≤ minKeys) (hr : r.size ≤ minKeys)
    (ih : ∃ d', Removed key h fuel (mergeNodes l (key, v) r) d') :
    ∃ n', Removed key (h + 1) (fuel + 1)
      (.internal (A ++ (key, v) :: B) (X ++ l :: r :: Y)) n' := by
  have hmax : minKeys + minKeys < maxKeys := by decide
  obtain ⟨d', hd'⟩ := ih
  obtain ⟨hl', hr'⟩ := neighbours_ok hn
  obtain ⟨hm, -, -⟩ := mergeNodes_spec (key, v) key hl' hr' (by omega)
  have hsize := hm.size
  rw [interleave_key (key, v) l r hA hB] at hsorted
  have hf : Focus key (A ++ B) (X ++ mergeNodes l (key, v) r :: Y) A B X
      (mergeNodes l (key, v) r) Y :=
    ⟨rfl, rfl, hA, hB, fun e he => hsorted.lt_of_before e (mem_append_left _ he),
      fun e he => hsorted.lt_of_after e (mem_append_right _ he)⟩
  refine ⟨_, removed_descend (becomes_merged hA hB hn hm) (by simp; omega) hf ?_ ?_ ?_ ?_ hd'⟩
  · intro hpos
    have := hl'.2 hpos
    have := hr'.2 hpos
    have : 0 < minKeys := by decide
    omega
  · rintro rfl rfl hne
    have := size_pos_of_leftmostOf hne
    omega
  · rintro rfl rfl hne
    have := size_pos_of_rightmostOf hne
    omega
  · simp only [removeFromNode, hpos, getElem?_at_of hA, getElem?_at, if_neg hl.not_gt,
      getElem?_after, if_neg hr.not_gt, mergeChildren_eq hA]

end Found

theorem entryOk_merge {v : V} (hl : Wf h l) (hr : Wf h r)
    (hlsmall : l.size ≤ minKeys) (hrsmall : r.size ≤ minKeys) (hkeys : ∀ e ∈ l.entries, e.1 ≠ key)
    (hok : replaceable h l r = true) : entryOk key (mergeNodes l (key, v) r) = true := by
  cases h with
  | zero =>
    obtain ⟨les, rfl⟩ := hl.leaf_of_zero
    rfl
  | succ h =>
    obtain ⟨les, lcs, rfl⟩ := hl.internal_of_succ
    obtain ⟨res, rcs, rfl⟩ := hr.internal_of_succ
    obtain ⟨-, hllen, hlcs⟩ := wf_internal.1 hl
    obtain ⟨-, hrlen, -⟩ := wf_internal.1 hr
    obtain ⟨X, x, rfl⟩ := exists_concat hllen
    obtain ⟨y, Y, rfl⟩ := exists_cons_of_length_eq_add_one hrlen
    have hx := (hlcs x (by simp)).1.height_eq
    have hX : les.length = X.length := by simpa using hllen.symm
    rw [Node.entries_internal] at hkeys
    simp only [mergeNodes, append_assoc, singleton_append]
    rw [entryOk_at hkeys hX, hx]
    rw [replaceable, if_neg hlsmall.not_gt, if_neg hrsmall.not_gt] at hok
    simpa using hok

/-- The key is an entry of an internal node, where it can be replaced. -/
theorem removed_found {pos : ℕ} (hn : Wf (h + 1) (.internal es cs))
    (hsorted : SortedKV (interleave es cs)) (hkey : KeyOk key (.internal es cs))
    (hpos : keyPos key es = some pos) (hfuel : h < fuel)
    (ih : ∀ d : Node K V, Wf h d → SortedKV d.toList → KeyOk key d → 0 < d.size →
      ∃ d', Removed key h fuel d d') :
    ∃ n', Removed key (h + 1) (fuel + 1) (.internal es cs) n' := by
  obtain ⟨A, v, B, X, l, r, Y, rfl, rfl, rfl, hA, hB, hAkey⟩ :=
    focus_key (wf_internal.1 hn).2.1 hpos
  obtain ⟨hl, hr⟩ := neighbours_ok hn
  have hok : replaceable h l r = true := by
    have := hkey _ mem_cons_self
    rwa [entryOk_at hAkey hA, hl.1.height_eq] at this
  by_cases hlspare : minKeys < l.size
  · exact removed_predecessor hA hB hn hsorted hpos hlspare
      (rightmost_ne_of_replaceable hlspare hok) hfuel
  by_cases hrspare : minKeys < r.size
  · exact removed_successor hA hB hn hsorted hpos (not_lt.1 hlspare) hrspare
      (leftmost_ne_of_replaceable (not_lt.1 hlspare) hrspare hok) hfuel
  have hmax : minKeys + minKeys < maxKeys := by decide
  obtain ⟨hm, hgrown, -⟩ := mergeNodes_spec (key, v) key hl hr (by omega)
  have hkeys : ∀ e ∈ l.entries, e.1 ≠ key := fun e he =>
    (left_lt_sep hA hB hsorted (hl.1.mem_toList he)).ne
  refine removed_merge hA hB hn hsorted hpos (not_lt.1 hlspare) (not_lt.1 hrspare)
    (ih _ hm.ok.1 ?_ ?_ (by rw [hm.size]; omega))
  · rw [hm.list]
    rw [interleave_key (key, v) l r hA hB] at hsorted
    exact hsorted.sublist ((sublist_append_right _ _).append
      ((sublist_append_left _ _).cons_cons _))
  · intro m hm
    rcases mem_cons.1 hm with rfl | hm
    · exact entryOk_merge hl.1 hr.1 (not_lt.1 hlspare) (not_lt.1 hrspare) hkeys hok
    · refine hkey m (mem_cons_of_mem _ ?_)
      rw [descendants_internal]
      exact mem_descendantsOf_pair (hgrown.below m hm)

theorem removeFromNode_spec (hn : Wf h n) (hsorted : SortedKV n.toList) (hkey : KeyOk key n)
    (hfix : fixable n = true) (hfuel : h < fuel) : ∃ n', Removed key h fuel n n' := by
  induction h, fuel, n, hn, hfuel using Wf.descent with
  | leaf fuel es hn hfuel =>
    exact removed_leaf key fuel hn (by simpa using hsorted)
  | internal h fuel es cs hn hfuel hlen hcs ih =>
    rw [toList_internal] at hsorted
    have hbelow : ∀ m ∈ descendantsOf cs, entryOk key m = true := fun m hm =>
      hkey m (mem_cons_of_mem _ (by rwa [descendants_internal]))
    cases hpos : keyPos key es with
    | some pos =>
      exact removed_found hn hsorted hkey hpos hfuel fun d hd hds hdk hdpos =>
        ih d hd hds hdk (fixable_of_lt hdpos)
    | none =>
      obtain ⟨A, B, X, c, Y, hf⟩ := focus_child hlen hsorted hpos
      have hmem : c ∈ cs := by simp [hf.children]
      have hc := hcs c hmem
      have hckey : KeyOk key c := fun m hm =>
        hbelow m (mem_descendantsOf.2 ⟨c, hmem, mem_cons.1 hm⟩)
      have hmin : 2 ≤ minKeys := by decide
      by_cases hspare : minKeys < c.size
      · obtain ⟨c', hc'⟩ := ih c hc.1 (hf.child_sorted hsorted) hckey
          (fixable_of_lt (by omega))
        exact ⟨_, removed_descend (by simpa using Becomes.refl hn) (by omega) hf
          (fun _ => hspare) (fun _ _ _ => by omega) (fun _ _ _ => by omega)
          (removeFromNode_child fuel hpos hf hspare) hc'⟩
      · have hne : es ≠ [] := by
          rintro rfl
          have hall : ∀ d ∈ cs, minKeys < d.size := by simpa [fixable] using hfix
          exact hspare (hall c hmem)
        obtain ⟨es', cs', A', B', X', d, Y', hfixed, hx⟩ :=
          fixChild_spec hf hn hsorted hne (not_lt.1 hspare)
        have hgrows := hx.grows
        have hd := (wf_internal.1 hx.becomes.wf).2.2 d (by simp [hx.focus.children])
        have hdkey : KeyOk key d := fun m hm => by
          rcases mem_cons.1 hm with rfl | hm
          · exact hx.entry (hckey c mem_cons_self)
          · exact hbelow m (hx.below m hm)
        obtain ⟨d', hd'⟩ := ih d hd.1 (hx.focus.child_sorted (hx.becomes.sorted hsorted)) hdkey
          (fixable_of_lt (by omega))
        refine ⟨_, removed_descend hx.becomes hx.shrinks hx.focus (fun hpos => ?_) hx.leftHeavy
          hx.rightHeavy (removeFromNode_fix fuel hpos hf (not_lt.1 hspare) hfixed hx.focus) hd'⟩
        have := hc.2 hpos
        omega

end Descent

end JanuaryOs.Libs.Btree

import JanuaryOs.Libs.BTree.Shape

/-!
# Borrowing from a sibling and merging with one

`fix_child_static` makes sure that the child `remove` descends into has a key to
spare. It moves entries between two neighbours and their separator, so the list
of the node stays as it is; what changes is which child the key belongs to, and
that this child has grown.

The key to remove may itself be an entry of that child. `entryOk` says that it
can be replaced there, by its predecessor or its successor, and is carried
through the fix.
-/

namespace JanuaryOs.Libs.Btree

open Lib List

variable {K V : Type*} {A B : List (K × V)} {X Y : List (Node K V)} {l r : Node K V}

/-! ### Two neighbours -/

theorem neighbours_ok {es : List (K × V)} {h : ℕ}
    (hn : Wf (h + 1) (.internal es (X ++ l :: r :: Y))) : ChildOk h l ∧ ChildOk h r := by
  have hcs := (wf_internal.1 hn).2.2
  exact ⟨hcs l (by simp), hcs r (by simp)⟩

/-- Two neighbours after a key was passed over their separator. -/
structure Rotated (h : ℕ) (l : Node K V) (sep : K × V) (r l' : Node K V) (e : K × V)
    (r' : Node K V) : Prop where
  left : ChildOk h l'
  right : ChildOk h r'
  list : l'.toList ++ e :: r'.toList = l.toList ++ sep :: r.toList
  edges : EdgesKept h [l, r] [l', r']

variable {e : K × V} {es : List (K × V)} {cs : List (Node K V)} {h : ℕ} {sep : K × V}

theorem becomes_rotated {l' r' : Node K V} (hA : A.length = X.length) (hB : B.length = Y.length)
    (hn : Wf (h + 1) (.internal (A ++ sep :: B) (X ++ l :: r :: Y)))
    (hr : Rotated h l sep r l' e r') :
    Becomes (h + 1) (.internal (A ++ sep :: B) (X ++ l :: r :: Y))
      (.internal (A ++ e :: B) (X ++ l' :: r' :: Y))
      (interleave (A ++ sep :: B) (X ++ l :: r :: Y)) := by
  have hes := (wf_internal.1 hn).1
  have hb := becomes_window [sep] [e] [l, r] [l', r'] hA hB hn rfl
    rfl (by simpa using hes)
    (by
      intro d hd
      rcases mem_pair.1 hd with rfl | rfl
      · exact hr.left
      · exact hr.right)
    hr.edges
  rwa [interleave_two, hr.list, ← interleave_two, ← interleave_window hA rfl hB] at hb

/-- Two neighbours joined around their separator. -/
structure Merged (h : ℕ) (l : Node K V) (sep : K × V) (r m : Node K V) : Prop where
  ok : ChildOk h m
  list : m.toList = l.toList ++ sep :: r.toList
  size : m.size = l.size + r.size + 1
  edges : EdgesKept h [l, r] [m]

theorem becomes_merged {m : Node K V} (hA : A.length = X.length) (hB : B.length = Y.length)
    (hn : Wf (h + 1) (.internal (A ++ sep :: B) (X ++ l :: r :: Y))) (hm : Merged h l sep r m) :
    Becomes (h + 1) (.internal (A ++ sep :: B) (X ++ l :: r :: Y))
      (.internal (A ++ B) (X ++ m :: Y)) (interleave (A ++ sep :: B) (X ++ l :: r :: Y)) := by
  have hes := (wf_internal.1 hn).1
  have hb := becomes_window [sep] [] [l, r] [m] hA hB hn rfl
    rfl (by simp at hes ⊢; omega) (fun d hd => mem_singleton.1 hd ▸ hm.ok) hm.edges
  rwa [interleave_one, hm.list, ← interleave_two, ← interleave_window hA rfl hB] at hb

theorem mergeChildren_eq {k : K} {v : V} (hA : A.length = X.length) :
    mergeChildren (A ++ (k, v) :: B) (X ++ l :: r :: Y) X.length
      = some (A ++ B, X ++ mergeNodes l (k, v) r :: Y) := by
  have herase : (A ++ (k, v) :: B).eraseIdx X.length = A ++ B := by rw [← hA, eraseIdx_at]
  simp only [mergeChildren, getElem?_at, getElem?_at_of hA, getElem?_after, set_at, herase,
    eraseIdx_after]

/-! ### The place of the key in an internal node -/

/-- An entry between `l` and `r` can be replaced: the leaf its replacement is
taken from has an entry. The choice between predecessor, successor and merging
is the code's. -/
def replaceable : ℕ → Node K V → Node K V → Bool
  | 0, _, _ => true
  | h + 1, l, r =>
    if minKeys < l.size then !(rightmost (h + 1) l).isEmpty
    else if minKeys < r.size then !(leftmost (h + 1) r).isEmpty
    else
      match l, r with
      | .internal _ lcs, .internal _ rcs =>
        match lcs.getLast?, rcs.head? with
        | some l', some r' => replaceable h l' r'
        | _, _ => true
      | _, _ => true

/-- If the key is an entry of the node, it can be replaced there. -/
def entryOk [LinearOrder K] (key : K) : Node K V → Bool
  | .leaf _ => true
  | .internal es cs =>
    match keyPos key es with
    | none => true
    | some pos =>
      match cs[pos]?, cs[pos + 1]? with
      | some l, some r => replaceable l.height l r
      | _, _ => true

section Entry

variable [LinearOrder K] {key : K} {v : V}

theorem keyPos_at (hA : ∀ e ∈ A, e.1 ≠ key) : keyPos key (A ++ (key, v) :: B) = some A.length := by
  rw [keyPos, findIdx?_append]
  have hnone : keyPos key A = none := keyPos_eq_none.2 hA
  rw [keyPos] at hnone
  simp [hnone, findIdx?_cons]

theorem entryOk_at (hA : ∀ e ∈ A, e.1 ≠ key) (hX : A.length = X.length) :
    entryOk key (.internal (A ++ (key, v) :: B) (X ++ l :: r :: Y)) = replaceable l.height l r := by
  simp only [entryOk, keyPos_at hA, hX, getElem?_at, getElem?_after]

theorem entryOk_extend (P S : List (K × V)) (P' S' : List (Node K V)) (hP : P.length = P'.length)
    (hlen : cs.length = es.length + 1) (hPkey : ∀ e ∈ P, e.1 ≠ key) (hSkey : ∀ e ∈ S, e.1 ≠ key)
    (hok : entryOk key (.internal es cs) = true) :
    entryOk key (.internal (P ++ (es ++ S)) (P' ++ (cs ++ S'))) = true := by
  cases hpos : keyPos key es with
  | none =>
    have hnone : keyPos key (P ++ (es ++ S)) = none := by
      refine keyPos_eq_none.2 fun e he => ?_
      simp only [mem_append] at he
      rcases he with he | he | he
      · exact hPkey e he
      · exact keyPos_eq_none.1 hpos e he
      · exact hSkey e he
    simp only [entryOk, hnone]
  | some pos =>
    obtain ⟨A, v, B, X, l, r, Y, rfl, rfl, rfl, hA, hB, hAkey⟩ := focus_key hlen hpos
    rw [entryOk_at hAkey hA] at hok
    have hPA : ∀ e ∈ P ++ A, e.1 ≠ key := fun e he => by
      rcases mem_append.1 he with he | he
      · exact hPkey e he
      · exact hAkey e he
    rw [← hok, ← entryOk_at (v := v) (B := B ++ S) (X := P' ++ X) (Y := Y ++ S') hPA
      (by simp [hP, hA])]
    simp

/-- `c'` is `c` grown by entries of its neighbour `s` and their separator. -/
structure Grown (key : K) (c s : Node K V) (sep : K × V) (c' : Node K V) : Prop where
  grows : c.size < c'.size
  below : ∀ n ∈ c'.descendants, n ∈ c.descendants ∨ n ∈ s.descendants
  entry : sep.1 ≠ key → (∀ e ∈ s.entries, e.1 ≠ key) → entryOk key c = true →
    entryOk key c' = true

end Entry

/-! ### Borrowing -/

section Borrow

variable [LinearOrder K]

variable {L R : List (K × V)} {c : Node K V} (sep) (key : K)

theorem rotateRight_leaf (hL : minKeys ≤ L.length) (hl : Wf 0 (.leaf (L ++ [e])))
    (hroom : R.length < maxKeys) :
    Rotated 0 (.leaf (L ++ [e])) sep (.leaf R) (.leaf L) e (.leaf (sep :: R)) ∧
      Grown key (.leaf R) (.leaf (L ++ [e])) sep (.leaf (sep :: R)) := by
  have hle := wf_leaf.1 hl
  have hpos : 0 < minKeys := by decide
  rw [length_append, length_singleton] at hle
  refine ⟨⟨⟨wf_leaf.2 (by omega), by omega⟩, ⟨wf_leaf.2 hroom, by omega⟩, by simp,
    fun _ => ?_, fun _ => ?_⟩, by simp, by simp, fun _ _ _ => rfl⟩
  · exact ne_nil_of_length_pos (show 0 < L.length by omega)
  · simp [rightmostOf, rightmost]

theorem rotateRight_internal {x : Node K V} (hL : minKeys ≤ L.length)
    (hl : Wf (h + 1) (.internal (L ++ [e]) (X ++ [x]))) (hr : ChildOk (h + 1) (.internal R Y))
    (hroom : R.length < maxKeys) :
    Rotated (h + 1) (.internal (L ++ [e]) (X ++ [x])) sep (.internal R Y) (.internal L X) e
        (.internal (sep :: R) (x :: Y)) ∧
      Grown key (.internal R Y) (.internal (L ++ [e]) (X ++ [x])) sep
        (.internal (sep :: R) (x :: Y)) := by
  obtain ⟨hle, hllen, hlcs⟩ := wf_internal.1 hl
  obtain ⟨-, hrlen, hrcs⟩ := wf_internal.1 hr.1
  have hrsize : minKeys ≤ R.length := hr.2 (Nat.succ_pos h)
  simp only [length_append, length_singleton] at hle hllen
  have hXlen : X.length = L.length + 1 := by omega
  have hX : X ≠ [] := ne_nil_of_length_eq_add_one hXlen
  have hY : Y ≠ [] := ne_nil_of_length_eq_add_one hrlen
  refine ⟨⟨⟨wf_internal.2 ⟨by omega, hXlen, fun c hc => hlcs c (by simp [hc])⟩, fun _ => hL⟩,
    ⟨wf_internal.2 ⟨hroom, by simp [hrlen], ?_⟩, fun _ => hrsize.trans (by simp)⟩, ?_,
    edgesKept_regroup (by simp) hY hX (by simp) (by simp)⟩, by simp, ?_, ?_⟩
  · intro c hc
    rcases mem_cons.1 hc with rfl | hc
    · exact hlcs c (by simp)
    · exact hrcs c hc
  · simp only [toList_internal]
    rw [← interleave_join hXlen, ← interleave_join (by simp [hllen])]
    simp
  · intro n hn
    simp only [descendants_internal, mem_descendantsOf_append] at hn ⊢
    rw [← singleton_append, mem_descendantsOf_append] at hn
    rcases hn with hn | hn
    · exact .inr (.inr hn)
    · exact .inl hn
  · intro hsep _ hok
    have := entryOk_extend [sep] [] [x] [] rfl hrlen
      (by simpa using hsep) (by simp) hok
    simpa using this

theorem rotateRight_spec (hl : Wf h l) (hc : ChildOk h c) (hlend : minKeys < l.size)
    (hroom : c.size < maxKeys) :
    ∃ l' e c', rotateRight l sep c = some (l', e, c') ∧ Rotated h l sep c l' e c' ∧
      Grown key c l sep c' ∧ e ∈ l.entries := by
  have hne : l.entries ≠ [] := ne_nil_of_length_pos (Nat.zero_lt_of_lt hlend)
  obtain ⟨L, e, hes⟩ := (eq_nil_or_concat' l.entries).resolve_left hne
  have hL : minKeys ≤ L.length := by
    rw [Node.size, hes, length_append, length_singleton] at hlend
    omega
  have hlast : l.entries.getLast? = some e := by rw [hes, getLast?_concat]
  have hmem : e ∈ l.entries := by simp [hes]
  cases h with
  | zero =>
    obtain ⟨les, rfl⟩ := hl.leaf_of_zero
    obtain ⟨res, rfl⟩ := hc.1.leaf_of_zero
    obtain rfl : les = L ++ [e] := hes
    obtain ⟨hrot, hgrown⟩ := rotateRight_leaf sep key hL hl hroom
    refine ⟨.leaf L, e, .leaf (sep :: res), ?_, hrot, hgrown, hmem⟩
    simp only [rotateRight, hlast, dropLast_concat]
  | succ h =>
    obtain ⟨les, lcs, rfl⟩ := hl.internal_of_succ
    obtain ⟨res, rcs, rfl⟩ := hc.1.internal_of_succ
    obtain rfl : les = L ++ [e] := hes
    obtain ⟨X, x, rfl⟩ := exists_concat (wf_internal.1 hl).2.1
    obtain ⟨hrot, hgrown⟩ := rotateRight_internal sep key hL hl hc hroom
    refine ⟨.internal L X, e, .internal (sep :: res) (x :: rcs), ?_, hrot, hgrown, hmem⟩
    simp only [rotateRight, hlast, dropLast_concat, getLast?_concat]

theorem rotateLeft_leaf (hR : minKeys ≤ R.length) (hr : Wf 0 (.leaf (e :: R)))
    (hroom : L.length < maxKeys) :
    Rotated 0 (.leaf L) sep (.leaf (e :: R)) (.leaf (L ++ [sep])) e (.leaf R) ∧
      Grown key (.leaf L) (.leaf (e :: R)) sep (.leaf (L ++ [sep])) := by
  have hle := wf_leaf.1 hr
  have hpos : 0 < minKeys := by decide
  rw [length_cons] at hle
  refine ⟨⟨⟨wf_leaf.2 (by simp; omega), by omega⟩, ⟨wf_leaf.2 (by omega), by omega⟩,
    by simp, fun _ => ?_, fun _ => ?_⟩, by simp, by simp, fun _ _ _ => rfl⟩
  · simp [leftmostOf, leftmost]
  · exact ne_nil_of_length_pos (show 0 < R.length by omega)

theorem rotateLeft_internal {y : Node K V} (hR : minKeys ≤ R.length)
    (hl : ChildOk (h + 1) (.internal L X))
    (hr : Wf (h + 1) (.internal (e :: R) (y :: Y))) (hroom : L.length < maxKeys) :
    Rotated (h + 1) (.internal L X) sep (.internal (e :: R) (y :: Y))
        (.internal (L ++ [sep]) (X ++ [y])) e (.internal R Y) ∧
      Grown key (.internal L X) (.internal (e :: R) (y :: Y)) sep
        (.internal (L ++ [sep]) (X ++ [y])) := by
  obtain ⟨-, hllen, hlcs⟩ := wf_internal.1 hl.1
  obtain ⟨hle, hrlen, hrcs⟩ := wf_internal.1 hr
  have hlsize : minKeys ≤ L.length := hl.2 (Nat.succ_pos h)
  rw [length_cons] at hle
  have hYlen : Y.length = R.length + 1 := by simpa using hrlen
  have hX : X ≠ [] := ne_nil_of_length_eq_add_one hllen
  have hY : Y ≠ [] := ne_nil_of_length_eq_add_one hYlen
  refine ⟨⟨⟨wf_internal.2 ⟨by simp; omega, by simp [hllen], ?_⟩,
      fun _ => hlsize.trans (by simp)⟩,
    ⟨wf_internal.2 ⟨by omega, hYlen, fun c hc => hrcs c (by simp [hc])⟩, fun _ => hR⟩, ?_,
    edgesKept_regroup hX (by simp) (by simp) hY (by simp)⟩, by simp, ?_, ?_⟩
  · intro c hc
    rcases mem_append.1 hc with hc | hc
    · exact hlcs c hc
    · exact hrcs c (by simp [mem_singleton.1 hc])
  · simp only [toList_internal]
    rw [← interleave_join hllen, ← interleave_join (by simp [hllen])]
    simp
  · intro n hn
    simp only [descendants_internal, mem_descendantsOf_append] at hn ⊢
    rcases hn with hn | hn
    · exact .inl hn
    · obtain ⟨c, hc, hn⟩ := mem_descendantsOf.1 hn
      exact .inr (mem_descendantsOf.2 ⟨c, by simp [mem_singleton.1 hc], hn⟩)
  · intro hsep _ hok
    exact entryOk_extend [] [sep] [] [y] rfl hllen (by simp)
      (by simpa using hsep) hok

theorem rotateLeft_spec (hc : ChildOk h c) (hr : Wf h r) (hlend : minKeys < r.size)
    (hroom : c.size < maxKeys) :
    ∃ c' e r', rotateLeft c sep r = some (c', e, r') ∧ Rotated h c sep r c' e r' ∧
      Grown key c r sep c' ∧ e ∈ r.entries := by
  obtain ⟨e, R, hes⟩ := exists_cons_of_ne_nil
    (ne_nil_of_length_pos (Nat.zero_lt_of_lt hlend) : r.entries ≠ [])
  have hR : minKeys ≤ R.length := by
    rw [Node.size, hes, length_cons] at hlend
    omega
  have hmem : e ∈ r.entries := by simp [hes]
  cases h with
  | zero =>
    obtain ⟨les, rfl⟩ := hc.1.leaf_of_zero
    obtain ⟨res, rfl⟩ := hr.leaf_of_zero
    obtain rfl : res = e :: R := hes
    obtain ⟨hrot, hgrown⟩ := rotateLeft_leaf sep key hR hr hroom
    exact ⟨.leaf (les ++ [sep]), e, .leaf R, rfl, hrot, hgrown, hmem⟩
  | succ h =>
    obtain ⟨les, lcs, rfl⟩ := hc.1.internal_of_succ
    obtain ⟨res, rcs, rfl⟩ := hr.internal_of_succ
    obtain rfl : res = e :: R := hes
    obtain ⟨y, Y, rfl⟩ := exists_cons_of_length_eq_add_one (wf_internal.1 hr).2.1
    obtain ⟨hrot, hgrown⟩ := rotateLeft_internal sep key hR hc hr hroom
    exact ⟨.internal (les ++ [sep]) (lcs ++ [y]), e, .internal R Y, rfl, hrot, hgrown, hmem⟩

/-! ### Merging -/

theorem merge_leaf (hroom : L.length + R.length < maxKeys) :
    Merged 0 (.leaf L) sep (.leaf R) (.leaf (L ++ sep :: R)) ∧
      Grown key (.leaf L) (.leaf R) sep (.leaf (L ++ sep :: R)) ∧
      Grown key (.leaf R) (.leaf L) sep (.leaf (L ++ sep :: R)) := by
  refine ⟨⟨⟨wf_leaf.2 ?_, by omega⟩, by simp, by simp; omega, fun _ => ?_, fun _ => ?_⟩,
    ⟨by simp, by simp, fun _ _ _ => rfl⟩, ⟨by simp; omega, by simp, fun _ _ _ => rfl⟩⟩
  · simp only [length_append, length_cons]
    omega
  · simp [leftmostOf, leftmost]
  · simp [rightmostOf, rightmost]

theorem merge_internal (hl : ChildOk (h + 1) (.internal L X))
    (hr : ChildOk (h + 1) (.internal R Y)) (hroom : L.length + R.length < maxKeys) :
    Merged (h + 1) (.internal L X) sep (.internal R Y) (.internal (L ++ sep :: R) (X ++ Y)) ∧
      Grown key (.internal L X) (.internal R Y) sep (.internal (L ++ sep :: R) (X ++ Y)) ∧
      Grown key (.internal R Y) (.internal L X) sep (.internal (L ++ sep :: R) (X ++ Y)) := by
  obtain ⟨-, hllen, hlcs⟩ := wf_internal.1 hl.1
  obtain ⟨-, hrlen, hrcs⟩ := wf_internal.1 hr.1
  have hlsize : minKeys ≤ L.length := hl.2 (Nat.succ_pos h)
  have hX : X ≠ [] := ne_nil_of_length_eq_add_one hllen
  have hY : Y ≠ [] := ne_nil_of_length_eq_add_one hrlen
  refine ⟨⟨⟨wf_internal.2 ⟨by simp; omega, by simp; omega, fun c hc => ?_⟩,
      fun _ => hlsize.trans (by simp)⟩, by simp [interleave_join hllen], by simp; omega,
      (edgesKept_join h _ L R hX hY).2⟩,
    ⟨by simp, ?_, fun hsep hkeys hok => ?_⟩, ⟨by simp; omega, ?_, fun hsep hkeys hok => ?_⟩⟩
  · rcases mem_append.1 hc with hc | hc
    · exact hlcs c hc
    · exact hrcs c hc
  · intro n hn
    simpa using hn
  · refine entryOk_extend [] (sep :: R) [] Y rfl hllen (by simp) ?_ hok
    intro e he
    rcases mem_cons.1 he with rfl | he
    · exact hsep
    · exact hkeys e he
  · intro n hn
    simpa [or_comm] using hn
  · have := entryOk_extend (L ++ [sep]) [] X [] (by simp [hllen])
      hrlen (fun e he => ?_) (by simp) hok
    · simpa using this
    · rcases mem_append.1 he with he | he
      · exact hkeys e he
      · exact mem_singleton.1 he ▸ hsep

theorem mergeNodes_spec (hl : ChildOk h l) (hr : ChildOk h r)
    (hroom : l.size + r.size < maxKeys) :
    Merged h l sep r (mergeNodes l sep r) ∧ Grown key l r sep (mergeNodes l sep r) ∧
      Grown key r l sep (mergeNodes l sep r) := by
  cases h with
  | zero =>
    obtain ⟨les, rfl⟩ := hl.1.leaf_of_zero
    obtain ⟨res, rfl⟩ := hr.1.leaf_of_zero
    exact merge_leaf sep key hroom
  | succ h =>
    obtain ⟨les, lcs, rfl⟩ := hl.1.internal_of_succ
    obtain ⟨res, rcs, rfl⟩ := hr.1.internal_of_succ
    exact merge_internal sep key hl hr hroom

/-! ### Fixing a child -/

variable {sep} {key}

/-- `es'` and `cs'` are what fixing the child `c` makes of a node with entries
`es` and children `cs`. The key now belongs to the child `c'`, which has a key
more than `c` had; on the lowest level, an outermost leaf that has an entry can
then lose one. -/
structure Fixed (key : K) (h : ℕ) (es : List (K × V)) (cs : List (Node K V)) (c : Node K V)
    (es' : List (K × V)) (cs' : List (Node K V)) (A B : List (K × V)) (X : List (Node K V))
    (c' : Node K V) (Y : List (Node K V)) : Prop where
  becomes : Becomes (h + 1) (.internal es cs) (.internal es' cs') (interleave es cs)
  focus : Focus key es' cs' A B X c' Y
  shrinks : es.length ≤ es'.length + 1
  grows : c.size < c'.size
  leftHeavy : h = 0 → X = [] → leftmostOf h cs ≠ [] → 2 ≤ c'.size
  rightHeavy : h = 0 → Y = [] → rightmostOf h cs ≠ [] → 2 ≤ c'.size
  below : ∀ n ∈ c'.descendants, n ∈ descendantsOf cs
  entry : entryOk key c = true → entryOk key c' = true

section Fix

variable {k : K} {v : V} (hA : A.length = X.length) (hB : B.length = Y.length)
  (hn : Wf (h + 1) (.internal (A ++ (k, v) :: B) (X ++ l :: r :: Y)))
  (hsorted : SortedKV (interleave (A ++ (k, v) :: B) (X ++ l :: r :: Y)))

include hA hB hsorted

theorem left_lt_sep (he : e ∈ l.toList) : e.1 < k := by
  rw [interleave_key (k, v) l r hA hB] at hsorted
  exact hsorted.lt_of_before e (mem_append_right _ he)

theorem sep_lt_right (he : e ∈ r.toList) : k < e.1 := by
  rw [interleave_key (k, v) l r hA hB] at hsorted
  exact hsorted.lt_of_after e (mem_append_left _ he)

include hn

theorem fixed_borrowFromLeft (hk : k < key) (hlarger : ∀ e ∈ after B Y, key < e.1)
    (hlend : minKeys < l.size) (hsmall : r.size ≤ minKeys) :
    ∃ es' cs' A' B' X' r' Y',
      borrowFromLeft (A ++ (k, v) :: B) (X ++ l :: r :: Y) (X.length + 1) = some (es', cs') ∧
      Fixed key h (A ++ (k, v) :: B) (X ++ l :: r :: Y) r es' cs' A' B' X' r' Y' := by
  obtain ⟨hl, hr⟩ := neighbours_ok hn
  have hlt : minKeys < maxKeys := by decide
  obtain ⟨l', e, r', hrot, hrotated, hgrown, he⟩ :=
    rotateRight_spec (k, v) key hl.1 hr hlend (by omega)
  have hb := becomes_rotated hA hB hn hrotated
  have hlkeys : ∀ x ∈ l.entries, x.1 < key := fun x hx =>
    (left_lt_sep hA hB hsorted (hl.1.mem_toList hx)).trans hk
  refine ⟨A ++ e :: B, X ++ l' :: r' :: Y, _, _, _, r', _, ?_, hb,
    focus_right hA hB (hb.sorted hsorted) hlarger (hlkeys e he), by simp, hgrown.grows, by simp, ?_,
    fun n hn => mem_descendantsOf_pair (hgrown.below n hn).symm,
    hgrown.entry hk.ne fun x hx => (hlkeys x hx).ne⟩
  · simp only [borrowFromLeft, Nat.add_sub_cancel, getElem?_at, getElem?_at_of hA, getElem?_after,
      hrot, Option.map_some, set_at_of _ hA, set_at, set_after]
  · rintro rfl rfl hne
    have := size_pos_of_rightmostOf hne
    have := hgrown.grows
    omega

theorem fixed_borrowFromRight (hk : key < k) (hsmaller : ∀ e ∈ before A X, e.1 < key)
    (hlend : minKeys < r.size) (hsmall : l.size ≤ minKeys) :
    ∃ es' cs' A' B' X' l' Y',
      borrowFromRight (A ++ (k, v) :: B) (X ++ l :: r :: Y) X.length = some (es', cs') ∧
      Fixed key h (A ++ (k, v) :: B) (X ++ l :: r :: Y) l es' cs' A' B' X' l' Y' := by
  obtain ⟨hl, hr⟩ := neighbours_ok hn
  have hlt : minKeys < maxKeys := by decide
  obtain ⟨l', e, r', hrot, hrotated, hgrown, he⟩ :=
    rotateLeft_spec (k, v) key hl hr.1 hlend (by omega)
  have hb := becomes_rotated hA hB hn hrotated
  have hrkeys : ∀ x ∈ r.entries, key < x.1 := fun x hx =>
    hk.trans (sep_lt_right hA hB hsorted (hr.1.mem_toList hx))
  refine ⟨A ++ e :: B, X ++ l' :: r' :: Y, _, _, _, l', _, ?_, hb,
    focus_left hA hB (hb.sorted hsorted) hsmaller (hrkeys e he), by simp, hgrown.grows, ?_, by simp,
    fun n hn => mem_descendantsOf_pair (hgrown.below n hn),
    hgrown.entry hk.ne' fun x hx => (hrkeys x hx).ne'⟩
  · simp only [borrowFromRight, getElem?_at, getElem?_at_of hA, getElem?_after, hrot,
      Option.map_some, set_at_of _ hA, set_at, set_after]
  · rintro rfl rfl hne
    have := size_pos_of_leftmostOf hne
    have := hgrown.grows
    omega

/-- Merging two neighbours, one of which the key belongs to. -/
theorem fixed_mergeChildren {s : Node K V} (hpair : c = l ∧ s = r ∨ c = r ∧ s = l)
    (hsmaller : ∀ e ∈ before A X, e.1 < key) (hlarger : ∀ e ∈ after B Y, key < e.1) (hk : k ≠ key)
    (hskeys : ∀ x ∈ s.entries, x.1 ≠ key) (hlsmall : l.size ≤ minKeys)
    (hrsmall : r.size ≤ minKeys) :
    Fixed key h (A ++ (k, v) :: B) (X ++ l :: r :: Y) c (A ++ B)
      (X ++ mergeNodes l (k, v) r :: Y) A B X (mergeNodes l (k, v) r) Y := by
  have hmax : minKeys + minKeys < maxKeys := by decide
  obtain ⟨hl, hr⟩ := neighbours_ok hn
  obtain ⟨hm, hgrownl, hgrownr⟩ := mergeNodes_spec (k, v) key hl hr (by omega)
  have hgrown : Grown key c s (k, v) (mergeNodes l (k, v) r) := by
    rcases hpair with ⟨rfl, rfl⟩ | ⟨rfl, rfl⟩
    · exact hgrownl
    · exact hgrownr
  refine ⟨becomes_merged hA hB hn hm, ⟨rfl, rfl, hA, hB, hsmaller, hlarger⟩, by simp; omega,
    hgrown.grows, ?_, ?_, fun n hn => mem_descendantsOf_pair ?_, hgrown.entry hk hskeys⟩
  · rintro rfl rfl hne
    have := size_pos_of_leftmostOf hne
    have := hm.size
    omega
  · rintro rfl rfl hne
    have := size_pos_of_rightmostOf hne
    have := hm.size
    omega
  · rcases hpair with ⟨rfl, rfl⟩ | ⟨rfl, rfl⟩
    · exact hgrown.below n hn
    · exact (hgrown.below n hn).symm

end Fix

theorem Focus.cut_left (hf : Focus key es cs A B X c Y) (hX : 0 < X.length) :
    ∃ A' k v X' l, es = A' ++ (k, v) :: B ∧ cs = X' ++ l :: c :: Y ∧ X.length = X'.length + 1 ∧
      A'.length = X'.length ∧ k < key ∧ ∀ e ∈ before A' X', e.1 < key := by
  obtain ⟨X', l, rfl⟩ := (eq_nil_or_concat' X).resolve_left (ne_nil_of_length_pos hX)
  have hlen : A.length = X'.length + 1 := by simpa using hf.left
  obtain ⟨A', ⟨k, v⟩, rfl⟩ := exists_concat hlen
  have hA : A'.length = X'.length := by simpa using hlen
  refine ⟨A', k, v, X', l, by simp [hf.entries], by simp [hf.children], by simp, hA, ?_, ?_⟩
  · exact hf.smaller (k, v) (mem_before hf.left (by simp))
  · intro e he
    refine hf.smaller e ?_
    rw [before_append hA]
    exact mem_append_left _ he

theorem Focus.cut_right (hf : Focus key es cs A B X c Y) (hY : Y ≠ []) :
    ∃ k v B' r Y', es = A ++ (k, v) :: B' ∧ cs = X ++ c :: r :: Y' ∧ B'.length = Y'.length ∧
      key < k ∧ ∀ e ∈ after B' Y', key < e.1 := by
  obtain ⟨r, Y', rfl⟩ := exists_cons_of_ne_nil hY
  have hlen : B.length = Y'.length + 1 := by simpa using hf.right
  obtain ⟨⟨k, v⟩, B', rfl⟩ := exists_cons_of_length_eq_add_one hlen
  refine ⟨k, v, B', r, Y', hf.entries, hf.children, by simpa using hlen, ?_, ?_⟩
  · exact hf.larger (k, v) (mem_after hf.right (by simp))
  · intro e he
    refine hf.larger e ?_
    rw [after]
    exact mem_append_right _ he

/-- A child with no key to spare is fixed, unless it is an only child. -/
theorem fixChild_spec (hf : Focus key es cs A B X c Y) (hn : Wf (h + 1) (.internal es cs))
    (hsorted : SortedKV (interleave es cs)) (hne : es ≠ []) (hsmall : c.size ≤ minKeys) :
    ∃ es' cs' A' B' X' c' Y', fixChild es cs X.length = some (es', cs') ∧
      Fixed key h es cs c es' cs' A' B' X' c' Y' := by
  have hcs := (wf_internal.1 hn).2.2
  unfold fixChild
  by_cases hleft : 0 < X.length ∧ canLend cs (X.length - 1) = true
  · rw [if_pos hleft]
    obtain ⟨A', k, v, X', l, rfl, rfl, hX, hA, hk, -⟩ := hf.cut_left hleft.1
    rw [hX, Nat.add_sub_cancel] at hleft
    have hlend : minKeys < l.size := by simpa [canLend] using hleft.2
    rw [hX]
    exact fixed_borrowFromLeft hA hf.right hn hsorted hk hf.larger hlend hsmall
  rw [if_neg hleft]
  by_cases hright : X.length < cs.length - 1 ∧ canLend cs (X.length + 1) = true
  · rw [if_pos hright]
    have hY : Y ≠ [] := by
      rintro rfl
      simp [hf.children] at hright
    obtain ⟨k, v, B', r, Y', rfl, rfl, hB, hk, -⟩ := hf.cut_right hY
    have hlend : minKeys < r.size := by simpa [canLend] using hright.2
    exact fixed_borrowFromRight hf.left hB hn hsorted hk hf.smaller hlend hsmall
  rw [if_neg hright]
  by_cases hpos : 0 < X.length
  · rw [if_pos hpos]
    obtain ⟨A', k, v, X', l, rfl, rfl, hX, hA, hk, hsmaller⟩ := hf.cut_left hpos
    have hl : l.size ≤ minKeys := by
      rw [hX, Nat.add_sub_cancel] at hleft
      simpa [canLend] using hleft
    have hlkeys : ∀ x ∈ l.entries, x.1 ≠ key := fun x hx =>
      ((left_lt_sep hA hf.right hsorted ((hcs l (by simp)).1.mem_toList hx)).trans hk).ne
    rw [hX, Nat.add_sub_cancel, mergeChildren_eq hA]
    exact ⟨_, _, _, _, _, _, _, rfl, fixed_mergeChildren hA hf.right hn hsorted (.inr ⟨rfl, rfl⟩)
      hsmaller hf.larger hk.ne hlkeys hl hsmall⟩
  · rw [if_neg hpos]
    have hX : X = [] := eq_nil_of_length_eq_zero (by omega)
    subst hX
    have hY : Y ≠ [] := by
      rintro rfl
      have hA := hf.left
      have hB := hf.right
      have := length_pos_of_ne_nil hne
      simp only [hf.entries, length_append, hA, hB, length_nil] at this
      omega
    obtain ⟨k, v, B', r, Y', rfl, rfl, hB, hk, hlarger⟩ := hf.cut_right hY
    have hr : r.size ≤ minKeys := by
      simpa [canLend] using hright
    have hrkeys : ∀ x ∈ r.entries, x.1 ≠ key := fun x hx =>
      (hk.trans (sep_lt_right hf.left hB hsorted ((hcs r (by simp)).1.mem_toList hx))).ne'
    rw [mergeChildren_eq hf.left]
    exact ⟨_, _, _, _, _, _, _, rfl, fixed_mergeChildren hf.left hB hn hsorted (.inl ⟨rfl, rfl⟩)
      hf.smaller hlarger hk.ne' hrkeys hsmall hr⟩

end Borrow

end JanuaryOs.Libs.Btree

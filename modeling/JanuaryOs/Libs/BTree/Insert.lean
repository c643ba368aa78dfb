import JanuaryOs.Libs.BTree.Shape

/-!
# Insertion

Splitting a full child keeps the list of the node, so after it the descent is as
in a node that was never full, with one exception: the middle entry has moved
into a node whose entries were compared with the key before. If the key is that
entry's, the comparison by `>` sends the descent into the left half, where the
key is not. `NoClash` excludes it.
-/

namespace JanuaryOs.Libs.Btree

open Lib List

variable {K V : Type*}

/-! ### Splitting a full node -/

/-- What splitting a full node gives. -/
structure Split (h : ℕ) (c l : Node K V) (m : K × V) (r : Node K V) : Prop where
  middle : c.entries[minKeys]? = some m
  left : ChildOk h l
  right : ChildOk h r
  list : c.toList = l.toList ++ m :: r.toList
  leftSize : l.size = minKeys
  rightSize : r.size = minKeys
  leftBelow : ∀ n ∈ l.descendants, n ∈ c.descendants
  rightBelow : ∀ n ∈ r.descendants, n ∈ c.descendants
  edges : EdgesKept h [c] [l, r]

variable {es : List (K × V)} {h : ℕ} {X Y : List (Node K V)} {c : Node K V}

theorem split_middle (hfull : es.length = maxKeys) :
    ∃ L m R, es = L ++ m :: R ∧ L.length = minKeys ∧ R.length = minKeys := by
  obtain ⟨L, m, R, rfl, hL⟩ := exists_split_of_lt (l := es) (i := minKeys) (by
    rw [hfull]
    decide)
  refine ⟨L, m, R, rfl, hL, ?_⟩
  rw [length_append, length_cons, hL] at hfull
  simp only [minKeys, maxKeys, B] at hfull ⊢
  omega

theorem split_leaf {L R : List (K × V)} (m : K × V) (hL : L.length = minKeys)
    (hR : R.length = minKeys) : Split 0 (.leaf (L ++ m :: R)) (.leaf L) m (.leaf R) := by
  have hle : minKeys ≤ maxKeys := by decide
  have hpos : 0 < minKeys := by decide
  have hLne : L ≠ [] := ne_nil_of_length_pos (by omega)
  have hRne : R ≠ [] := ne_nil_of_length_pos (by omega)
  refine ⟨?_, ⟨wf_leaf.2 (by omega), by omega⟩, ⟨wf_leaf.2 (by omega), by omega⟩, by simp,
    hL, hR, by simp, by simp, fun _ => ?_, fun _ => ?_⟩
  · rw [Node.entries_leaf, ← hL, getElem?_at]
  · simpa [leftmostOf, leftmost] using hLne
  · simpa [rightmostOf, rightmost] using hRne

theorem split_internal {L R : List (K × V)} (m : K × V) (hL : L.length = minKeys)
    (hR : R.length = minKeys) (hX : X.length = minKeys + 1) (hY : Y.length = minKeys + 1)
    (hX' : ∀ c ∈ X, ChildOk h c) (hY' : ∀ c ∈ Y, ChildOk h c) :
    Split (h + 1) (.internal (L ++ m :: R) (X ++ Y)) (.internal L X) m (.internal R Y) := by
  have hle : minKeys ≤ maxKeys := by decide
  have hXne : X ≠ [] := ne_nil_of_length_eq_add_one hX
  have hYne : Y ≠ [] := ne_nil_of_length_eq_add_one hY
  refine ⟨?_, ⟨wf_internal.2 ⟨by omega, by omega, hX'⟩, fun _ => hL.ge⟩,
    ⟨wf_internal.2 ⟨by omega, by omega, hY'⟩, fun _ => hR.ge⟩, ?_, hL, hR, ?_, ?_,
    (edgesKept_join h _ L R hXne hYne).1⟩
  · rw [Node.entries_internal, ← hL, getElem?_at]
  · rw [toList_internal, toList_internal, toList_internal, interleave_join (by omega)]
  · intro n hn
    simpa using .inl (by simpa using hn)
  · intro n hn
    simpa using .inr (by simpa using hn)

theorem split_spec (hc : Wf h c) (hfull : c.isFull = true) :
    ∃ l m r, c.split = some (l, m, r) ∧ Split h c l m r := by
  have hge : maxKeys ≤ c.size := by simpa [Node.isFull] using hfull
  have hsize : c.entries.length = maxKeys := Nat.le_antisymm hc.size_le hge
  obtain ⟨L, m, R, hes, hL, hR⟩ := split_middle hsize
  have htake : (L ++ m :: R).take minKeys = L := by rw [← hL, take_left]
  have hdrop : (L ++ m :: R).drop (minKeys + 1) = R := by
    rw [← hL, drop_length_add_append]
    rfl
  have hmid : (L ++ m :: R)[minKeys]? = some m := by rw [← hL, getElem?_at]
  cases c with
  | leaf es =>
    obtain rfl : es = L ++ m :: R := hes
    cases h with
    | succ h => simp [Wf] at hc
    | zero =>
      exact ⟨.leaf L, m, .leaf R, by simp only [Node.split, hmid, htake, hdrop],
        split_leaf m hL hR⟩
  | internal es cs =>
    obtain rfl : es = L ++ m :: R := hes
    cases h with
    | zero => simp [Wf] at hc
    | succ h =>
      obtain ⟨-, hlen, hcs⟩ := wf_internal.1 hc
      rw [length_append, length_cons, hL, hR] at hlen
      refine ⟨.internal L (cs.take (minKeys + 1)), m, .internal R (cs.drop (minKeys + 1)),
        ?_, ?_⟩
      · simp only [Node.split, hmid, htake, hdrop,
          if_pos (show minKeys + 1 ≤ cs.length by omega)]
      · have hsplit := split_internal (h := h) m hL hR (X := cs.take (minKeys + 1))
          (Y := cs.drop (minKeys + 1)) (by simp; omega) (by simp; omega)
          (fun c hc => hcs c (mem_of_mem_take hc))
          (fun c hc => hcs c (mem_of_mem_drop hc))
        rwa [take_append_drop] at hsplit

/-! ### The descent -/

section Descent

variable [LinearOrder K]

/-- A full node whose middle entry, which a split promotes, has the key. -/
def clashes (key : K) (n : Node K V) : Bool :=
  n.isFull && (n.entries[minKeys]?).any fun e => e.1 = key

/-- No node below `n` clashes with the key. -/
def NoClash (key : K) (n : Node K V) : Prop := ∀ m ∈ n.descendants, clashes key m = false

variable {key : K} {cs : List (Node K V)} {A B : List (K × V)} {fuel : ℕ} {n : Node K V} {value : V}

theorem NoClash.child (h : NoClash key (.internal es cs)) (hc : c ∈ cs) :
    NoClash key c := fun m hm =>
  h m (by
    rw [descendants_internal]
    exact mem_descendantsOf.2 ⟨c, hc, .inr hm⟩)

/-- Split the child in focus. The key is not the promoted entry's, so it belongs
to one of the halves. -/
theorem Focus.splitChild (hf : Focus key es cs A B X c Y) (hn : Wf (h + 1) (.internal es cs))
    (hroom : es.length < maxKeys) (hfull : c.isFull = true) :
    ∃ l m r, splitChild es cs X.length = some (A ++ m :: B, X ++ l :: r :: Y) ∧
      Split h c l m r ∧
      Becomes (h + 1) (.internal es cs) (.internal (A ++ m :: B) (X ++ l :: r :: Y))
        (interleave es cs) := by
  obtain ⟨-, -, hcs⟩ := wf_internal.1 hn
  obtain ⟨l, m, r, hsplit, hs⟩ := split_spec (hcs c (by simp [hf.children])).1 hfull
  rw [hf.entries, hf.children] at hn ⊢
  rw [hf.entries, length_append] at hroom
  have hle : X.length ≤ (A ++ B).length := by
    rw [length_append, hf.left]
    exact Nat.le_add_right _ _
  have hat : (A ++ B).insertIdx X.length m = A ++ m :: B := by rw [← hf.left, insertIdx_at]
  refine ⟨l, m, r, ?_, hs, ?_⟩
  · simp only [Btree.splitChild, getElem?_at, hsplit, if_pos hle, hat, set_at, insertIdx_after]
  · have hb := becomes_window [] [m] [c] [l, r] hf.left hf.right hn
      rfl rfl (by simp; omega)
      (by
        intro d hd
        rcases mem_pair.1 hd with rfl | rfl
        · exact hs.left
        · exact hs.right)
      hs.edges
    rwa [interleave_two, ← hs.list, ← interleave_focus c hf.left hf.right] at hb

/-- `n'` is what an insertion makes of `n`. -/
structure Inserted (key : K) (value : V) (h fuel : ℕ) (n n' : Node K V) : Prop where
  answer : insertNonFull key value fuel n = some (lookupKV key n.toList, n')
  becomes : Becomes h n n' (insertKV key value n.toList)
  grows : n.size ≤ n'.size

/-- Descend into the child in focus, of the node itself or of what a split has
made of it. -/
theorem inserted_descend {es' : List (K × V)} {cs' : List (Node K V)} {d d' : Node K V}
    (hb : Becomes (h + 1) (.internal es cs) (.internal es' cs') (interleave es cs))
    (hgrows : es.length ≤ es'.length) (hf : Focus key es' cs' A B X d Y)
    (heq : insertNonFull key value (fuel + 1) (.internal es cs) =
      (insertNonFull key value fuel d).map fun r => (r.1, .internal es' (cs'.set X.length r.2)))
    (hd : Inserted key value h fuel d d') :
    Inserted key value (h + 1) (fuel + 1) (.internal es cs)
      (.internal es' (cs'.set X.length d')) := by
  obtain ⟨-, -, hcs⟩ := wf_internal.1 hb.wf
  have hmem : d ∈ cs' := by simp [hf.children]
  have hlist : interleave es cs = before A X ++ (d.toList ++ after B Y) := by
    rw [← hb.list, toList_internal, hf.interleave_eq]
  have hbecomes := hf.becomes hb.wf hd.becomes fun hpos =>
    ((hcs d hmem).2 hpos).trans hd.grows
  refine ⟨?_, ?_, hgrows⟩
  · rw [heq, hd.answer, Option.map_some, toList_internal, hlist,
      lookupKV_mid hf.smaller hf.larger]
  · rw [toList_internal, hlist, insertKV_append value hf.smaller hf.larger]
    exact hb.trans hbecomes

theorem inserted_found (fuel : ℕ) (value : V) {pos : ℕ} (hn : Wf h n) (hsorted : SortedKV n.toList)
    (hpos : keyPos key n.entries = some pos) : ∃ n', Inserted key value h (fuel + 1) n n' := by
  cases h with
  | zero =>
    obtain ⟨es, rfl⟩ := hn.leaf_of_zero
    obtain ⟨A, v, B, rfl, rfl, -⟩ := keyPos_split hpos
    rw [toList_leaf] at hsorted
    rw [Node.entries_leaf] at hpos
    refine ⟨.leaf (A ++ (key, value) :: B), ?_, ?_, by simp⟩
    · rw [toList_leaf, lookupKV_around hsorted, insertNonFull]
      simp only [hpos, Node.entries_leaf, getElem?_at, Option.map_some, set_at]
    · rw [toList_leaf, insertKV_around hsorted]
      exact becomes_set_leaf hn
  | succ h =>
    obtain ⟨es, cs, rfl⟩ := hn.internal_of_succ
    obtain ⟨-, hlen, -⟩ := wf_internal.1 hn
    obtain ⟨A, v, B, X, l, r, Y, rfl, rfl, rfl, hA, hB, -⟩ := focus_key hlen hpos
    rw [toList_internal, interleave_key (key, v) l r hA hB] at hsorted
    rw [Node.entries_internal] at hpos
    refine ⟨.internal (A ++ (key, value) :: B) (X ++ l :: r :: Y), ?_, ?_, by simp⟩
    · rw [toList_internal, interleave_key (key, v) l r hA hB, lookupKV_around hsorted,
        insertNonFull]
      simp only [hpos, Node.entries_internal, ← hA, getElem?_at, Option.map_some, set_at]
    · rw [toList_internal, interleave_key (key, v) l r hA hB, insertKV_around hsorted]
      exact becomes_set_internal hA hB hn

/-- The key is not in the leaf: it is added at its place. -/
theorem inserted_leaf (value : V) (hsorted : SortedKV es) (hroom : es.length < maxKeys)
    (hpos : keyPos key es = none) : ∃ n', Inserted key value 0 (fuel + 1) (.leaf es) n' := by
  obtain ⟨A, B, rfl, hA, hB⟩ := split_at_key hsorted hpos
  have hnone : lookupKV key (A ++ B) = none := lookupKV_eq_none.2 (keyPos_eq_none.1 hpos)
  rw [length_append] at hroom
  refine ⟨.leaf (A ++ (key, value) :: B), ?_, ⟨wf_leaf.2 ?_, ?_, ?_, ?_⟩, by simp⟩
  · rw [toList_leaf, hnone, insertNonFull]
    simp only [Node.entries_leaf, hpos, childIdx_append hA hB, insertIdx_at]
  · simp only [length_append, length_cons]
    omega
  · rw [toList_leaf, toList_leaf, insertKV_between value hA hB]
  · simp [leftmostOf, leftmost]
  · simp [rightmostOf, rightmost]

theorem insertNonFull_child (value : V) (fuel : ℕ) (hpos : keyPos key es = none)
    (hf : Focus key es cs A B X c Y) (hfull : c.isFull = false) :
    insertNonFull key value (fuel + 1) (.internal es cs)
      = (insertNonFull key value fuel c).map fun r =>
        (r.1, .internal es (cs.set X.length r.2)) := by
  have hat : cs[X.length]? = some c := by rw [hf.children, getElem?_at]
  rw [insertNonFull]
  simp [hpos, hf.childIdx_eq, hat, hfull]

theorem insertNonFull_split (value : V) (fuel : ℕ) {es A B es' cs' : _} {d : Node K V} {m : K × V}
    {i : ℕ} (hpos : keyPos key es = none) (hf : Focus key es cs A B X c Y) (hfull : c.isFull = true)
    (hsplit : splitChild es cs X.length = some (es', cs')) (hm : es'[X.length]? = some m)
    (hi : (if m.1 < key then X.length + 1 else X.length) = i) (hd : cs'[i]? = some d) :
    insertNonFull key value (fuel + 1) (.internal es cs)
      = (insertNonFull key value fuel d).map fun r => (r.1, .internal es' (cs'.set i r.2)) := by
  have hat : cs[X.length]? = some c := by rw [hf.children, getElem?_at]
  rw [insertNonFull]
  simp [hpos, hf.childIdx_eq, hat, hfull, hsplit, hm, hi, hd]

/-- A full child is split, and the descent goes on in the half the key belongs
to. -/
theorem inserted_split (hn : Wf (h + 1) (.internal es cs)) (hsorted : SortedKV (interleave es cs))
    (hroom : es.length < maxKeys) (hclash : NoClash key (.internal es cs))
    (hpos : keyPos key es = none) (hf : Focus key es cs A B X c Y) (hfull : c.isFull = true)
    (ih : ∀ d : Node K V, Wf h d →
    SortedKV d.toList → d.size < maxKeys → NoClash key d → ∃ d', Inserted key value h fuel d d') :
    ∃ n', Inserted key value (h + 1) (fuel + 1) (.internal es cs) n' := by
  obtain ⟨l, ⟨k, v⟩, r, hsplit, hs, hb⟩ := hf.splitChild hn hroom hfull
  have hmem : c ∈ cs := by simp [hf.children]
  have hne : k ≠ key := by
    have := hclash c (by
      rw [descendants_internal]
      exact mem_descendantsOf.2 ⟨c, hmem, .inl rfl⟩)
    simpa [clashes, hfull, hs.middle] using this
  have hc := hclash.child hmem
  have hlt : minKeys < maxKeys := by decide
  have hgrows : es.length ≤ (A ++ (k, v) :: B).length := by simp [hf.entries]
  have hm := getElem?_at_of (B := B) (b := (k, v)) hf.left
  have hsorted' := hb.sorted hsorted
  rcases lt_or_gt_of_ne hne with hk | hk
  · have hfr := focus_right hf.left hf.right hsorted' hf.larger hk
    obtain ⟨r', hr'⟩ := ih r hs.right.1 (hfr.child_sorted hsorted') (by rwa [hs.rightSize])
      fun n hn => hc n (hs.rightBelow n hn)
    refine ⟨_, inserted_descend hb hgrows hfr ?_ hr'⟩
    rw [length_append, length_singleton]
    exact insertNonFull_split value fuel hpos hf hfull hsplit hm (if_pos hk) (getElem?_after ..)
  · have hfl := focus_left hf.left hf.right hsorted' hf.smaller hk
    obtain ⟨l', hl'⟩ := ih l hs.left.1 (hfl.child_sorted hsorted') (by rwa [hs.leftSize])
      fun n hn => hc n (hs.leftBelow n hn)
    refine ⟨_, inserted_descend hb hgrows hfl ?_ hl'⟩
    exact insertNonFull_split value fuel hpos hf hfull hsplit hm (if_neg hk.not_gt)
      (getElem?_at ..)

theorem insertNonFull_spec (value : V) (hn : Wf h n) (hsorted : SortedKV n.toList)
    (hroom : n.size < maxKeys) (hclash : NoClash key n) (hfuel : h < fuel) :
    ∃ n', Inserted key value h fuel n n' := by
  induction h, fuel, n, hn, hfuel using Wf.descent with
  | leaf fuel es hn hfuel =>
    cases hpos : keyPos key es with
    | some pos => exact inserted_found _ value hn hsorted hpos
    | none => exact inserted_leaf value (by simpa using hsorted) hroom hpos
  | internal h fuel es cs hn hfuel hlen hcs ih =>
    cases hpos : keyPos key es with
    | some pos => exact inserted_found _ value hn hsorted hpos
    | none =>
      rw [toList_internal] at hsorted
      obtain ⟨A, B, X, c, Y, hf⟩ := focus_child hlen hsorted hpos
      have hmem : c ∈ cs := by simp [hf.children]
      cases hfull : c.isFull with
      | false =>
        have hcroom : c.size < maxKeys := by simpa [Node.isFull] using hfull
        obtain ⟨c', hc'⟩ := ih c (hcs c hmem).1 (hf.child_sorted hsorted) hcroom
          (hclash.child hmem)
        exact ⟨_, inserted_descend (by simpa using Becomes.refl hn) le_rfl hf
          (insertNonFull_child value fuel hpos hf hfull) hc'⟩
      | true =>
        exact inserted_split hn hsorted hroom hclash hpos hf hfull ih

/-! ### Writing through a reference -/

/-- The list after a write through a reference to the value of `key`. -/
def writeKV (key : K) (value : V) (l : List (K × V)) : List (K × V) :=
  if (lookupKV key l).isSome then insertKV key value l else l

theorem writeKV_mid {L : List (K × V)} (value : V) (hA : ∀ e ∈ A, e.1 < key)
    (hB : ∀ e ∈ B, key < e.1) :
    writeKV key value (A ++ (L ++ B)) = A ++ (writeKV key value L ++ B) := by
  unfold writeKV
  rw [lookupKV_mid hA hB, insertKV_append value hA hB]
  split <;> rfl

theorem writeKV_absent {l : List (K × V)} (value : V) (h : lookupKV key l = none) :
    writeKV key value l = l := by
  rw [writeKV, h]
  rfl

/-- A key of the node itself is found, and its value replaced, as an insertion
does. -/
theorem getMutInNode_found (value : V) {pos : ℕ} (hn : Wf h n) (hsorted : SortedKV n.toList)
    (hpos : keyPos key n.entries = some pos) :
    ∃ n', getMutInNode key value (fuel + 1) n = some (lookupKV key n.toList, n') ∧
      Becomes h n n' (writeKV key value n.toList) ∧ n.size ≤ n'.size := by
  obtain ⟨n', hins⟩ := inserted_found fuel value hn hsorted hpos
  have hanswer := hins.answer
  unfold insertNonFull at hanswer
  rw [hpos] at hanswer
  refine ⟨n', by unfold getMutInNode; rw [hpos]; exact hanswer, ?_, hins.grows⟩
  have hsome : (lookupKV key n.toList).isSome = true := by
    obtain ⟨e, -, he⟩ := Option.map_eq_some_iff.1 hanswer
    exact Option.isSome_iff_exists.2 ⟨e.2, (congrArg Prod.fst he).symm⟩
  rw [writeKV, if_pos hsome]
  exact hins.becomes

/-- `get_mut_in_node` finds the value of the key, and a write through it changes
that value only. -/
theorem getMutInNode_spec (key : K) (value : V) (hn : Wf h n) (hsorted : SortedKV n.toList)
    (hfuel : h < fuel) :
    ∃ n', getMutInNode key value fuel n = some (lookupKV key n.toList, n') ∧
      Becomes h n n' (writeKV key value n.toList) ∧ n.size ≤ n'.size := by
  induction h, fuel, n, hn, hfuel using Wf.descent with
  | leaf fuel es hn hfuel =>
    cases hkey : keyPos key es with
    | some pos => exact getMutInNode_found value hn hsorted hkey
    | none =>
      have habsent := lookupKV_eq_none.2 (keyPos_eq_none.1 hkey)
      rw [toList_leaf, habsent, writeKV_absent value habsent]
      refine ⟨.leaf es, ?_, ⟨hn, toList_leaf es, .refl _ _⟩, le_rfl⟩
      simp only [getMutInNode, Node.entries_leaf, hkey]
  | internal h fuel es cs hn hfuel hlen hcs ih =>
    cases hkey : keyPos key es with
    | some pos => exact getMutInNode_found value hn hsorted hkey
    | none =>
      rw [toList_internal] at hsorted ⊢
      obtain ⟨A, B, X, c, Y, hf⟩ := focus_child hlen hsorted hkey
      have hok := hcs c (by simp [hf.children])
      obtain ⟨c', hget, hbec, hsize⟩ := ih c hok.1 (hf.child_sorted hsorted)
      rw [hf.interleave_eq, lookupKV_mid hf.smaller hf.larger,
        writeKV_mid value hf.smaller hf.larger]
      refine ⟨.internal es (cs.set X.length c'), ?_,
        hf.becomes hn hbec fun hpos => (hok.2 hpos).trans hsize, le_rfl⟩
      have hidx : cs[X.length]? = some c := by rw [hf.children, getElem?_at]
      simp only [getMutInNode, Node.entries_internal, hkey, hf.childIdx_eq, hidx, hget,
        Option.map_some]

end Descent

end JanuaryOs.Libs.Btree

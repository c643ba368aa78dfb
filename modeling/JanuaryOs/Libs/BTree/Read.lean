import JanuaryOs.Libs.BTree.Shape

/-!
# The operations that do not move entries: lookups, the two ends, and the iterator
-/

namespace JanuaryOs.Libs.Btree

open Lib List

variable {K V : Type*}

/-! ### Lookup -/

variable {fuel h : ℕ} {n : Node K V} {A B es l : List (K × V)} {st : IterStack K V}
  {X Y cs : List (Node K V)} {c : Node K V}

section Get

variable [LinearOrder K]

variable {key : K}

/-- `get_in_node` looks a key up in the list of the node. -/
theorem getInNode_spec (hn : Wf h n) (hsorted : SortedKV n.toList) (hfuel : h < fuel) :
    getInNode key fuel n = some (lookupKV key n.toList) := by
  induction h, fuel, n, hn, hfuel using Wf.descent with
  | leaf fuel es hn hfuel =>
    rw [toList_leaf] at hsorted ⊢
    simp only [getInNode, Node.entries_leaf]
    cases hkey : keyPos key es with
    | none =>
      simp only []
      rw [lookupKV_eq_none.2 (keyPos_eq_none.1 hkey)]
    | some pos =>
      obtain ⟨A, v, B, rfl, rfl, -⟩ := keyPos_split hkey
      simp only [getElem?_at, Option.map_some]
      rw [lookupKV_around hsorted]
  | internal h fuel es cs hn hfuel hlen hcs ih =>
    rw [toList_internal] at hsorted ⊢
    simp only [getInNode, Node.entries_internal]
    cases hkey : keyPos key es with
    | none =>
      obtain ⟨A, B, X, c, Y, hf⟩ := focus_child hlen hsorted hkey
      have hc := hf.child_sorted hsorted
      rw [hf.interleave_eq]
      simp only [hf.childIdx_eq, hf.children, getElem?_at]
      rw [ih c (hcs c (by simp [hf.children])).1 hc, lookupKV_mid hf.smaller hf.larger]
    | some pos =>
      obtain ⟨A, v, B, X, l, r, Y, rfl, rfl, rfl, hA, hB, -⟩ := focus_key hlen hkey
      rw [interleave_key (key, v) l r hA hB] at hsorted ⊢
      rw [lookupKV_around hsorted]
      simp only [← hA, getElem?_at, Option.map_some]

end Get

/-! ### The two ends -/

theorem firstInNode_spec (hn : Wf h n) (hfuel : h < fuel) :
    BTree.firstInNode fuel n = some (leftmost h n).head? := by
  induction h, fuel, n, hn, hfuel using Wf.descent with
  | leaf fuel es hn hfuel => rfl
  | internal h fuel es cs hn hfuel hlen hcs ih =>
    obtain _ | ⟨c, cs⟩ := cs
    · cases hlen
    rw [leftmost_internal]
    exact ih c (hcs c mem_cons_self).1

theorem lastInNode_spec (hn : Wf h n) (hfuel : h < fuel) :
    BTree.lastInNode fuel n = some (rightmost h n).getLast? := by
  induction h, fuel, n, hn, hfuel using Wf.descent with
  | leaf fuel es hn hfuel => rfl
  | internal h fuel es cs hn hfuel hlen hcs ih =>
    obtain ⟨X, c, rfl⟩ := exists_concat hlen
    rw [rightmost_internal]
    simp only [BTree.lastInNode, getLast?_concat]
    exact ih c (hcs c (by simp)).1

/-! ### The iterator -/

/-- `Yields k st l st'`: in `k` rounds the iterator goes from stack `st` to
`st'` and yields the items `l`. -/
inductive Yields : ℕ → IterStack K V → List (K × V) → IterStack K V → Prop
  | refl (st : IterStack K V) : Yields 0 st [] st
  | item {k : ℕ} {st st' st'' : IterStack K V} {e : K × V} {l : List (K × V)} :
      iterStep st = .item e st' → Yields k st' l st'' → Yields (k + 1) st (e :: l) st''
  | again {k : ℕ} {st st' st'' : IterStack K V} {l : List (K × V)} :
      iterStep st = .again st' → Yields k st' l st'' → Yields (k + 1) st l st''

theorem Yields.trans {k k' : ℕ} {st' st'' : IterStack K V} {l' : List (K × V)}
    (h : Yields k st l st') (h' : Yields k' st' l' st'') : Yields (k + k') st (l ++ l') st'' := by
  induction h with
  | refl => simpa using h'
  | item hstep _ ih =>
    rw [Nat.add_right_comm]
    exact .item hstep (ih h')
  | again hstep _ ih =>
    rw [Nat.add_right_comm]
    exact .again hstep (ih h')

theorem Yields.collect {k : ℕ} (h : Yields k st l []) : collect (k + 1) st = some l := by
  generalize hend : ([] : IterStack K V) = st' at h
  induction h with
  | refl => rw [← hend]; rfl
  | item hstep _ ih => rw [Btree.collect, hstep]; simp only [ih hend, Option.map_some]
  | again hstep _ ih => rw [Btree.collect, hstep]; exact ih hend

theorem yields_leaf (st : IterStack K V) {i : ℕ} (hi : i ≤ es.length) :
    Yields (es.length - i + 1) ((.leaf es, i) :: st) (es.drop i) st := by
  obtain ⟨k, hk⟩ : ∃ k, es.length - i = k := ⟨_, rfl⟩
  rw [hk]
  induction k generalizing i with
  | zero =>
    rw [drop_of_length_le (by omega)]
    refine .again ?_ (.refl st)
    simp only [iterStep, List.getElem?_eq_none (show es.length ≤ i by omega)]
  | succ k ih =>
    have hlt : i < es.length := by omega
    rw [drop_eq_getElem_cons hlt]
    refine .item ?_ (ih (i := i + 1) (by omega) (by omega))
    simp only [iterStep, List.getElem?_eq_getElem hlt]

section

variable (hlen : cs.length = es.length + 1)

include hlen

theorem iterStep_child (hcs : cs = X ++ c :: Y)
    (st : IterStack K V) :
    iterStep ((.internal es cs, 2 * X.length) :: st)
      = .again ((c, 0) :: (.internal es cs, 2 * X.length + 1) :: st) := by
  have hget : cs[2 * X.length / 2]? = some c := by
    rw [Nat.mul_div_cancel_left _ (by decide), hcs, getElem?_at]
  have hX : X.length < cs.length := by
    rw [hcs, length_append, length_cons]
    omega
  have hlt : 2 * X.length < cs.length + es.length := by omega
  simp only [iterStep, hlt, if_true, Nat.mul_mod_right, hget]

theorem iterStep_entry {b : K × V} (hes : es = A ++ b :: B)
    (st : IterStack K V) :
    iterStep ((.internal es cs, 2 * A.length + 1) :: st)
      = .item b ((.internal es cs, 2 * (A.length + 1)) :: st) := by
  have hget : es[(2 * A.length + 1) / 2]? = some b := by
    rw [show (2 * A.length + 1) / 2 = A.length by omega, hes, getElem?_at]
  have hA : A.length < es.length := by
    rw [hes, length_append, length_cons]
    omega
  have hlt : 2 * A.length + 1 < cs.length + es.length := by omega
  have hodd : ¬ (2 * A.length + 1) % 2 = 0 := by omega
  simp only [iterStep, hlt, if_true, hodd, if_false, hget]
  rfl

theorem iterStep_end (st : IterStack K V) :
    iterStep ((.internal es cs, 2 * es.length + 1) :: st) = .again st := by
  have hge : ¬ 2 * es.length + 1 < cs.length + es.length := by omega
  simp only [iterStep, hge, if_false]

/-- From the position of a child on, the iterator yields that child, and the
entries and children after it. -/
theorem yields_internal
    (hchild : ∀ c ∈ cs, ∀ st, Yields c.rounds ((c, 0) :: st) c.toList st) (st : IterStack K V)
    (hes : es = A ++ B) (hcs : cs = X ++ c :: Y) (hA : A.length = X.length)
    (hB : B.length = Y.length) :
    Yields (2 * Y.length + 2 + roundsAll (c :: Y)) ((.internal es cs, 2 * X.length) :: st)
      (interleave B (c :: Y)) st := by
  induction Y generalizing A B X c with
  | nil =>
    obtain rfl := eq_nil_of_length_eq_zero hB
    have hend : es.length = X.length := by rw [hes, append_nil, hA]
    have hrun := Yields.again (iterStep_child hlen hcs st)
      ((hchild c (by simp [hcs]) _).trans (.again (hend ▸ iterStep_end hlen st) (.refl st)))
    have hk : c.rounds + (0 + 1) + 1 = 2 * 0 + 2 + roundsAll [c] := by
      simp only [roundsAll]
      omega
    rw [length_nil, ← hk]
    simpa [interleave] using hrun
  | cons d Y ih =>
    obtain _ | ⟨b, B⟩ := B
    · cases hB
    have hrest := ih (A := A ++ [b]) (B := B) (X := X ++ [c]) (c := d) (by simp [hes])
      (by simp [hcs]) (by simp [hA]) (Nat.succ.inj hB)
    rw [length_append, length_singleton] at hrest
    have hitem := iterStep_entry hlen hes st
    rw [hA] at hitem
    have hrun := Yields.again (iterStep_child hlen hcs st)
      ((hchild c (by simp [hcs]) _).trans (.item hitem hrest))
    have hk : c.rounds + (2 * Y.length + 2 + roundsAll (d :: Y) + 1) + 1
        = 2 * (d :: Y).length + 2 + roundsAll (c :: d :: Y) := by
      simp only [roundsAll, length_cons]
      omega
    rw [← hk, interleave]
    exact hrun

end

theorem yields_node (hn : Wf h n) (st : IterStack K V) :
    Yields n.rounds ((n, 0) :: st) n.toList st := by
  induction h generalizing n st with
  | zero =>
    obtain ⟨es, rfl⟩ := hn.leaf_of_zero
    rw [toList_leaf, Node.rounds]
    exact yields_leaf st (Nat.zero_le _)
  | succ h ih =>
    obtain ⟨es, cs, rfl⟩ := hn.internal_of_succ
    obtain ⟨-, hlen, hcs⟩ := wf_internal.1 hn
    obtain _ | ⟨c, cs⟩ := cs
    · cases hlen
    have hrun := yields_internal hlen (fun c hc st => ih (hcs c hc).1 st) st
      (A := []) (X := []) rfl rfl rfl (by simpa using hlen.symm)
    have hk : 2 * cs.length + 2 + roundsAll (c :: cs)
        = es.length + (c :: cs).length + 1 + roundsAll (c :: cs) := by
      rw [hlen]
      rw [length_cons] at hlen
      omega
    rw [toList_internal, Node.rounds, ← hk]
    exact hrun

theorem BTree.iter_spec {t : BTree K V} (hn : Wf h t.root) : t.iter = some t.root.toList :=
  (yields_node hn []).collect

end JanuaryOs.Libs.Btree

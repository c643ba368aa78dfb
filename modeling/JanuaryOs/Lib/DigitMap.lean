import JanuaryOs.Lib.OrdMap

/-!
# Ordered maps cut into blocks of equal width by the leading digit of the key

`blocks width f` strings together one association list per digit: the entry `(r,
v)` of the list of digit `d` stands under the key `d * width + r`. If every list
is sorted and stays below the width, the whole is sorted, and looking up,
inserting and erasing act on the list of one digit only. A radix tree is this
construction repeated once per level.
-/

namespace JanuaryOs.Lib

open Function List

variable {V : Type*} {n : ℕ} {l : List (ℕ × V)} {k : ℕ}

/-- All keys are below `width`. -/
def BelowKV (width : ℕ) (l : List (ℕ × V)) : Prop := ∀ e ∈ l, e.1 < width

/-- Sorted, with keys below `width`. -/
structure BlockKV (width : ℕ) (l : List (ℕ × V)) : Prop where
  sorted : SortedKV l
  below : BelowKV width l

theorem BlockKV.nil (width : ℕ) : BlockKV width ([] : List (ℕ × V)) := ⟨List.Pairwise.nil, nofun⟩

theorem BlockKV.insertKV {width : ℕ} (h : BlockKV width l) (hk : k < width) (v : V) :
    BlockKV width (insertKV k v l) := by
  refine ⟨sortedKV_insertKV k v h.sorted, fun e he => ?_⟩
  rcases mem_insertKV.1 he with rfl | ⟨he, -⟩
  · exact hk
  · exact h.below e he

theorem BlockKV.eraseKV {width : ℕ} (h : BlockKV width l) (k : ℕ) : BlockKV width (eraseKV k l) :=
  ⟨sortedKV_eraseKV k h.sorted, fun e he => h.below e (mem_eraseKV.1 he).1⟩

theorem SortedKV.ext {K V : Type*} [LinearOrder K] {l1 l2 : List (K × V)} (h1 : SortedKV l1)
    (h2 : SortedKV l2) (h : ∀ k, lookupKV k l1 = lookupKV k l2) : l1 = l2 := by
  have hmap : (⟨l1, h1⟩ : OrdMap K V) = ⟨l2, h2⟩ := OrdMap.ext_get? h
  exact congrArg OrdMap.entries hmap

def shiftKV (base : ℕ) (l : List (ℕ × V)) : List (ℕ × V) := l.map fun e => (base + e.1, e.2)

/-- One list per digit, strung together. -/
def blocks (width : ℕ) (f : Fin n → List (ℕ × V)) : List (ℕ × V) :=
  (finRange n).flatMap fun d : Fin n => shiftKV (d * width) (f d)

section

variable {width : ℕ} {f : Fin n → List (ℕ × V)} {r : ℕ}

theorem mem_blocks {e : ℕ × V} :
    e ∈ blocks width f ↔ ∃ d r, (r, e.2) ∈ f d ∧ e.1 = d * width + r := by
  obtain ⟨k, v⟩ := e
  simp only [blocks, shiftKV, mem_flatMap, mem_finRange, true_and, mem_map,
    Prod.mk.injEq, Prod.exists]
  refine exists_congr fun d => ⟨?_, ?_⟩
  · rintro ⟨r, w, hr, hk, rfl⟩
    exact ⟨r, hr, hk.symm⟩
  · rintro ⟨r, hr, hk⟩
    exact ⟨r, v, hr, hk.symm, rfl⟩

theorem blockKV_blocks (h : ∀ d, BlockKV width (f d)) : BlockKV (n * width) (blocks width f) := by
  constructor
  · refine pairwise_flatMap.2 ⟨fun d _ => ?_, ?_⟩
    · refine pairwise_map.2 ((h d).sorted.imp fun {a b} hab => ?_)
      exact Nat.add_lt_add_left hab _
    · refine (pairwise_lt_finRange n).imp fun {c d} hcd => ?_
      intro x hx y hy
      obtain ⟨a, ha, rfl⟩ := mem_map.1 hx
      obtain ⟨b, hb, rfl⟩ := mem_map.1 hy
      calc c * width + a.1 < c * width + width := Nat.add_lt_add_left ((h c).below a ha) _
        _ = (c + 1) * width := (Nat.succ_mul _ _).symm
        _ ≤ d * width := Nat.mul_le_mul_right _ hcd
        _ ≤ d * width + b.1 := Nat.le_add_right _ _
  · intro e he
    obtain ⟨d, r, hr, hk⟩ := mem_blocks.1 he
    rw [hk]
    calc d * width + r < d * width + width := Nat.add_lt_add_left ((h d).below _ hr) _
      _ = (d + 1) * width := (Nat.succ_mul _ _).symm
      _ ≤ n * width := Nat.mul_le_mul_right _ d.isLt

theorem digit_key_inj {c d : ℕ} {s : ℕ} (hr : r < width) (hs : s < width) :
    c * width + r = d * width + s ↔ c = d ∧ r = s := by
  constructor
  · intro h
    have hpos : 0 < width := by omega
    have hcd : c = d := by
      have hdiv := congrArg (· / width) h
      simpa only [Nat.mul_comm _ width, Nat.mul_add_div hpos, Nat.div_eq_of_lt, hr, hs,
        Nat.add_zero] using hdiv
    subst hcd
    exact ⟨rfl, by omega⟩
  · rintro ⟨rfl, rfl⟩
    rfl

theorem lookupKV_blocks (h : ∀ d, BlockKV width (f d)) (d : Fin n) (hr : r < width) :
    lookupKV (d * width + r) (blocks width f) = lookupKV r (f d) := by
  refine OrdMap.get?_eq_iff_of_mem_iff (blockKV_blocks h).sorted fun v => ?_
  rw [mem_blocks]
  constructor
  · rintro ⟨c, s, hs, hk⟩
    have hs' : s < width := (h c).below _ hs
    obtain ⟨hd, rfl⟩ := (digit_key_inj hr hs').1 hk
    rw [Fin.ext hd]
    exact lookupKV_of_mem (h c).sorted hs
  · intro hv
    exact ⟨d, r, mem_of_lookupKV hv, rfl⟩

theorem lookupKV_eq_none_of_below (h : BelowKV width l) (hk : width ≤ k) : lookupKV k l = none :=
  lookupKV_eq_none.2 fun e he => (lt_of_lt_of_le (h e he) hk).ne

theorem BlockKV.update (h : ∀ d, BlockKV width (f d)) (d : Fin n) (hl : BlockKV width l)
    (c : Fin n) : BlockKV width (update f d l c) := by
  by_cases hc : c = d
  · subst hc
    rwa [update_self]
  · rw [update_of_ne hc]
    exact h c

/-- A key below the last block has a digit and a rest. -/
theorem exists_digit (hk : k < n * width) :
    ∃ (d : Fin n) (r : ℕ), r < width ∧ k = d * width + r := by
  have hpos : 0 < width := Nat.pos_of_ne_zero fun h => by simp [h] at hk
  refine ⟨⟨k / width, (Nat.div_lt_iff_lt_mul hpos).2 hk⟩, k % width, Nat.mod_lt _ hpos, ?_⟩
  exact (Nat.div_add_mod' k width).symm

/-- A sorted list below the last block is `blocks` of another family if the
lookups of each digit agree. -/
theorem eq_blocks (hl : BlockKV (n * width) l) (h : ∀ d, BlockKV width (f d))
    (hlookup : ∀ (d : Fin n) (r : ℕ), r < width → lookupKV (d * width + r) l = lookupKV r (f d)) :
    l = blocks width f := by
  refine hl.sorted.ext (blockKV_blocks h).sorted fun k => ?_
  by_cases hk : k < n * width
  · obtain ⟨d, r, hr, rfl⟩ := exists_digit hk
    rw [lookupKV_blocks h d hr, hlookup d r hr]
  · rw [lookupKV_eq_none_of_below hl.below (not_lt.1 hk),
      lookupKV_eq_none_of_below (blockKV_blocks h).below (not_lt.1 hk)]

theorem lookupKV_insertKV {K V : Type*} [LinearOrder K] {l : List (K × V)} (hl : SortedKV l)
    (k k' : K) (v : V) : lookupKV k' (insertKV k v l) = if k' = k then some v else lookupKV k' l :=
  OrdMap.get?_insert ⟨l, hl⟩ k k' v

theorem lookupKV_eraseKV {K V : Type*} [LinearOrder K] {l : List (K × V)} (hl : SortedKV l)
    (k k' : K) : lookupKV k' (eraseKV k l) = if k' = k then none else lookupKV k' l :=
  OrdMap.get?_erase ⟨l, hl⟩ k k'

/-- An update of the entry of one key acts on the list of its digit. -/
theorem blocks_update (h : ∀ d, BlockKV width (f d)) (d : Fin n) (hr : r < width)
    {l' : List (ℕ × V)} (hl : BlockKV (n * width) l) (hl' : BlockKV width l') (o : Option V)
    (hlookup : ∀ k, lookupKV k l = if k = d * width + r then o else lookupKV k (blocks width f))
    (hlookup' : ∀ s, lookupKV s l' = if s = r then o else lookupKV s (f d)) :
    l = blocks width (update f d l') := by
  refine eq_blocks hl (BlockKV.update h d hl') fun c s hs => ?_
  rw [hlookup]
  by_cases hc : c = d
  · subst hc
    rw [update_self, hlookup', lookupKV_blocks h c hs]
    simp only [digit_key_inj hs hr, true_and]
  have hne : (c : ℕ) ≠ d := fun hcd => hc (Fin.ext hcd)
  rw [update_of_ne hc, lookupKV_blocks h c hs, if_neg]
  rw [digit_key_inj hs hr]
  exact fun hcd => hne hcd.1

theorem insertKV_blocks (h : ∀ d, BlockKV width (f d)) (d : Fin n) (hr : r < width) (v : V) :
    insertKV (d * width + r) v (blocks width f) =
      blocks width (update f d (insertKV r v (f d))) := by
  have hkey : d * width + r < n * width := by
    calc d * width + r < d * width + width := Nat.add_lt_add_left hr _
      _ = (d + 1) * width := (Nat.succ_mul _ _).symm
      _ ≤ n * width := Nat.mul_le_mul_right _ d.isLt
  exact blocks_update h d hr ((blockKV_blocks h).insertKV hkey v) ((h d).insertKV hr v) (some v)
    (fun k => lookupKV_insertKV (blockKV_blocks h).sorted _ k v)
    (fun s => lookupKV_insertKV (h d).sorted r s v)

theorem eraseKV_blocks (h : ∀ d, BlockKV width (f d)) (d : Fin n) (hr : r < width) :
    eraseKV (d * width + r) (blocks width f) = blocks width (update f d (eraseKV r (f d))) :=
  blocks_update h d hr ((blockKV_blocks h).eraseKV _) ((h d).eraseKV r) none
    (fun k => lookupKV_eraseKV (blockKV_blocks h).sorted _ k)
    (fun s => lookupKV_eraseKV (h d).sorted r s)

theorem filter_blocks (p : ℕ × V → Bool) :
    (blocks width f).filter p =
      blocks width fun d => (f d).filter fun e => p (d * width + e.1, e.2) := by
  simp only [blocks, filter_flatMap, shiftKV, filter_map]
  rfl

/-- The blocks from a digit on, if those before `d` are empty. -/
theorem blocks_from {A B : List (Fin n)} {d : Fin n} (hsplit : finRange n = A ++ d :: B)
    {lo : ℕ} (hlo : lo ≤ d) (hA : ∀ c ∈ A, lo ≤ c → f c = []) :
    (blocks width fun c : Fin n => if lo ≤ c then f c else []) =
      shiftKV (d * width) (f d) ++ blocks width fun c : Fin n =>
        if d + 1 ≤ (c : ℕ) then f c else [] := by
  have hsorted := pairwise_lt_finRange n
  rw [hsplit, pairwise_append, pairwise_cons] at hsorted
  have hbefore : ∀ c ∈ A, c < d := fun c hc => hsorted.2.2 c hc d mem_cons_self
  have hafter : ∀ c ∈ B, d < c := hsorted.2.1.1
  have hnilA : (A.flatMap fun c : Fin n => shiftKV (c * width) (if lo ≤ c then f c else []))
      = [] := by
    refine flatMap_eq_nil_iff.2 fun c hc => ?_
    split
    · rw [hA c hc ‹_›]
      rfl
    · rfl
  have hnilA' : (A.flatMap fun c : Fin n =>
      shiftKV (c * width) (if d + 1 ≤ (c : ℕ) then f c else [])) = [] := by
    refine flatMap_eq_nil_iff.2 fun c hc => ?_
    have := hbefore c hc
    rw [if_neg (by omega)]
    rfl
  have hB : (B.flatMap fun c : Fin n => shiftKV (c * width) (if lo ≤ c then f c else [])) =
      B.flatMap fun c : Fin n => shiftKV (c * width) (if d + 1 ≤ (c : ℕ) then f c else []) := by
    refine flatMap_congr fun c hc => ?_
    have := hafter c hc
    rw [if_pos (by omega), if_pos (by omega)]
  unfold blocks
  rw [hsplit, flatMap_append, flatMap_append, flatMap_cons, flatMap_cons,
    hnilA, hnilA', hB]
  simp only [if_pos hlo, if_neg (Nat.not_succ_le_self (d : ℕ)), nil_append]
  rfl

/-! ### First and last entries -/

theorem head?_blocks :
    (blocks width f).head? = (finRange n).findSome? fun d : Fin n =>
      (f d).head?.map fun e => (d * width + e.1, e.2) := by
  rw [blocks, head?_flatMap]
  simp only [shiftKV, head?_map]

theorem getLast?_blocks :
    (blocks width f).getLast? = (finRange n).reverse.findSome? fun d : Fin n =>
      (f d).getLast?.map fun e => (d * width + e.1, e.2) := by
  rw [blocks, getLast?_flatMap]
  simp only [shiftKV, getLast?_map]

end

end JanuaryOs.Lib

import Mathlib

/-!
# Finite ordered maps, as strictly sorted association lists

`OrdMap K V` is the meaning of every ordered table of the kernel: the standard
library's `BTreeMap`, and what the kernel's own `BTree` is refined against. The
sortedness of the entries is a field, so two maps with the same lookups are
equal (`OrdMap.ext_get?`), and the operations are defined by filtering on the
key, which keeps them local: an operation at `k` only acts between the entries
below `k` and those above (`insertKV_append`, `eraseKV_append`,
`lookupKV_append`).

`OrdMap.sum` adds up a weight over the entries. Reference counts are stated with
it: `sum_insert` and `sum_erase` say by how much one update moves a sum.
-/

namespace JanuaryOs.Lib

open List

variable {K V : Type*} [LinearOrder K]

/-! ### Association lists -/

/-- The value stored under `k`. -/
def lookupKV (k : K) (l : List (K × V)) : Option V :=
  (l.find? (fun e => e.1 = k)).map (·.2)

/-- Insert or replace the entry of `k`, between the smaller and the larger keys. -/
def insertKV (k : K) (v : V) (l : List (K × V)) : List (K × V) :=
  l.filter (fun e => e.1 < k) ++ (k, v) :: l.filter (fun e => k < e.1)

/-- Delete the entry of `k`. -/
def eraseKV (k : K) (l : List (K × V)) : List (K × V) :=
  l.filter (fun e => e.1 ≠ k)

/-- The entries are strictly ascending in their keys. -/
def SortedKV (l : List (K × V)) : Prop := l.Pairwise (fun a b => a.1 < b.1)

theorem lookupKV_cons (k : K) (e : K × V) (l : List (K × V)) :
    lookupKV k (e :: l) = if e.1 = k then some e.2 else lookupKV k l := by
  unfold lookupKV
  by_cases h : e.1 = k <;> simp [h]

variable {A B L l : List (K × V)} {k : K} {v : V} {e : K × V}

theorem lookupKV_eq_none : lookupKV k l = none ↔ ∀ e ∈ l, e.1 ≠ k := by
  simp [lookupKV]

theorem mem_of_lookupKV (h : lookupKV k l = some v) : (k, v) ∈ l := by
  simp only [lookupKV, Option.map_eq_some_iff] at h
  obtain ⟨e, he, rfl⟩ := h
  have hk : e.1 = k := by simpa using find?_some he
  exact hk ▸ mem_of_find?_eq_some he

theorem lookupKV_append (k : K) (l1 l2 : List (K × V)) :
    lookupKV k (l1 ++ l2) = (lookupKV k l1).or (lookupKV k l2) := by
  simp only [lookupKV, find?_append]
  cases l1.find? (fun e => e.1 = k) <;> simp

theorem lookupKV_eq_none_of_lt (h : ∀ e ∈ l, e.1 < k) : lookupKV k l = none :=
  lookupKV_eq_none.2 fun e he => (h e he).ne

theorem lookupKV_eq_none_of_gt (h : ∀ e ∈ l, k < e.1) : lookupKV k l = none :=
  lookupKV_eq_none.2 fun e he => (h e he).ne'

theorem lookupKV_of_mem (hl : SortedKV l) (h : (k, v) ∈ l) : lookupKV k l = some v := by
  induction l with
  | nil => cases h
  | cons e l ih =>
    rw [lookupKV_cons]
    obtain ⟨he, hl⟩ := pairwise_cons.1 hl
    rcases mem_cons.1 h with rfl | h
    · simp
    · rw [if_neg (he _ h).ne, ih hl h]

theorem mem_insertKV : e ∈ insertKV k v l ↔ e = (k, v) ∨ (e ∈ l ∧ e.1 ≠ k) := by
  simp only [insertKV, mem_append, mem_cons, mem_filter, decide_eq_true_eq]
  constructor
  · rintro (⟨he, hlt⟩ | rfl | ⟨he, hlt⟩)
    · exact .inr ⟨he, hlt.ne⟩
    · exact .inl rfl
    · exact .inr ⟨he, hlt.ne'⟩
  · rintro (rfl | ⟨he, hne⟩)
    · exact .inr (.inl rfl)
    · rcases lt_or_gt_of_ne hne with h | h
      · exact .inl ⟨he, h⟩
      · exact .inr (.inr ⟨he, h⟩)

theorem mem_eraseKV : e ∈ eraseKV k l ↔ e ∈ l ∧ e.1 ≠ k := by
  simp [eraseKV]

theorem sortedKV_insertKV (k : K) (v : V) (hl : SortedKV l) : SortedKV (insertKV k v l) := by
  unfold SortedKV insertKV
  simp only [pairwise_append, pairwise_cons, mem_cons, mem_filter,
    decide_eq_true_eq]
  refine ⟨hl.filter _, ⟨fun e he => he.2, hl.filter _⟩, ?_⟩
  rintro a ⟨_, ha⟩ b (rfl | ⟨_, hb⟩)
  · exact ha
  · exact ha.trans hb

theorem sortedKV_eraseKV (k : K) (hl : SortedKV l) : SortedKV (eraseKV k l) :=
  hl.filter _

/-! Operations at `k` act between the smaller and the larger keys. -/

theorem insertKV_append (v : V) (hA : ∀ e ∈ A, e.1 < k) (hB : ∀ e ∈ B, k < e.1) :
    insertKV k v (A ++ (L ++ B)) = A ++ (insertKV k v L ++ B) := by
  have hA' : A.filter (fun e => k < e.1) = [] := by
    simpa using fun a b h => (hA (a, b) h).le
  have hB' : B.filter (fun e => e.1 < k) = [] := by
    simpa using fun a b h => (hB (a, b) h).le
  have hA'' : A.filter (fun e => e.1 < k) = A := filter_eq_self.2 (by simpa using hA)
  have hB'' : B.filter (fun e => k < e.1) = B := filter_eq_self.2 (by simpa using hB)
  simp only [insertKV, filter_append, hA', hB', hA'', hB'', append_nil,
    nil_append, append_assoc, cons_append]

theorem eraseKV_eq_self (h : ∀ e ∈ l, e.1 ≠ k) : eraseKV k l = l :=
  filter_eq_self.2 (by simpa using h)

theorem eraseKV_append (hA : ∀ e ∈ A, e.1 < k) (hB : ∀ e ∈ B, k < e.1) :
    eraseKV k (A ++ (L ++ B)) = A ++ (eraseKV k L ++ B) := by
  have hA' : eraseKV k A = A := eraseKV_eq_self fun e he => (hA e he).ne
  have hB' : eraseKV k B = B := eraseKV_eq_self fun e he => (hB e he).ne'
  unfold eraseKV at *
  rw [filter_append, filter_append, hA', hB']

theorem lookupKV_mid (hA : ∀ e ∈ A, e.1 < k) (hB : ∀ e ∈ B, k < e.1) :
    lookupKV k (A ++ (L ++ B)) = lookupKV k L := by
  rw [lookupKV_append, lookupKV_append, lookupKV_eq_none_of_lt hA, lookupKV_eq_none_of_gt hB]
  simp

/-! In a sorted list an entry is above everything before it and below everything
after. -/

section Around

variable {P S : List (K × V)}

section

variable (h : SortedKV (P ++ (k, v) :: S))

include h

theorem SortedKV.lt_of_before : ∀ e ∈ P, e.1 < k :=
  fun e he => (pairwise_append.1 h).2.2 e he (k, v) mem_cons_self

theorem SortedKV.lt_of_after : ∀ e ∈ S, k < e.1 :=
  (pairwise_cons.1 (pairwise_append.1 h).2.1).1

theorem lookupKV_around : lookupKV k (P ++ (k, v) :: S) = some v :=
  lookupKV_of_mem h (by simp)

theorem insertKV_around (w : V) : insertKV k w (P ++ (k, v) :: S) = P ++ (k, w) :: S := by
  have := insertKV_append (L := [(k, v)]) w h.lt_of_before h.lt_of_after
  simpa [insertKV] using this

theorem eraseKV_around : eraseKV k (P ++ (k, v) :: S) = P ++ S := by
  have := eraseKV_append (L := [(k, v)]) h.lt_of_before h.lt_of_after
  simpa [eraseKV] using this

end

end Around

theorem insertKV_between (v : V) (hA : ∀ e ∈ A, e.1 < k) (hB : ∀ e ∈ B, k < e.1) :
    insertKV k v (A ++ B) = A ++ (k, v) :: B := by
  have := insertKV_append (L := []) v hA hB
  simpa [insertKV] using this

/-- The weight of the entries of an association list. -/
def sumKV (f : K → V → ℕ) (l : List (K × V)) : ℕ := (l.map (fun e => f e.1 e.2)).sum

theorem sumKV_split (f : K → V → ℕ) (k : K) (hl : SortedKV l) :
    sumKV f l = sumKV f (l.filter (fun e => e.1 < k)) + (lookupKV k l).elim 0 (f k)
      + sumKV f (l.filter (fun e => k < e.1)) := by
  induction l with
  | nil => rfl
  | cons e l ih =>
    obtain ⟨he, hl'⟩ := pairwise_cons.1 hl
    have ih := ih hl'
    rw [lookupKV_cons]
    simp only [sumKV, map_cons, sum_cons] at ih ⊢
    rcases lt_trichotomy e.1 k with h | rfl | h
    · simp only [h, h.ne, h.not_gt, decide_true, decide_false, filter_cons,
        if_true, if_false, map_cons, sum_cons, Bool.false_eq_true]
      omega
    · have hlt : l.filter (fun e' => e'.1 < e.1) = [] := by
        simpa using fun a b h => (he (a, b) h).le
      have hgt : l.filter (fun e' => e.1 < e'.1) = l :=
        filter_eq_self.2 (by simpa using he)
      simp [hlt, hgt]
    · simp only [h, h.ne', h.not_gt, decide_true, decide_false, filter_cons,
        if_true, if_false, map_cons, sum_cons, Bool.false_eq_true]
      omega

/-! ### Maps -/

/-- A finite map with its keys in strictly ascending order. -/
structure OrdMap (K V : Type*) [LinearOrder K] where
  /-- The entries, smallest key first. -/
  entries : List (K × V)
  sorted : SortedKV entries

namespace OrdMap

def empty : OrdMap K V := ⟨[], List.Pairwise.nil⟩

variable (m : OrdMap K V)

/-- The value stored under `k`. -/
def get? (k : K) : Option V := lookupKV k m.entries

/-- Insert or replace the entry of `k`. -/
def insert (k : K) (v : V) : OrdMap K V :=
  ⟨insertKV k v m.entries, sortedKV_insertKV k v m.sorted⟩

/-- Delete the entry of `k`. -/
def erase (k : K) : OrdMap K V :=
  ⟨eraseKV k m.entries, sortedKV_eraseKV k m.sorted⟩

/-- Keep the entries that satisfy `p`. -/
def filter (p : K → V → Bool) : OrdMap K V :=
  ⟨m.entries.filter (fun e => p e.1 e.2), m.sorted.filter _⟩

/-- Rewrite the value of `k`, if there is one. -/
def modify (k : K) (f : V → V) : OrdMap K V :=
  match m.get? k with
  | some v => m.insert k (f v)
  | none => m

variable {m : OrdMap K V}

@[simp] theorem get?_empty (k : K) : (empty : OrdMap K V).get? k = none := rfl

theorem mem_entries_iff : (k, v) ∈ m.entries ↔ m.get? k = some v :=
  ⟨lookupKV_of_mem m.sorted, mem_of_lookupKV⟩

theorem get?_eq_iff_of_mem_iff (hl : SortedKV l) {o : Option V} (h : ∀ v, (k, v) ∈ l ↔ o = some v) :
    lookupKV k l = o := by
  cases hlk : lookupKV k l with
  | some v => exact ((h v).1 (mem_of_lookupKV hlk)).symm
  | none =>
    cases o with
    | none => rfl
    | some v => rw [lookupKV_of_mem hl ((h v).2 rfl)] at hlk; cases hlk

@[ext] theorem ext_get? {m1 m2 : OrdMap K V} (h : ∀ k, m1.get? k = m2.get? k) : m1 = m2 := by
  obtain ⟨l1, h1⟩ := m1
  obtain ⟨l2, h2⟩ := m2
  congr
  have hmem : ∀ e, e ∈ l1 ↔ e ∈ l2 := by
    rintro ⟨k, v⟩
    have h1' := mem_entries_iff (m := ⟨l1, h1⟩) (k := k) (v := v)
    have h2' := mem_entries_iff (m := ⟨l2, h2⟩) (k := k) (v := v)
    rw [h k] at h1'
    exact h1'.trans h2'.symm
  have nodup : ∀ {l : List (K × V)}, SortedKV l → l.Nodup := fun hl =>
    hl.imp fun hab heq => (heq ▸ hab).false
  refine List.Perm.eq_of_pairwise (fun a b _ _ hab hba => ?_) h1 h2
    ((perm_ext_iff_of_nodup (nodup h1) (nodup h2)).2 hmem)
  exact absurd hab (lt_asymm hba)

section

variable (m)

theorem get?_insert (k k' : K) (v : V) :
    (m.insert k v).get? k' = if k' = k then some v else m.get? k' := by
  refine get?_eq_iff_of_mem_iff (m.insert k v).sorted fun w => ?_
  show (k', w) ∈ insertKV k v m.entries ↔ _
  rw [mem_insertKV, mem_entries_iff]
  by_cases h : k' = k
  · simp [h, eq_comm]
  · simp [h]

@[simp] theorem get?_insert_self (k : K) (v : V) :
    (m.insert k v).get? k = some v := by simp [get?_insert]

theorem get?_insert_ne {k' : K} (v : V) (h : k' ≠ k) :
    (m.insert k v).get? k' = m.get? k' := by simp [get?_insert, h]

theorem get?_erase (k k' : K) :
    (m.erase k).get? k' = if k' = k then none else m.get? k' := by
  refine get?_eq_iff_of_mem_iff (m.erase k).sorted fun w => ?_
  show (k', w) ∈ eraseKV k m.entries ↔ _
  rw [mem_eraseKV, mem_entries_iff]
  by_cases h : k' = k <;> simp [h]

@[simp] theorem get?_erase_self (k : K) : (m.erase k).get? k = none := by
  simp [get?_erase]

theorem get?_erase_ne {k' : K} (h : k' ≠ k) :
    (m.erase k).get? k' = m.get? k' := by simp [get?_erase, h]

variable {m} in
theorem erase_eq_self (h : m.get? k = none) : m.erase k = m := by
  ext k'
  rw [get?_erase]
  split
  · simp_all
  · rfl

theorem get?_filter (p : K → V → Bool) (k : K) :
    (m.filter p).get? k = (m.get? k).filter (p k) := by
  refine get?_eq_iff_of_mem_iff (m.filter p).sorted fun w => ?_
  show (k, w) ∈ m.entries.filter (fun e => p e.1 e.2) ↔ _
  rw [mem_filter, mem_entries_iff, Option.filter_eq_some_iff]

theorem get?_modify (k k' : K) (f : V → V) :
    (m.modify k f).get? k' = if k' = k then (m.get? k).map f else m.get? k' := by
  unfold modify
  cases h : m.get? k with
  | none => by_cases hk : k' = k <;> simp [hk, h]
  | some v => simp [get?_insert]

end

def filterMap {W : Type*} (m : OrdMap K V) (f : K → V → Option W) : OrdMap K W where
  entries := m.entries.filterMap fun e => (f e.1 e.2).map fun w => (e.1, w)
  sorted := by
    refine m.sorted.filterMap _ fun a b hab x hx y hy => ?_
    obtain ⟨v, -, rfl⟩ := Option.map_eq_some_iff.1 hx
    obtain ⟨w, -, rfl⟩ := Option.map_eq_some_iff.1 hy
    exact hab

theorem get?_filterMap {W : Type*} (m : OrdMap K V) (f : K → V → Option W) (k : K) :
    (m.filterMap f).get? k = (m.get? k).bind (f k) := by
  refine get?_eq_iff_of_mem_iff (m.filterMap f).sorted fun w => ?_
  simp only [filterMap, mem_filterMap, Option.map_eq_some_iff, Prod.mk.injEq, Prod.exists,
    mem_entries_iff, Option.bind_eq_some_iff]
  constructor
  · rintro ⟨k', v, hv, w', hw, rfl, rfl⟩
    exact ⟨v, hv, hw⟩
  · rintro ⟨v, hv, hw⟩
    exact ⟨k, v, hv, w, hw, rfl, rfl⟩

/-! Lists of updates. -/

theorem get?_foldl_insert (hl : SortedKV l) (m : OrdMap K V) (k : K) :
    (l.foldl (fun m e => m.insert e.1 e.2) m).get? k = (lookupKV k l).or (m.get? k) := by
  induction l generalizing m with
  | nil => rfl
  | cons e l ih =>
    obtain ⟨he, hl'⟩ := pairwise_cons.1 hl
    rw [foldl_cons, ih hl', get?_insert, lookupKV_cons]
    by_cases hk : k = e.1
    · subst hk
      rw [lookupKV_eq_none_of_gt he]
      simp
    · rw [if_neg hk, if_neg (Ne.symm hk)]

theorem mem_keys_filter {p : K × V → Bool} (hget : m.get? k = some v) :
    k ∈ (m.entries.filter p).map (·.1) ↔ p (k, v) = true := by
  simp only [mem_map, mem_filter, Prod.exists, exists_and_right, exists_eq_right, mem_entries_iff,
    hget, Option.some.injEq]
  exact ⟨fun ⟨_, hw, hp⟩ => hw ▸ hp, fun hp => ⟨v, rfl, hp⟩⟩

theorem get?_foldl_erase (ks : List K) (m : OrdMap K V) (k : K) :
    (ks.foldl erase m).get? k = if k ∈ ks then none else m.get? k := by
  induction ks generalizing m with
  | nil => rfl
  | cons k' ks ih =>
    rw [foldl_cons, ih, get?_erase]
    by_cases hk : k = k' <;> simp [hk]

/-- Erasing the keys that do not satisfy `p` one after the other. -/
theorem foldl_erase_filter (m : OrdMap K V) (p : K → V → Bool) :
    ((m.entries.filter fun e => !p e.1 e.2).map (·.1)).foldl erase m = m.filter p := by
  ext k
  rw [get?_foldl_erase, get?_filter]
  cases hget : m.get? k with
  | none => simp
  | some v => cases hp : p k v <;> simp [mem_keys_filter hget, hp, Option.filter]

/-! ### Sums over a map -/

def sum (m : OrdMap K V) (f : K → V → ℕ) : ℕ := sumKV f m.entries

section

variable (m)

theorem sum_insert (f : K → V → ℕ) (k : K) (v : V) :
    (m.insert k v).sum f + (m.get? k).elim 0 (f k) = m.sum f + f k v := by
  have hsplit := sumKV_split f k m.sorted
  simp only [sum, insert, insertKV, get?] at hsplit ⊢
  simp only [sumKV, map_append, sum_append, map_cons, sum_cons] at hsplit ⊢
  omega

theorem sum_erase (f : K → V → ℕ) (k : K) :
    (m.erase k).sum f + (m.get? k).elim 0 (f k) = m.sum f := by
  cases hget : m.get? k with
  | none =>
    rw [erase_eq_self hget]
    rfl
  | some v =>
    have hsame : (m.erase k).insert k v = m := by
      ext k'
      rw [get?_insert, get?_erase]
      split
      · simp_all
      · rfl
    have hins := (m.erase k).sum_insert f k v
    rw [hsame, get?_erase_self] at hins
    exact hins.symm

theorem sum_modify (f : K → V → ℕ) (k : K) (g : V → V) :
    (m.modify k g).sum f + (m.get? k).elim 0 (f k)
      = m.sum f + (m.get? k).elim 0 fun v => f k (g v) := by
  unfold modify
  cases hget : m.get? k with
  | none => rfl
  | some v =>
    have hins := m.sum_insert f k (g v)
    rw [hget] at hins
    exact hins

theorem length_entries : m.entries.length = m.sum fun _ _ => 1 := by
  simp [sum, sumKV]

theorem length_insert (k : K) (v : V) :
    (m.insert k v).entries.length
      = if (m.get? k).isNone then m.entries.length + 1 else m.entries.length := by
  have := m.sum_insert (fun _ _ => 1) k v
  rw [length_entries, length_entries]
  cases hget : m.get? k <;> simp_all

end

theorem length_erase (h : m.get? k = some v) :
    (m.erase k).entries.length = m.entries.length - 1 := by
  have := m.sum_erase (fun _ _ => 1) k
  rw [length_entries, length_entries]
  simp_all
  omega

variable {f : K → V → ℕ}

theorem le_sum (h : m.get? k = some v) : f k v ≤ m.sum f := by
  have hsplit := sumKV_split f k m.sorted
  simp only [get?] at h
  rw [h, Option.elim_some] at hsplit
  simp only [sum]
  omega

theorem add_le_sum {l : K} {w : V} (hk : m.get? k = some v) (hl : m.get? l = some w) (hne : k ≠ l) :
    f k v + f l w ≤ m.sum f := by
  have herase := m.sum_erase f k
  have hle := le_sum (m := m.erase k) (f := f) ((m.get?_erase_ne hne.symm).trans hl)
  rw [hk, Option.elim_some] at herase
  omega

theorem sum_congr {g : K → V → ℕ} (h : ∀ k v, m.get? k = some v → f k v = g k v) :
    m.sum f = m.sum g := by
  simp only [sum, sumKV]
  exact congrArg List.sum (map_congr_left fun e he => h e.1 e.2 (mem_entries_iff.1 he))

theorem sum_eq_zero_iff : m.sum f = 0 ↔ ∀ k v, m.get? k = some v → f k v = 0 := by
  constructor
  · intro h k v hv
    have := le_sum (f := f) hv
    omega
  · intro h
    rw [sum_congr (g := fun _ _ => 0) h]
    simp [sum, sumKV]

theorem sum_pos_iff : 0 < m.sum f ↔ ∃ k v, m.get? k = some v ∧ 0 < f k v := by
  rw [Nat.pos_iff_ne_zero, Ne, sum_eq_zero_iff]
  push Not
  simp [Nat.pos_iff_ne_zero]

theorem sum_eq_of_single (k : K) (h : ∀ k' v, m.get? k' = some v → k' ≠ k → f k' v = 0) :
    m.sum f = (m.get? k).elim 0 (f k) := by
  have herase : (m.erase k).sum f = 0 := by
    rw [sum_eq_zero_iff]
    intro k' v hv
    rw [get?_erase] at hv
    split at hv
    · cases hv
    · rename_i hne
      exact h k' v hv hne
  have hsplit := sum_erase m f k
  omega

theorem length_le_of_sorted_range {lo hi : ℤ} {l : List (ℤ × V)} (hl : SortedKV l)
    (hrange : ∀ e ∈ l, lo ≤ e.1 ∧ e.1 < hi) : (l.length : ℤ) ≤ max (hi - lo) 0 := by
  induction l generalizing lo with
  | nil => simp
  | cons e l ih =>
    obtain ⟨he, hl'⟩ := pairwise_cons.1 hl
    have hhead := hrange e mem_cons_self
    have htail := ih hl' fun e' he' =>
      ⟨he e' he', (hrange e' (mem_cons_of_mem _ he')).2⟩
    rw [length_cons]
    push_cast
    omega

/-- Weights of at most one add up to at most the number of possible keys. -/
theorem sum_le_of_range {m : OrdMap ℤ V} (lo hi : ℤ) {f : ℤ → V → ℕ} (hf : ∀ k v, f k v ≤ 1)
    (hrange : ∀ k v, m.get? k = some v → lo ≤ k ∧ k < hi) : (m.sum f : ℤ) ≤ max (hi - lo) 0 := by
  have hlen := length_le_of_sorted_range m.sorted fun e he =>
    hrange e.1 e.2 (mem_entries_iff.1 he)
  have hsum : ∀ l : List (ℤ × V), sumKV f l ≤ l.length := by
    intro l
    induction l with
    | nil => exact Nat.le_refl 0
    | cons e l ih =>
      have := hf e.1 e.2
      simp only [sumKV, map_cons, sum_cons, length_cons] at ih ⊢
      omega
  have := hsum m.entries
  simp only [sum]
  omega

end OrdMap

end JanuaryOs.Lib

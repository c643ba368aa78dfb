import JanuaryOs.Lib.Counting

/-!
# Blocks of `2 ^ o` consecutive units, and families of lists that hold them

Ownership is counted, unit by unit: `cover p o f` is one if the block of order
`o` at `p` contains `f`. Splitting a block or joining it with its buddy does not
change any count, so an allocator conserves memory if every operation leaves the
sum over all holders alone.
-/

namespace JanuaryOs.Lib

open List

/-! ### Blocks -/

/-- One if the block of order `o` at `p` contains `f`. -/
def cover (p o f : ℕ) : ℕ := if p ≤ f ∧ f < p + 2 ^ o then 1 else 0

/-- How many blocks of a list contain `f`. -/
def coverAll (l : List (ℕ × ℕ)) (f : ℕ) : ℕ := (l.map fun b => cover b.1 b.2 f).sum

@[simp] theorem coverAll_nil (f : ℕ) : coverAll [] f = 0 := rfl

@[simp] theorem coverAll_cons (p o : ℕ) (l : List (ℕ × ℕ)) (f : ℕ) :
    coverAll ((p, o) :: l) f = cover p o f + coverAll l f := rfl

variable {l : List (ℕ × ℕ)} {b : ℕ × ℕ}

theorem cover_le_coverAll (hb : b ∈ l) (f : ℕ) : cover b.1 b.2 f ≤ coverAll l f :=
  le_sum_of_mem (mem_map_of_mem hb)

@[simp] theorem cover_self (p o : ℕ) : cover p o p = 1 :=
  if_pos ⟨le_rfl, Nat.lt_add_of_pos_right (Nat.two_pow_pos o)⟩

theorem cover_eq_one {p o f : ℕ} (h1 : p ≤ f) (h2 : f < p + 2 ^ o) : cover p o f = 1 :=
  if_pos ⟨h1, h2⟩

theorem cover_split (p o f : ℕ) : cover p (o + 1) f = cover p o f + cover (p + 2 ^ o) o f := by
  have hpow : 2 ^ (o + 1) = 2 ^ o + 2 ^ o := by rw [pow_succ]; omega
  simp only [cover, hpow]
  split <;> split <;> split <;> omega

def Apart (a b : ℕ × ℕ) : Prop := a.1 + 2 ^ a.2 ≤ b.1 ∨ b.1 + 2 ^ b.2 ≤ a.1

theorem pairwise_apart (h : ∀ f, coverAll l f ≤ 1) : l.Pairwise Apart := by
  induction l with
  | nil => exact .nil
  | cons a l ih =>
    obtain ⟨p, o⟩ := a
    refine .cons (fun b hb => ?_) (ih fun f => (Nat.le_add_left _ _).trans (h f))
    by_contra hover
    -- a unit of both would be counted twice
    have hpos := Nat.two_pow_pos o
    have hpos' := Nat.two_pow_pos b.2
    simp only [Apart, not_or, not_le] at hover
    have hcount := h (max p b.1)
    have hle := cover_le_coverAll hb (max p b.1)
    rw [coverAll_cons, cover_eq_one (by omega) (by omega)] at hcount
    rw [cover_eq_one (by omega) (by omega)] at hle
    omega

/-! ### Buddies -/

/-- The buddy of an aligned block is the other half of the block twice its size. -/
theorem xor_two_pow {p o : ℕ} (h : 2 ^ o ∣ p) :
    (2 ^ (o + 1) ∣ p ∧ p ^^^ 2 ^ o = p + 2 ^ o) ∨
      (2 ^ (o + 1) ∣ p ^^^ 2 ^ o ∧ p = (p ^^^ 2 ^ o) + 2 ^ o) := by
  obtain ⟨q, rfl⟩ := h
  have hxor : 2 ^ o * q ^^^ 2 ^ o = 2 ^ o * (q ^^^ 1) := by
    have := Nat.shiftLeft_xor_distrib (i := o) (a := q) (b := 1)
    simp only [Nat.shiftLeft_eq, one_mul] at this
    rw [mul_comm, ← this, mul_comm]
  rw [hxor]
  rcases Nat.even_or_odd q with hq | hq
  · left
    obtain ⟨r, hr⟩ := hq
    refine ⟨⟨r, by rw [hr, pow_succ]; ring⟩, ?_⟩
    rw [Nat.xor_one_of_even ⟨r, hr⟩, mul_add, mul_one]
  right
  obtain ⟨r, hr⟩ := hq
  rw [Nat.xor_one_of_odd ⟨r, hr⟩]
  refine ⟨⟨r, ?_⟩, ?_⟩
  · rw [hr, Nat.add_sub_cancel, pow_succ]
    ring
  · rw [hr, Nat.add_sub_cancel]
    ring

/-- The lower one of two buddies is aligned to twice their size. -/
theorem dvd_min_buddy {p o : ℕ} (h : 2 ^ o ∣ p) : 2 ^ (o + 1) ∣ min p (p ^^^ 2 ^ o) := by
  rcases xor_two_pow h with ⟨hdvd, heq⟩ | ⟨hdvd, heq⟩
  · rwa [heq, min_eq_left (Nat.le_add_right _ _)]
  · rwa [min_eq_right (by omega)]

theorem cover_merge {p o : ℕ} (h : 2 ^ o ∣ p) (f : ℕ) :
    cover (min p (p ^^^ 2 ^ o)) (o + 1) f = cover p o f + cover (p ^^^ 2 ^ o) o f := by
  rcases xor_two_pow h with ⟨-, heq⟩ | ⟨-, heq⟩
  · rw [heq, min_eq_left (Nat.le_add_right _ _), cover_split]
  · rw [min_eq_right (by omega), cover_split, ← heq, Nat.add_comm]

/-! ### Families of lists -/

section Family

variable {ι α : Type*}

/-- The weight of the elements of finitely many lists. -/
def total (S : Finset ι) (w : ι → α → ℕ) (l : ι → List α) : ℕ :=
  ∑ i ∈ S, ((l i).map (w i)).sum

variable {S : Finset ι} {w : ι → α → ℕ} {l : ι → List α} {i : ι}

theorem le_total (hi : i ∈ S) {a : α} (ha : a ∈ l i) : w i a ≤ total S w l :=
  (le_sum_of_mem (mem_map_of_mem ha)).trans
    (Finset.single_le_sum_of_canonicallyOrdered (f := fun i => ((l i).map (w i)).sum) hi)

end Family

end JanuaryOs.Lib

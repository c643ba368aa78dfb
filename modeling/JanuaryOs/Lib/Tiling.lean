import JanuaryOs.Lib.Blocks

/-!
# Tilings of a set by aligned blocks, in which no two buddies are left

Such a tiling has no choice: its blocks are the aligned blocks inside the set
that lie in no larger one (`Tiling.iff_maximal`). An allocator that joins
buddies whenever it can therefore comes back to the same blocks whenever the
same memory is free.
-/

namespace JanuaryOs.Lib

/-- The block of order `o` at `p` contains the unit. -/
def InBlock (p o f : ℕ) : Prop := p ≤ f ∧ f < p + 2 ^ o

def BlockIn (S : ℕ → Prop) (p o : ℕ) : Prop := ∀ f, InBlock p o f → S f

theorem inBlock_self (p o : ℕ) : InBlock p o p :=
  ⟨le_rfl, Nat.lt_add_of_pos_right (Nat.two_pow_pos o)⟩

theorem inBlock_of_meets {p o q k f : ℕ} (hp : 2 ^ o ∣ p) (hq : 2 ^ k ∣ q) (hok : o ≤ k)
    (h1 : InBlock p o f) (h2 : InBlock q k f) {g : ℕ} (hg : InBlock p o g) : InBlock q k g := by
  obtain ⟨i, rfl⟩ := hp
  obtain ⟨j, rfl⟩ := (pow_dvd_pow 2 hok).trans hq
  obtain ⟨l, hl⟩ : 2 ^ o ∣ 2 ^ k := pow_dvd_pow 2 hok
  simp only [InBlock, hl] at *
  -- all ends are multiples of the smaller size
  have hleft : j ≤ i := by
    by_contra hlt
    have := Nat.mul_le_mul_left (2 ^ o) (Nat.succ_le_of_lt (Nat.not_le.1 hlt))
    rw [Nat.mul_succ] at this
    omega
  have hright : i + 1 ≤ j + l := by
    by_contra hlt
    have := Nat.mul_le_mul_left (2 ^ o) (Nat.le_of_lt_succ (Nat.not_le.1 hlt))
    rw [Nat.mul_add] at this
    omega
  have h3 := Nat.mul_le_mul_left (2 ^ o) hleft
  have h4 := Nat.mul_le_mul_left (2 ^ o) hright
  rw [Nat.mul_add, Nat.mul_add, Nat.mul_one] at h4
  omega

theorem xor_two_pow_ne (x o : ℕ) : x ^^^ 2 ^ o ≠ x := by
  intro h
  have hzero := congrArg (x ^^^ ·) h
  simp at hzero

theorem xor_two_pow_of_dvd {p o : ℕ} (h : 2 ^ (o + 1) ∣ p) : p ^^^ 2 ^ o = p + 2 ^ o := by
  rcases xor_two_pow ((pow_dvd_pow 2 (Nat.le_succ o)).trans h) with ⟨-, heq⟩ | ⟨hdvd, heq⟩
  · exact heq
  -- the half would be a multiple of the whole
  rw [heq] at h
  have hle := Nat.le_of_dvd (Nat.two_pow_pos o) ((Nat.dvd_add_right hdvd).1 h)
  omega

/-- The block of twice the size that contains a block. -/
def parent (p o : ℕ) : ℕ := min p (p ^^^ 2 ^ o)

/-- A block is one half of its parent, its buddy the other one. -/
theorem inBlock_parent {p o : ℕ} (hp : 2 ^ o ∣ p) (f : ℕ) :
    InBlock (parent p o) (o + 1) f ↔ InBlock p o f ∨ InBlock (p ^^^ 2 ^ o) o f := by
  have hpow : 2 ^ (o + 1) = 2 ^ o + 2 ^ o := by rw [pow_succ]; omega
  unfold parent InBlock
  rw [hpow]
  rcases xor_two_pow hp with ⟨-, heq⟩ | ⟨-, heq⟩ <;> omega

/-- Blocks that tile a set: aligned, of less than `n` orders, without overlap,
and without a pair of buddies that could be joined. -/
structure Tiling (n : ℕ) (S : ℕ → Prop) (B : ℕ → ℕ → Prop) : Prop where
  order : ∀ {p o}, B p o → o < n
  aligned : ∀ {p o}, B p o → 2 ^ o ∣ p
  inside : ∀ {p o}, B p o → BlockIn S p o
  covers : ∀ f, S f → ∃ p o, B p o ∧ InBlock p o f
  unique : ∀ {p o q k f}, B p o → B q k → InBlock p o f → InBlock q k f → p = q ∧ o = k
  merged : ∀ {p o}, o + 1 < n → B p o → ¬ B (p ^^^ 2 ^ o) o

namespace Tiling

variable {n : ℕ} {S : ℕ → Prop} {B B' : ℕ → ℕ → Prop} {p o : ℕ}

/-- A block inside the set that meets no larger block of the tiling is itself
one. -/
theorem mem_of_small (h : Tiling n S B) (ho : o < n) (hp : 2 ^ o ∣ p) (hin : BlockIn S p o)
    (hsmall : ∀ {q k f}, B q k → InBlock q k f → InBlock p o f → k ≤ o) : B p o := by
  induction o generalizing p with
  | zero =>
    obtain ⟨q, k, hB, hq⟩ := h.covers p (hin p (inBlock_self p 0))
    obtain rfl : k = 0 := Nat.le_zero.1 (hsmall hB hq (inBlock_self p 0))
    obtain rfl : q = p := by
      simp only [InBlock, pow_zero] at hq
      omega
    exact hB
  | succ o ih =>
    by_contra hnot
    -- no block is as large, or it would be this one
    have hsmaller : ∀ {q k f}, B q k → InBlock q k f → InBlock p (o + 1) f → k ≤ o := by
      intro q k f hB hq hf
      have hle := hsmall hB hq hf
      by_contra hgt
      obtain rfl : k = o + 1 := by omega
      have h1 := inBlock_of_meets hp (h.aligned hB) le_rfl hf hq (inBlock_self p (o + 1))
      have h2 := inBlock_of_meets (h.aligned hB) hp le_rfl hq hf (inBlock_self q (o + 1))
      obtain rfl : p = q := by
        simp only [InBlock] at h1 h2
        omega
      exact hnot hB
    -- so both halves are, and they are buddies
    have hleft : ∀ {f}, InBlock p o f → InBlock p (o + 1) f := by
      intro f hf
      simp only [InBlock] at hf ⊢
      omega
    have hright : ∀ {f}, InBlock (p + 2 ^ o) o f → InBlock p (o + 1) f := by
      intro f hf
      simp only [InBlock] at hf ⊢
      omega
    have hdvd : 2 ^ o ∣ p := (pow_dvd_pow 2 (Nat.le_succ o)).trans hp
    have h1 : B p o := ih (by omega) hdvd (fun f hf => hin f (hleft hf))
      fun hB hq hf => hsmaller hB hq (hleft hf)
    have h2 : B (p + 2 ^ o) o := ih (by omega) (Nat.dvd_add hdvd (Nat.dvd_refl _))
      (fun f hf => hin f (hright hf)) fun hB hq hf => hsmaller hB hq (hright hf)
    exact h.merged ho h1 (xor_two_pow_of_dvd hp ▸ h2)

/-- The blocks of a tiling are the aligned blocks in the set that cannot be
doubled. -/
theorem iff_maximal (h : Tiling n S B) :
    B p o ↔ o < n ∧ 2 ^ o ∣ p ∧ BlockIn S p o ∧ (o + 1 < n → ¬ BlockIn S (parent p o) (o + 1)) := by
  constructor
  · intro hB
    have hp := h.aligned hB
    refine ⟨h.order hB, hp, h.inside hB, fun ho hparent => ?_⟩
    -- the buddy would have to be a block as well
    have hbuddy : 2 ^ o ∣ p ^^^ 2 ^ o := by
      rcases xor_two_pow hp with ⟨-, heq⟩ | ⟨hdvd, -⟩
      · exact heq ▸ Nat.dvd_add hp (Nat.dvd_refl _)
      · exact (pow_dvd_pow 2 (Nat.le_succ o)).trans hdvd
    refine h.merged ho hB (h.mem_of_small (h.order hB) hbuddy
      (fun f hf => hparent f ((inBlock_parent hp f).2 (.inr hf))) ?_)
    intro q k f hB' hq hf
    by_contra hlt
    have hmeet : InBlock (parent p o) (o + 1) f := (inBlock_parent hp f).2 (.inr hf)
    have hself : InBlock q k p := inBlock_of_meets (dvd_min_buddy hp) (h.aligned hB')
      (Nat.succ_le_of_lt (Nat.not_le.1 hlt)) hmeet hq
      ((inBlock_parent hp p).2 (.inl (inBlock_self p o)))
    have heq := (h.unique hB' hB hself (inBlock_self p o)).2
    omega
  · rintro ⟨ho, hp, hin, hmax⟩
    refine h.mem_of_small ho hp hin ?_
    intro q k f hB hq hf
    by_contra hlt
    have hk := h.order hB
    refine hmax (by omega) fun g hg => h.inside hB g ?_
    exact inBlock_of_meets (dvd_min_buddy hp) (h.aligned hB) (by omega)
      ((inBlock_parent hp f).2 (.inl hf)) hq hg

theorem unique_blocks (h : Tiling n S B) (h' : Tiling n S B') : B p o ↔ B' p o :=
  h.iff_maximal.trans h'.iff_maximal.symm

end Tiling

end JanuaryOs.Lib

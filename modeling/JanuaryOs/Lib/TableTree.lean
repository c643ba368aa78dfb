import Mathlib

/-!
# Trees of tables in memory, as page tables are

A table is an array of entries, known by a number. An entry may point to a table
of the next lower level; which entries do is a parameter, `child`. `Reaches`
says which tables a walk from a root can come to, and on which level. The lemmas
after it bound what becomes reachable by the writes that programs make: to
tables that are not part of the tree, to an entry of the last level, and to an
entry that then points to a new table. They need that no table is part of the
tree on two levels, as a write to such a table would have an effect on both.
-/

namespace JanuaryOs.Lib

open Function

variable {E : Type*}

/-- Tables of entries, by number and index. -/
abbrev Tables (E : Type*) := ℕ → ℕ → E

namespace Tables

/-- One entry is written. -/
def set (T : Tables E) (t i : ℕ) (e : E) : Tables E :=
  update T t (update (T t) i e)

theorem set_self (T : Tables E) (t i : ℕ) (e : E) : T.set t i e t i = e := by
  rw [set, update_self, update_self]

theorem set_of_ne {T : Tables E} {t i t' i' : ℕ} {e : E} (h : t' ≠ t ∨ i' ≠ i) :
    T.set t i e t' i' = T t' i' := by
  by_cases ht : t' = t
  · subst ht
    rw [set, update_self, update_of_ne (h.resolve_left (not_not.2 rfl))]
  · rw [set, update_of_ne ht]

variable (child : E → Option ℕ)

/-- A walk from the table `r` of level `n` comes to a table of a level. Entries
of level zero point to no tables. -/
inductive Reaches (T : Tables E) (n r : ℕ) : ℕ → ℕ → Prop
  | root : Reaches T n r n r
  | step {k t c : ℕ} (i : ℕ) : Reaches T n r (k + 1) t → child (T t i) = some c → Reaches T n r k c

/-- No table is part of the tree on two levels. -/
def Layered (T : Tables E) (n r : ℕ) : Prop :=
  ∀ {k k' t}, Reaches child T n r k t → Reaches child T n r k' t → k = k'

variable {child} {T T' : Tables E} {n r k t i c x : ℕ} {e : E}

/-- A tree whose root points nowhere is its root. -/
theorem Reaches.of_blank (hroot : ∀ i, child (T r i) = none) (h : Reaches child T n r k x) :
    k = n ∧ x = r := by
  induction h with
  | root => exact ⟨rfl, rfl⟩
  | step i _ hchild ih =>
    rw [ih.2, hroot] at hchild
    cases hchild

/-- Changes to tables outside the tree make nothing reachable. -/
theorem Reaches.of_same (hsame : ∀ k t, Reaches child T n r k t → T' t = T t)
    (h : Reaches child T' n r k x) : Reaches child T n r k x := by
  induction h with
  | root => exact .root
  | step i _ hchild ih =>
    rw [hsame _ _ ih] at hchild
    exact .step i ih hchild

/-- Neither does a write to a table of the last level. -/
theorem Reaches.of_leaf (hlayered : Layered child T n r) (ht : Reaches child T n r 0 t)
    (h : Reaches child (T.set t i e) n r k x) : Reaches child T n r k x := by
  induction h with
  | root => exact .root
  | @step k y _ j _ hchild ih =>
    -- the walk goes on from `y`, so that is not of the last level
    have hne : y ≠ t := by
      rintro rfl
      cases hlayered ih ht
    rw [set_of_ne (.inl hne)] at hchild
    exact .step j ih hchild

/-- An entry that pointed nowhere can be written without losing a table. -/
theorem Reaches.set (hold : child (T t i) = none) (h : Reaches child T n r k x) :
    Reaches child (T.set t i e) n r k x := by
  induction h with
  | root => exact .root
  | @step k y _ j _ hchild ih =>
    refine .step j ih ?_
    rw [set_of_ne]
    · exact hchild
    by_contra hsame
    obtain ⟨rfl, rfl⟩ : y = t ∧ j = i := by rwa [not_or, not_not, not_not] at hsame
    rw [hold] at hchild
    cases hchild

/-- When an entry comes to point to a blank table, that is the only new one. -/
theorem Reaches.of_hang (hlayered : Layered child T n r) (ht : Reaches child T n r (k + 1) t)
    (hblank : ∀ i, child (T c i) = none) (hnew : ∀ k, ¬ Reaches child T n r k c)
    (he : child e = some c) {j : ℕ} (h : Reaches child (T.set t i e) n r j x) :
    Reaches child T n r j x ∨ x = c ∧ j = k := by
  induction h with
  | root => exact .inl .root
  | @step j y x l _ hchild ih =>
    rcases ih with hy | ⟨rfl, -⟩
    · by_cases hwritten : y = t ∧ l = i
      · obtain ⟨rfl, rfl⟩ := hwritten
        rw [set_self, he] at hchild
        exact .inr ⟨(Option.some.inj hchild).symm, Nat.succ.inj (hlayered hy ht)⟩
      · rw [set_of_ne (by rwa [not_and_or] at hwritten)] at hchild
        exact .inl (.step l hy hchild)
    · -- nothing hangs in the new table
      have hne : y ≠ t := fun heq => hnew _ (heq ▸ ht)
      rw [set_of_ne (.inl hne), hblank] at hchild
      cases hchild

theorem Layered.of_hang (hlayered : Layered child T n r) (ht : Reaches child T n r (k + 1) t)
    (hblank : ∀ i, child (T c i) = none) (hnew : ∀ k, ¬ Reaches child T n r k c)
    (he : child e = some c) : Layered child (T.set t i e) n r := by
  intro j j' x h h'
  have hcases := fun j => Reaches.of_hang (i := i) (j := j) (x := x) hlayered ht hblank hnew he
  rcases hcases j h with h | ⟨rfl, rfl⟩
  · rcases hcases j' h' with h' | ⟨rfl, -⟩
    · exact hlayered h h'
    · exact absurd h (hnew _)
  · rcases hcases j' h' with h' | ⟨-, rfl⟩
    · exact absurd h' (hnew _)
    · rfl

end Tables

end JanuaryOs.Lib

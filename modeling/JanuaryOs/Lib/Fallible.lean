import Mathlib

/-!
# Computations on a state that answer, fail with an error, or do not return

An error keeps the state that the computation had reached, so what was done
before it stays done. Three judgements are enough to reason about such code
without unfolding it. `Keeps R m` says what every returning run of `m` does to
the state; for a reflexive and transitive `R` it follows the structure of `m`.
`Triple P m Q` says in addition that `m` returns. `Shadows` compares a
computation with one that gives up where the first would change the state.
-/

namespace JanuaryOs.Lib

/-- A computation on a state; `none` stands for one that does not return. -/
def Fallible (σ ε α : Type*) := σ → Option (Except ε α × σ)

namespace Fallible

variable {σ ε α β : Type*}

/-- Answer without touching the state. -/
def ret (a : α) : Fallible σ ε α := fun s => some (.ok a, s)

/-- Fail without touching the state. -/
def fail (e : ε) : Fallible σ ε α := fun s => some (.error e, s)

/-- One computation after the other; an error ends it. -/
def andThen (m : Fallible σ ε α) (f : α → Fallible σ ε β) : Fallible σ ε β := fun s =>
  match m s with
  | none => none
  | some (.error e, s') => some (.error e, s')
  | some (.ok a, s') => f a s'

variable {m : Fallible σ ε α} {f : α → Fallible σ ε β} {R : σ → σ → Prop}

theorem andThen_ok {s s' : σ} {b : β} (h : m.andThen f s = some (.ok b, s')) :
    ∃ a t, m s = some (.ok a, t) ∧ f a t = some (.ok b, s') := by
  unfold andThen at h
  split at h
  · cases h
  · cases h
  · exact ⟨_, _, ‹_›, h⟩

/-! ### What a computation does to the state -/

/-- Whenever the computation returns, the states before and after are related. -/
def Keeps (R : σ → σ → Prop) (m : Fallible σ ε α) : Prop :=
  ∀ s r s', m s = some (r, s') → R s s'

theorem Keeps.ret (hrefl : ∀ s, R s s) (a : α) : Keeps R (Fallible.ret a : Fallible σ ε α) := by
  rintro s r s' h
  cases h
  exact hrefl s

theorem Keeps.fail (hrefl : ∀ s, R s s) (e : ε) : Keeps R (Fallible.fail e : Fallible σ ε α) := by
  rintro s r s' h
  cases h
  exact hrefl s

theorem Keeps.andThen (htrans : ∀ s t u, R s t → R t u → R s u) (hm : Keeps R m)
    (hf : ∀ a, Keeps R (f a)) : Keeps R (m.andThen f) := by
  intro s r s' h
  unfold Fallible.andThen at h
  cases hms : m s with
  | none =>
    rw [hms] at h
    cases h
  | some x =>
    obtain ⟨e | a, t⟩ := x
    · rw [hms] at h
      cases h
      exact hm s _ _ hms
    · rw [hms] at h
      exact htrans _ _ _ (hm s _ _ hms) (hf a t r s' h)

/-! ### Computations that give up instead of changing the state -/

/-- `R` is what may happen to a state, `M` is that something did happen. -/
structure Growth (R M : σ → σ → Prop) : Prop where
  refl : ∀ s, R s s
  trans : ∀ s t u, R s t → R t u → R s u
  moved : ∀ s t u, M s t → R t u → M s u

/-- Either both computations give the same answer and leave the state alone, or
the first gives up and the second, if it returns, has changed the state. -/
structure Shadows (R M : σ → σ → Prop) (m m' : Fallible σ ε α) : Prop where
  keeps : Keeps R m'
  cases : ∀ s, (∃ r, m s = some (r, s) ∧ m' s = some (r, s)) ∨
    m s = none ∧ ∀ r s', m' s = some (r, s') → M s s'

section Shadows

variable {M : σ → σ → Prop} {m' : Fallible σ ε α} {f' : α → Fallible σ ε β}

theorem Shadows.ret (hg : Growth R M) (a : α) :
    Shadows R M (Fallible.ret a : Fallible σ ε α) (Fallible.ret a) :=
  ⟨.ret hg.refl a, fun _ => .inl ⟨_, rfl, rfl⟩⟩

theorem Shadows.fail (hg : Growth R M) (e : ε) :
    Shadows R M (Fallible.fail e : Fallible σ ε α) (Fallible.fail e) :=
  ⟨.fail hg.refl e, fun _ => .inl ⟨_, rfl, rfl⟩⟩

theorem Shadows.andThen (hg : Growth R M) (hm : Shadows R M m m')
    (hf : ∀ a, Shadows R M (f a) (f' a)) : Shadows R M (m.andThen f) (m'.andThen f') := by
  refine ⟨.andThen hg.trans hm.keeps fun a => (hf a).keeps, fun s => ?_⟩
  unfold Fallible.andThen
  rcases hm.cases s with ⟨e | a, hms, hms'⟩ | ⟨hms, hmoved⟩
  · rw [hms, hms']
    exact .inl ⟨_, rfl, rfl⟩
  · rw [hms, hms']
    exact (hf a).cases s
  · rw [hms]
    refine .inr ⟨rfl, fun r u h => ?_⟩
    cases hms' : m' s with
    | none =>
      rw [hms'] at h
      cases h
    | some x =>
      obtain ⟨e | a, t⟩ := x
      · rw [hms'] at h
        cases h
        exact hmoved _ _ hms'
      · rw [hms'] at h
        exact hg.moved _ _ _ (hmoved _ _ hms') ((hf a).keeps t r u h)

end Shadows

/-! ### Computations that return -/

/-- From a state with `P` the computation returns, with an answer and a state as
in `Q`. -/
def Triple (P : σ → Prop) (m : Fallible σ ε α) (Q : Except ε α → σ → Prop) : Prop :=
  ∀ s, P s → ∃ r s', m s = some (r, s') ∧ Q r s'

section Triple

variable {P : σ → Prop} {Q : Except ε α → σ → Prop} {Q' : Except ε β → σ → Prop}

theorem Triple.ret {a : α} (h : ∀ s, P s → Q (.ok a) s) : Triple P (Fallible.ret a) Q :=
  fun s hs => ⟨_, s, rfl, h s hs⟩

theorem Triple.fail {e : ε} (h : ∀ s, P s → Q (.error e) s) : Triple P (Fallible.fail e) Q :=
  fun s hs => ⟨_, s, rfl, h s hs⟩

theorem Triple.andThen (hm : Triple P m Q) (herror : ∀ e s, Q (.error e) s → Q' (.error e) s)
    (hf : ∀ a, Triple (Q (.ok a)) (f a) Q') : Triple P (m.andThen f) Q' := by
  intro s hs
  obtain ⟨r, t, hms, ht⟩ := hm s hs
  cases r with
  | error e => exact ⟨.error e, t, by rw [Fallible.andThen, hms], herror e t ht⟩
  | ok a =>
    obtain ⟨r, u, hfa, hu⟩ := hf a t ht
    exact ⟨r, u, by rw [Fallible.andThen, hms]; exact hfa, hu⟩

theorem Triple.weaken {P2 : σ → Prop} {Q2 : Except ε α → σ → Prop} (h : Triple P m Q)
    (hP : ∀ s, P2 s → P s) (hQ : ∀ r s, Q r s → Q2 r s) : Triple P2 m Q2 := by
  intro s hs
  obtain ⟨r, s', hm, hr⟩ := h s (hP s hs)
  exact ⟨r, s', hm, hQ r s' hr⟩

/-- What does not depend on the state may be assumed. -/
theorem Triple.assume {p : Prop} (h : p → Triple P m Q) : Triple (fun s => P s ∧ p) m Q :=
  fun s hs => h hs.2 s hs.1

end Triple

end Fallible

end JanuaryOs.Lib

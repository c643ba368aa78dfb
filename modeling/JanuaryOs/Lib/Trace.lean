import Mathlib

/-!
# Runs of labelled transition systems and of fallible deterministic machines

Two shapes recur in a kernel. A *relation* `step s a s'` describes components
whose moves interleave; `Run` is its reflexive-transitive closure, labelled by
the moves taken, and `Run.invariant` is the only induction over it. A *function*
`step s a : Option (β × σ)` describes a data structure that answers every call,
or panics (`none`); `runOps` feeds it a list of calls, and `runOps_refines` is
the forward simulation against a total specification.

Both come with a guard, a condition on the state before a move: `Guarded`
restricts a relation to the moves that meet it, `OkRun` says that every call of
a list does.
-/

namespace JanuaryOs.Lib

variable {σ τ α β : Type*}

/-! ### Labelled runs -/

/-- `Run step s as s'`: the moves `as`, in order, lead from `s` to `s'`. -/
inductive Run (step : σ → α → σ → Prop) : σ → List α → σ → Prop
  | nil (s : σ) : Run step s [] s
  | cons {s s' s'' : σ} {a : α} {as : List α} :
      step s a s' → Run step s' as s'' → Run step s (a :: as) s''

/-- The moves of `step` whose guard holds in the state they start from. -/
def Guarded (ok : σ → α → Prop) (step : σ → α → σ → Prop) (s : σ) (a : α) (s' : σ) : Prop :=
  ok s a ∧ step s a s'

/-- A total step function, as a relation. -/
def ofFun (f : σ → α → σ) (s : σ) (a : α) (s' : σ) : Prop := s' = f s a

/-- A partial step function, as a relation: `none` is a call that does not
return. -/
def ofPartial (f : σ → α → Option σ) (s : σ) (a : α) (s' : σ) : Prop := f s a = some s'

variable {step : σ → α → σ → Prop}

variable {s s' : σ} {as : List α} {ok : σ → α → Prop} {f : σ → α → Option σ}

/-- What every move preserves, every run preserves. -/
theorem Run.invariant (Inv : σ → Prop) (hstep : ∀ s a s', Inv s → step s a s' → Inv s')
    (hrun : Run step s as s') (hs : Inv s) : Inv s' := by
  induction hrun with
  | nil => exact hs
  | cons h _ ih => exact ih (hstep _ _ _ hs h)

theorem Run.mono {step' : σ → α → σ → Prop} (h : ∀ s a s', step s a s' → step' s a s')
    (hrun : Run step s as s') : Run step' s as s' := by
  induction hrun with
  | nil => exact .nil _
  | cons hs _ ih => exact .cons (h _ _ _ hs) ih

/-- Execute a list of moves, as long as each meets the guard. -/
def runGuarded (ok : σ → α → Prop) [∀ s a, Decidable (ok s a)] (f : σ → α → Option σ) :
    σ → List α → Option σ
  | s, [] => some s
  | s, a :: as => if ok s a then (f s a).bind fun s' => runGuarded ok f s' as else none

theorem Run.of_runGuarded [∀ s a, Decidable (ok s a)]
    (h : runGuarded ok f s as = some s') : Run (Guarded ok (ofPartial f)) s as s' := by
  induction as generalizing s with
  | nil =>
    cases h
    exact .nil _
  | cons a as ih =>
    rw [runGuarded] at h
    split at h
    · rename_i hok
      obtain ⟨s1, hs1, hrest⟩ := Option.bind_eq_some_iff.1 h
      exact .cons ⟨hok, hs1⟩ (ih hrest)
    · cases h

theorem Run.of_runGuarded_total [∀ s a, Decidable (ok s a)] {f : σ → α → σ}
    (h : runGuarded ok (fun s a => some (f s a)) s as = some s') :
    Run (Guarded ok (ofFun f)) s as s' :=
  (Run.of_runGuarded h).mono fun _ _ _ ⟨hok, hs⟩ => ⟨hok, (Option.some.inj hs).symm⟩

/-- The moves can be executed, and `Q` is found to hold at the end. -/
def Executes (ok : σ → α → Prop) [∀ s a, Decidable (ok s a)] (f : σ → α → Option σ) (s : σ)
    (as : List α) (Q : σ → Prop) [DecidablePred Q] : Prop :=
  (runGuarded ok f s as).any (fun s' => decide (Q s')) = true
deriving Decidable

section Exec

variable [∀ s a, Decidable (ok s a)] {P Q : σ → Prop} [DecidablePred Q]

/-- A run found by executing it: `h` says what follows from the run and from `Q`
at its end. -/
theorem Run.exists_of_exec (hexec : Executes ok f s as Q)
    (h : ∀ s', Run (Guarded ok (ofPartial f)) s as s' → Q s' → P s') :
    ∃ s', Run (Guarded ok (ofPartial f)) s as s' ∧ P s' := by
  obtain ⟨s', hs', hQ⟩ := (Option.any_eq_true _ _).1 hexec
  have hrun := Run.of_runGuarded hs'
  exact ⟨s', hrun, h s' hrun (of_decide_eq_true hQ)⟩

theorem Run.exists_of_exec_total {f : σ → α → σ}
    (hexec : Executes ok (fun s a => some (f s a)) s as Q)
    (h : ∀ s', Run (Guarded ok (ofFun f)) s as s' → Q s' → P s') :
    ∃ s', Run (Guarded ok (ofFun f)) s as s' ∧ P s' := by
  obtain ⟨s', hs', hQ⟩ := (Option.any_eq_true _ _).1 hexec
  have hrun := Run.of_runGuarded_total hs'
  exact ⟨s', hrun, h s' hrun (of_decide_eq_true hQ)⟩

/-- The same without the guard in the result. -/
theorem Run.exists_of_exec_free (ok : σ → α → Prop) [∀ s a, Decidable (ok s a)]
    (hexec : Executes ok f s as Q)
    (h : ∀ s', Run (Guarded ok (ofPartial f)) s as s' → Q s' → P s') :
    ∃ s', Run (ofPartial f) s as s' ∧ P s' := by
  obtain ⟨s', hrun, hP⟩ := Run.exists_of_exec hexec h
  exact ⟨s', hrun.mono fun _ _ _ h => h.2, hP⟩

end Exec

/-! ### Fallible deterministic machines -/

/-- Feed a list of calls to a machine, collecting its answers; `none` as soon as
a call panics. -/
def runOps (f : σ → α → Option (β × σ)) : σ → List α → Option (List β × σ)
  | s, [] => some ([], s)
  | s, a :: as =>
    match f s a with
    | none => none
    | some (b, s') =>
      match runOps f s' as with
      | none => none
      | some (bs, s'') => some (b :: bs, s'')

/-- The answers of a total specification to a list of calls. -/
def answers (g : τ → α → β × τ) : τ → List α → List β
  | _, [] => []
  | t, a :: as => (g t a).1 :: answers g (g t a).2 as

/-- Every call of the list meets the guard in the state it is made from. -/
def OkRun (ok : σ → α → Prop) (f : σ → α → Option (β × σ)) : σ → List α → Prop
  | _, [] => True
  | s, a :: as => ok s a ∧ ∀ b s', f s a = some (b, s') → OkRun ok f s' as

instance OkRun.decidable (ok : σ → α → Prop) [∀ s a, Decidable (ok s a)]
    (f : σ → α → Option (β × σ)) : ∀ (s : σ) (as : List α), Decidable (OkRun ok f s as)
  | _, [] => .isTrue trivial
  | s, a :: as =>
    match hf : f s a with
    | none => decidable_of_iff (ok s a) (by simp [OkRun, hf])
    | some (b, s') =>
      haveI := OkRun.decidable ok f s' as
      decidable_of_iff (ok s a ∧ OkRun ok f s' as) (by simp [OkRun, hf])

variable {f : σ → α → Option (β × σ)} {g : τ → α → β × τ} {R : σ → τ → Prop}

/-- A machine whose guard says when a call returns gets through a list of calls
exactly if each of them meets the guard. -/
theorem runOps_isSome_iff (h : ∀ s a, (f s a).isSome ↔ ok s a) :
    (runOps f s as).isSome ↔ OkRun ok f s as := by
  induction as generalizing s with
  | nil => exact ⟨fun _ => trivial, fun _ => rfl⟩
  | cons a as ih =>
    rw [runOps, OkRun, ← h]
    cases f s a with
    | none => simp
    | some r =>
      obtain ⟨b, s1⟩ := r
      have hrest := ih (s := s1)
      cases hrun : runOps f s1 as <;> simp_all

/-- Forward simulation: if a guarded call from related states does not panic,
answers as the specification does and keeps the states related, then so does
every list of guarded calls. -/
theorem runOps_refines
    (hstep : ∀ s t a, R s t → ok s a → ∃ s', f s a = some ((g t a).1, s') ∧ R s' (g t a).2) :
    ∀ (as : List α) (s : σ) (t : τ), R s t → OkRun ok f s as →
      ∃ s', runOps f s as = some (answers g t as, s')
  | [], s, _, _, _ => ⟨s, rfl⟩
  | a :: as, s, t, hR, hok => by
      obtain ⟨s1, hf, hR1⟩ := hstep s t a hR hok.1
      obtain ⟨s2, hrun⟩ := runOps_refines hstep as s1 _ hR1 (hok.2 _ _ hf)
      exact ⟨s2, by simp only [runOps, hf, hrun, answers]⟩

/-- The state of a total specification after a list of calls. -/
def finalState (g : τ → α → β × τ) (t : τ) (as : List α) : τ := as.foldl (fun t a => (g t a).2) t

theorem runOps_refines_total
    (hstep : ∀ s t a, R s t → ∃ s', f s a = some ((g t a).1, s') ∧ R s' (g t a).2) (as : List α)
    (s : σ) (t : τ) (hR : R s t) :
    ∃ s', runOps f s as = some (answers g t as, s') ∧ R s' (finalState g t as) := by
  induction as generalizing s t with
  | nil => exact ⟨s, rfl, hR⟩
  | cons a as ih =>
    obtain ⟨s1, hf, hR1⟩ := hstep s t a hR
    obtain ⟨s2, hrun, hR2⟩ := ih s1 _ hR1
    exact ⟨s2, by simp only [runOps, hf, hrun, answers], hR2⟩

end JanuaryOs.Lib

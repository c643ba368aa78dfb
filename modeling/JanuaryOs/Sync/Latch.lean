import JanuaryOs.Lib.Trace

/-!
# Latches (`sync/barrier.rs`)

Every atomic operation is one step, and the steps of the threads interleave in
any order. A `count_down` on an open latch takes one from zero and puts the zero
back with a second step; who looks at the latch between the two finds it closed.
-/

namespace JanuaryOs.Sync

open Lib List Function

/-- A `CountDownLatch`, and the threads that are about to put its zero back. -/
structure CountDownLatch where
  count : UInt32
  restoring : ℕ → Bool

namespace CountDownLatch

/-- A step of a thread in `count_down`. -/
inductive Op
  | fetchSub (t : ℕ)
  /-- The store, after a `fetch_sub` that has found zero. -/
  | store (t : ℕ)

def new (count : UInt32) : CountDownLatch := ⟨count, fun _ => false⟩

def step (s : CountDownLatch) : Op → Option CountDownLatch
  | .fetchSub t =>
    if s.restoring t then none
    else some ⟨s.count - 1, update s.restoring t (s.count = 0)⟩
  | .store t => if s.restoring t then some ⟨0, update s.restoring t false⟩ else none

/-- The one load of `try_wait`; `wait` repeats it until it gives true. -/
def tryWait (s : CountDownLatch) : Bool := s.count = 0

/-- The number of calls of `count_down`. -/
def calls (as : List Op) : ℕ := as.countP fun
  | .fetchSub _ => true
  | .store _ => false

variable {as : List Op} {c : UInt32} {s : CountDownLatch}

theorem step_new_fetchSub (hc : c.toNat ≠ 0) (t : ℕ) :
    ∃ c', (new c).step (.fetchSub t) = some (new c') ∧ c'.toNat + 1 = c.toNat := by
  have hzero : c ≠ 0 := by
    rintro rfl
    exact hc rfl
  have hlt := c.toNat_lt
  have hsub : (c - 1).toNat = (2 ^ 32 - 1 + c.toNat) % 2 ^ 32 := UInt32.toNat_sub c 1
  exact ⟨c - 1, by simp [step, new, hzero], by omega⟩

/-- As long as nobody counts below zero, nobody has to put a zero back. -/
theorem run_new (hrun : Run (ofPartial step) (new c) as s) (hn : calls as ≤ c.toNat) :
    ∃ c', s = new c' ∧ c'.toNat + calls as = c.toNat := by
  generalize hs : new c = s0 at hrun
  induction hrun generalizing c with
  | nil => exact ⟨c, hs.symm, rfl⟩
  | @cons _ _ _ a as hstep _ ih =>
    subst hs
    rw [ofPartial] at hstep
    cases a with
    | fetchSub t =>
      have hcalls : calls (.fetchSub t :: as) = calls as + 1 := countP_cons_of_pos rfl
      obtain ⟨c1, hc1, hsucc⟩ := step_new_fetchSub (c := c) (by omega) t
      obtain ⟨c', rfl, hc'⟩ := ih (by omega) (Option.some.inj (hc1.symm.trans hstep))
      exact ⟨c', rfl, by omega⟩
    | store t => cases hstep

/-- One thread opens the latch. -/
theorem run_open (n : ℕ) (hn : c.toNat = n) :
    Run (ofPartial step) (new c) (replicate n (.fetchSub 0)) (new 0) := by
  induction n generalizing c with
  | zero =>
    obtain rfl : c = 0 := UInt32.toNat.inj hn
    exact .nil _
  | succ n ih =>
    obtain ⟨c', hstep, hc'⟩ := step_new_fetchSub (c := c) (by omega) 0
    exact .cons hstep (ih (by omega))

/-- An open latch is found open ever after exactly if `count_down` is not called
more often than the latch was told. -/
theorem tryWait_stays_iff (c : UInt32) (n : ℕ) :
    (∀ as s bs s', Run (ofPartial step) (new c) as s → s.tryWait → Run (ofPartial step) s bs s' →
      calls (as ++ bs) ≤ n → s'.tryWait) ↔ n ≤ c.toNat := by
  constructor
  · intro h
    by_contra hlt
    have hcalls : calls (replicate c.toNat (.fetchSub 0) ++ [.fetchSub 0]) = c.toNat + 1 := by
      simp [calls, countP_replicate]
    exact absurd (h _ _ [.fetchSub 0] _ (run_open _ rfl) rfl (.cons rfl (.nil _)) (by omega))
      (by decide)
  · intro hn as s bs s' has h0 hbs hcalls
    have happend : calls (as ++ bs) = calls as + calls bs := countP_append ..
    obtain ⟨c1, rfl, hc1⟩ := run_new has (by omega)
    obtain rfl : c1 = 0 := of_decide_eq_true h0
    have hzero : (0 : UInt32).toNat = 0 := rfl
    obtain ⟨c2, rfl, hc2⟩ := run_new hbs (by omega)
    obtain rfl : c2 = 0 := UInt32.toNat.inj (by omega)
    rfl

theorem tryWait_closes_again : (new 0).tryWait ∧ ∃ s,
    Run (ofPartial step) (new 0) [.fetchSub 0] s ∧ s.count = 2 ^ 32 - 1 ∧ ¬s.tryWait :=
  ⟨rfl, _, .cons rfl (.nil _), rfl, by decide⟩

end CountDownLatch

end JanuaryOs.Sync

import Mathlib

/-!
# One-time initialisation (`sync/once.rs`)

`OnceCell::get_or_try_init` is `Once::call_once_try`, and then the value is
unwrapped. A thread that calls only the latter ends at `Pc.ok` or `Pc.err`.
-/

namespace JanuaryOs.Sync

/-- `INCOMPLETE`. -/
def incomplete : UInt8 := 0

/-- `RUNNING`. -/
def running : UInt8 := 1

/-- `COMPLETE`. -/
def complete : UInt8 := 2

/-- A `OnceCell`, and what the closures of the threads have returned. -/
structure OnceCell (T E : Type*) where
  state : UInt8
  value : Option T
  log : List (ℕ × Except E T)

/-- The next step of a thread; in the loop with or without its closure. -/
inductive Pc (E : Type*)
  | idle
  /-- `is_completed`. -/
  | testing
  /-- The `compare_exchange`. -/
  | trying (init : Bool)
  /-- The load of the inner loop. -/
  | spinning (init : Bool)
  /-- The load behind the inner loop. -/
  | checking (init : Bool)
  /-- The closure. -/
  | running
  /-- `RunningGuard::complete`. -/
  | completing
  /-- The drop of the guard. -/
  | failing (e : E)
  /-- `call_once_try` has returned. -/
  | ok
  | err (e : E)
  | panicked

namespace OnceCell

variable {T E : Type*} (c : OnceCell T E)

/-- A step of the thread `t`, whose closure returns `r`. -/
def next (t : ℕ) (r : Except E T) : Pc E → OnceCell T E × Pc E
  | .idle => (c, .testing)
  | .testing => (c, if c.state = complete then .ok else .trying true)
  | .trying init =>
    if c.state = incomplete then ({ c with state := running }, if init then .running else .panicked)
    else if c.state = complete then (c, .ok)
    else (c, if c.state = running then .spinning init else .panicked)
  | .spinning init => (c, if c.state = running then .spinning init else .checking init)
  | .checking init => (c, if c.state = complete then .ok else .trying init)
  | .running =>
    let c := { c with log := (t, r) :: c.log }
    match r with
    | .ok v => ({ c with value := some v }, .completing)
    | .error e => (c, .failing e)
  | .completing => ({ c with state := complete }, .ok)
  | .failing e => ({ c with state := incomplete }, .err e)
  | .ok => (c, if c.value.isSome then .idle else .panicked)
  | .err _ => (c, .idle)
  | .panicked => (c, .panicked)

/-- The number of closures that have succeeded. -/
def successes : ℕ := c.log.countP fun r => r.2.isOk

/-- The thread has won the `compare_exchange`. -/
def Holds : Pc E → Prop
  | .running | .completing | .failing _ => True
  | _ => False

/-- What is known in every state. -/
def Sound : Prop :=
  c.state = incomplete ∧ c.successes = 0 ∨ c.state = running ∧ c.successes ≤ 1 ∨
    c.state = complete ∧ c.successes = 1 ∧ c.value.isSome

/-- What the thread `t` knows. -/
def Knows (t : ℕ) : Pc E → Prop
  | .trying init | .spinning init | .checking init => init
  | .running => c.state = running ∧ c.successes = 0
  | .completing => c.state = running ∧ c.successes = 1 ∧ c.value.isSome
  | .failing e => c.state = running ∧ c.successes = 0 ∧ (t, .error e) ∈ c.log
  | .ok => c.state = complete
  | .err e => (t, .error e) ∈ c.log
  | .panicked => False
  | _ => True

variable {c c' : OnceCell T E} {t u : ℕ} {p q : Pc E}

theorem Knows.frame (h : c.Knows u q) (hq : ¬Holds q) (hc : c.state ≠ complete)
    (hlog : c.log ⊆ c'.log) : c'.Knows u q := by
  cases q with
  | err e => exact hlog h
  | ok => exact absurd h hc
  | running | completing | failing => exact absurd trivial hq
  | _ => exact h

/-- The state changes only in the hands of the thread that has it, or may take
it. -/
theorem next_spec {r : Except E T} (hc : c.Sound) (hp : c.Knows t p)
    (h : c.next t r p = (c', q)) :
    c'.Sound ∧ c'.Knows t q ∧ (c' = c ∧ ¬Holds q ∨
      (Holds p ∨ c.state = incomplete) ∧ c.state ≠ complete ∧ c.log ⊆ c'.log) := by
  have hne : incomplete ≠ running ∧ incomplete ≠ complete ∧ running ≠ complete := by decide
  cases p with
  | running => cases r <;> grind [next, Sound, Knows, Holds, successes, Except.toBool]
  | _ => grind [next, Sound, Knows, Holds, successes]

end OnceCell

/-- A `OnceCell` and its threads. -/
structure OnceThreads (T E : Type*) where
  cell : OnceCell T E
  pc : ℕ → Pc E

namespace OnceThreads

open OnceCell

variable {T E : Type*} {s : OnceThreads T E}

def new : OnceThreads T E := ⟨⟨incomplete, none, []⟩, fun _ => .idle⟩

/-- A thread makes a step; if it is in its closure, the closure returns. -/
def step (s : OnceThreads T E) (a : ℕ × Except E T) : OnceThreads T E :=
  let res := s.cell.next a.1 a.2 (s.pc a.1)
  ⟨res.1, Function.update s.pc a.1 res.2⟩

structure Inv (s : OnceThreads T E) : Prop where
  sound : s.cell.Sound
  knows : ∀ t, s.cell.Knows t (s.pc t)
  one : ∀ t u, Holds (s.pc t) → Holds (s.pc u) → t = u

theorem Inv.step (h : s.Inv) (a : ℕ × Except E T) : (s.step a).Inv := by
  obtain ⟨t, r⟩ := a
  unfold OnceThreads.step
  generalize hnext : s.cell.next t r (s.pc t) = res
  obtain ⟨c', q⟩ := res
  obtain ⟨hsound, hq, hrest⟩ := next_spec h.sound (h.knows t) hnext
  -- Either the state is as it was, or no other thread has it.
  have hother : ∀ u ≠ t, c'.Knows u (s.pc u) ∧ (Holds q → ¬Holds (s.pc u)) := by
    intro u hut
    rcases hrest with ⟨rfl, hnot⟩ | ⟨hmine, hc, hlog⟩
    · exact ⟨h.knows u, fun h => absurd h hnot⟩
    · have hu : ¬Holds (s.pc u) := by
        intro hu
        rcases hmine with ht | h0
        · exact hut (h.one u t hu ht)
        · have := h.knows u
          cases hpc : s.pc u <;> simp_all [Holds, Knows, incomplete, running]
      exact ⟨(h.knows u).frame hu hc hlog, fun _ => hu⟩
  refine ⟨hsound, fun u => ?_, fun u v hu hv => ?_⟩
  · rcases eq_or_ne u t with rfl | hut
    · simpa using hq
    · simpa [hut] using (hother u hut).1
  · by_cases hut : u = t <;> by_cases hvt : v = t <;> simp_all
    exact h.one u v hu hv

/-- What the callers may count on. -/
structure Safe (s : OnceThreads T E) : Prop where
  one_closure : ∀ t u, s.pc t = .running → s.pc u = .running → t = u
  one_success : s.cell.successes ≤ 1
  before_success : ∀ t, s.pc t = .running → s.cell.successes = 0
  ok_after : ∀ t, s.pc t = .ok → s.cell.successes = 1
  own_error : ∀ t e, s.pc t = .err e → (t, .error e) ∈ s.cell.log
  no_panic : ∀ t, s.pc t ≠ .panicked

theorem Inv.knows_at (h : s.Inv) {t : ℕ} {p : Pc E} (hp : s.pc t = p) : s.cell.Knows t p :=
  hp ▸ h.knows t

theorem Inv.safe (h : s.Inv) : s.Safe where
  one_closure t u ht hu := h.one t u (ht ▸ trivial) (hu ▸ trivial)
  one_success := by
    rcases h.sound with h | h | h <;> omega
  before_success t ht := (h.knows_at ht).2
  ok_after t ht := by
    have hstate : s.cell.state = complete := h.knows_at ht
    rcases h.sound with h | h | h <;> simp_all [incomplete, running, complete]
  own_error t e ht := h.knows_at ht
  no_panic t ht := h.knows_at ht

/-- This holds after all steps of all threads, in any order. -/
theorem callOnceTry_safe (as : List (ℕ × Except E T)) : (as.foldl step new).Safe := by
  refine (List.foldlRecOn (motive := Inv) as step ?_ fun s h a _ => h.step a).safe
  exact ⟨.inl ⟨rfl, rfl⟩, fun _ => trivial, fun _ _ h => h.elim⟩

end OnceThreads

end JanuaryOs.Sync

import JanuaryOs.Base

/-!
# The wait queue of `libs/wait_queue`: entries with a token, in the order of their arrival

A token is enqueued at most once. Waking takes the first sleeping entry out.
-/

namespace JanuaryOs.Libs

open List

/-- What has happened to a waiter. -/
inductive WaitState
  | sleeping
  | woken
  | interrupted
  deriving Repr, DecidableEq

/-- Whether a wake-up is for one waiter or for several. -/
inductive WaitMode
  | exclusive
  | shared
  deriving Repr, DecidableEq

structure WaitEntry where
  token : ℕ
  state : WaitState := .sleeping
  mode : WaitMode
  deriving Repr, DecidableEq

/-- The queue, the oldest entry first. -/
abbrev WaitQueue := List WaitEntry

namespace WaitQueue

variable (q : WaitQueue)

/-- The tokens that are waiting. -/
def tokens : List ℕ := q.map WaitEntry.token

def enqueueMode (token : ℕ) (mode : WaitMode) : WaitQueue :=
  if token ∈ q.tokens then q else q ++ [{ token := token, mode := mode }]

/-- `dequeue`: the first entry of a token goes. -/
def dequeue (token : ℕ) : WaitQueue := q.eraseP fun e => e.token = token

/-- `wake_one`: the first sleeping entry, and what is left. -/
def wakeOne : Option WaitEntry × WaitQueue :=
  match q.find? fun e => e.state = .sleeping with
  | none => (none, q)
  | some e => (some { e with state := .woken }, q.eraseP fun e => e.state = .sleeping)

/-- Nobody has been marked as interrupted. -/
def Sleeping : Prop := ∀ e ∈ q, e.state = .sleeping

variable {q : WaitQueue} {token t : ℕ} {mode : WaitMode}

theorem mem_tokens_enqueueMode :
    t ∈ (q.enqueueMode token mode).tokens ↔ t = token ∨ t ∈ q.tokens := by
  unfold enqueueMode
  split
  · rename_i hmem
    exact ⟨.inr, by rintro (rfl | h); exacts [hmem, h]⟩
  · simp [tokens, or_comm]

theorem mem_tokens_dequeue (h : t ∈ q.tokens) (hne : t ≠ token) : t ∈ (q.dequeue token).tokens := by
  obtain ⟨e, he, rfl⟩ := mem_map.1 h
  exact mem_map_of_mem ((mem_eraseP_of_neg (by simpa using hne)).2 he)

theorem Sleeping.enqueueMode (h : q.Sleeping) : (q.enqueueMode token mode).Sleeping := by
  unfold WaitQueue.enqueueMode
  split
  · exact h
  intro e he
  rcases mem_append.1 he with he | he
  · exact h e he
  · rw [mem_singleton.1 he]

theorem Sleeping.dequeue (h : q.Sleeping) : (q.dequeue token).Sleeping :=
  fun e he => h e (mem_of_mem_eraseP he)

theorem wakeOne_cons {e : WaitEntry} (h : e.state = .sleeping) :
    wakeOne (e :: q) = (some { e with state := .woken }, q) := by
  simp [wakeOne, h]

end WaitQueue

end JanuaryOs.Libs

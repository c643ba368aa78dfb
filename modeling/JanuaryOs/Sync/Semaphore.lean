import JanuaryOs.Lib.Counting
import JanuaryOs.Lib.Trace

/-!
# Semaphores (`sync/semaphore.rs`)

The count is a signed word, and a request for `2 ^ 31` permits or more becomes a
negative number when it is converted: it is granted at once, and it raises the
count.
-/

namespace JanuaryOs.Sync

open Lib Function

/-- What a thread asks for. -/
inductive Request
  /-- `acquire` and `try_acquire`. -/
  | acquire
  | acquireMany (permits : UInt32)

namespace Request

def permits : Request → UInt32
  | acquire => 1
  | acquireMany permits => permits

/-- The test after the load. -/
def admits (count : Int32) : Request → Bool
  | acquire => 0 < count
  | acquireMany permits => permits.toInt32 ≤ count

end Request

/-- A `Semaphore` used by `k` threads. -/
structure Semaphore (k : ℕ) where
  count : Int32
  /-- What a thread asks for and has read, between its load and its
  `compare_exchange`. -/
  loaded : Fin k → Option { p : Request × Int32 // p.1.admits p.2 }
  /-- The permits of a thread. -/
  held : Fin k → ℕ

namespace Semaphore

variable {k : ℕ}

/-- An atomic operation of a thread. -/
inductive Op (k : ℕ)
  | load (t : Fin k) (r : Request)
  /-- The `compare_exchange`; a weak one may fail without a reason. -/
  | exchange (t : Fin k) (fails : Bool)
  /-- `release`, `release_many` and the drop of a `SemaphorePermit`. -/
  | releaseMany (t : Fin k) (permits : UInt32)

def new (k : ℕ) (count : Int32) : Semaphore k := ⟨count, fun _ => none, fun _ => 0⟩

def step (s : Semaphore k) : Op k → Option (Semaphore k)
  | .load t r =>
    if (s.loaded t).isSome then none
    else if h : r.admits s.count then
      some { s with loaded := update s.loaded t (some ⟨(r, s.count), h⟩) }
    else some s
  | .exchange t fails => (s.loaded t).map fun ⟨(r, count), _⟩ =>
    let s := { s with loaded := update s.loaded t none }
    if fails ∨ s.count ≠ count then s
    else
      { s with
        count := count - r.permits.toInt32
        held := update s.held t (s.held t + r.permits.toNat) }
  | .releaseMany t permits =>
    if (s.loaded t).isSome ∨ s.held t < permits.toNat then none
    else
      some { s with
        count := s.count + permits.toInt32
        held := update s.held t (s.held t - permits.toNat) }

/-- No thread gets to its `compare_exchange` with a request for more than `most`
permits. -/
def Asks (most : UInt32) (s : Semaphore k) : Op k → Prop
  | .exchange t _ => ∀ p ∈ s.loaded t, p.1.1.permits ≤ most
  | _ => True

/-- No permit is lost or made up. -/
def Conserves (initial : Int32) (s : Semaphore k) : Prop :=
  s.count.toInt + ∑ t, s.held t = initial.toInt ∧ 0 ≤ s.count.toInt

variable {most n : UInt32} {initial c : Int32} {s s' : Semaphore k} {r : Request} {a : Op k}

theorem bmod_word {i : ℤ} (hlo : -2 ^ 31 ≤ i) (hhi : i < 2 ^ 31) : i.bmod (2 ^ 32) = i :=
  Int.bmod_eq_of_le (by omega) (by omega)

theorem toInt_toInt32 (hn : n.toNat < 2 ^ 31) : n.toInt32.toInt = n.toNat :=
  (BitVec.toInt_eq_toNat_bmod n.toBitVec).trans (bmod_word (by omega) (Nat.cast_lt.2 hn))

/-- A request that stays positive is admitted only if there are enough permits. -/
theorem permits_le (hr : r.permits.toNat < 2 ^ 31) (h : r.admits c) :
    r.permits.toNat ≤ c.toInt := by
  cases r with
  | acquire => exact Int32.lt_iff_toInt_lt.1 (of_decide_eq_true h)
  | acquireMany n =>
    have hle := Int32.le_iff_toInt_le.1 (of_decide_eq_true h)
    exact (toInt_toInt32 hr).symm.trans_le hle

/-- The thread `t` trades with the semaphore. -/
theorem Conserves.trade {t : Fin k} {m : ℕ} (h : s.Conserves initial)
    (hc : c.toInt + m = s.count.toInt + s.held t) (h0 : 0 ≤ c.toInt) :
    Conserves initial { s with count := c, held := update s.held t m } := by
  have hsum := sum_update (Finset.mem_univ t) (fun _ n => n) s.held m
  have := h.1
  refine ⟨?_, h0⟩
  simp only
  omega

theorem Conserves.step (hmost : most.toNat < 2 ^ 31) (h : s.Conserves initial)
    (hstep : Guarded (Asks most) (ofPartial step) s a s') : s'.Conserves initial := by
  obtain ⟨hasks, hstep⟩ := hstep
  have hlt := s.count.toInt_lt
  cases a with
  | load t r =>
    simp only [ofPartial, Semaphore.step] at hstep
    split_ifs at hstep
    all_goals
      cases hstep
      exact h
  | exchange t fails =>
    obtain ⟨⟨⟨r, c⟩, hadmits⟩, hloaded, rfl⟩ := Option.map_eq_some_iff.1 hstep
    simp only
    split_ifs with hfails
    · exact h
    obtain rfl : s.count = c := by tauto
    have hr : r.permits.toNat < 2 ^ 31 :=
      (UInt32.le_iff_toNat_le.1 (hasks _ hloaded)).trans_lt hmost
    have hle : r.permits.toNat ≤ s.count.toInt := permits_le hr hadmits
    have hsub : (s.count - r.permits.toInt32).toInt = s.count.toInt - r.permits.toNat := by
      rw [Int32.toInt_sub, toInt_toInt32 hr, bmod_word (by omega) (by omega)]
    exact Conserves.trade (s := { s with loaded := _ }) h (by simp only; omega) (by omega)
  | releaseMany t n =>
    simp only [ofPartial, Semaphore.step] at hstep
    split_ifs at hstep with hidle
    cases hstep
    have hle := Finset.single_le_sum_of_canonicallyOrdered (f := s.held) (Finset.mem_univ t)
    have := initial.toInt_lt
    have := h.1
    have := h.2
    have hadd : (s.count + n.toInt32).toInt = s.count.toInt + n.toNat := by
      rw [Int32.toInt_add, toInt_toInt32 (by omega), bmod_word (by omega) (by omega)]
    exact h.trade (by omega) (by omega)

/-- The permits are conserved exactly as long as no request is for `2 ^ 31`
permits or more. -/
theorem conserves_iff (most : UInt32) :
    (∀ (k : ℕ) (initial : Int32) (as : List (Op k)) (s : Semaphore k), 0 ≤ initial.toInt →
      Run (Guarded (Asks most) (ofPartial step)) (new k initial) as s → s.Conserves initial) ↔
      most.toNat < 2 ^ 31 := by
  constructor
  · intro h
    by_contra hlarge
    have hneg : most.toInt32.toInt ≤ 0 := by
      have hlt := most.toNat_lt
      have htoInt : most.toInt32.toInt =
          if 2 * most.toNat < 2 ^ 32 then (most.toNat : ℤ) else most.toNat - 2 ^ 32 :=
        BitVec.toInt_eq_toNat_cond most.toBitVec
      rw [htoInt, if_neg (by omega)]
      omega
    have hadmits : (Request.acquireMany most).admits 0 = true :=
      decide_eq_true (Int32.le_iff_toInt_le.2 hneg)
    have hrun : Run (Guarded (Asks most) (ofPartial step)) (new 1 0)
        [.load 0 (.acquireMany most), .exchange 0 false] _ :=
      .cons ⟨trivial, dif_pos hadmits⟩ (.cons ⟨by simp [Asks, Request.permits], rfl⟩ (.nil _))
    obtain ⟨hsum, hpos⟩ := h _ _ _ _ le_rfl hrun
    simp [Request.permits] at hsum hpos
    omega
  · intro hmost k initial as s h0 hrun
    exact Run.invariant (Conserves initial) (fun _ _ _ h hstep => h.step hmost hstep) hrun
      ⟨by simp [new], h0⟩

/-- A request for `2 ^ 32 - 1` permits, of which there are none, is granted and
makes one. -/
theorem acquireMany_makes_permit : ∃ s, Run (ofPartial step) (new 1 0)
    [.load 0 (.acquireMany (2 ^ 32 - 1)), .exchange 0 false] s ∧ s.count = 1 :=
  ⟨_, .cons rfl (.cons rfl (.nil _)), by decide⟩

end Semaphore

end JanuaryOs.Sync

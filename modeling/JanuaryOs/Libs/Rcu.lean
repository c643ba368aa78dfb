import JanuaryOs.Base
import JanuaryOs.Lib.OrdMap
import JanuaryOs.Lib.Trace

/-!
# Read-copy-update (`libs/rcu/rcu_impl.rs`): many threads on one `Rcu` cell

Every atomic operation is one step, and the steps of the threads interleave in
any order. A thread that updates, synchronizes or calls back is at a place of
its program (`Pc`). Readers have no state beyond their guards: a guard is
numbered when its reader is counted and gets its pointer with the next step.
Boxes are numbered as they are allocated, so that a box that was freed is not
confused with a later one at the same address. The time-outs of
`synchronize_rcu` are left out.

What `update_async` replaces is tagged with the grace period it reads, and is
freed by whoever finds a later grace period afterwards. But the grace period is
raised by a thread *before* it waits for the readers, and another thread that
has waited already may see the new value. So the boxes are safe only if no
thread raises the grace period while another one is between the end of its
waiting and its look at the grace period.
-/

namespace JanuaryOs.Libs

open Lib OrdMap
open List hiding length_insert

/-! ### Threads -/

abbrev BoxId := ℕ

abbrev GuardId := ℕ

abbrev ThreadId := ℕ

namespace Rcu

/-- What a thread does after `synchronize_rcu`. -/
inductive After
  /-- Return: `synchronize_rcu` itself. -/
  | done
  /-- Free the box that was replaced: `update`. -/
  | free (old : BoxId)
  /-- Run the callback: `call_rcu`. The guards below `stamp` are older than the
  call. -/
  | call (stamp : GuardId)
  /-- Look at the pending list once more: `rcu_barrier`. -/
  | again
  deriving Repr, DecidableEq

/-- The next step of a thread. -/
inductive Pc
  | idle
  /-- Take the writer lock; `update_async` gives up if it is taken. -/
  | locking (async : Bool)
  | swapping (async : Bool)
  /-- `update_async`: read the grace period. -/
  | tagging (old : BoxId)
  /-- `update_async`: take the lock of the pending list. -/
  | queueing (old : BoxId) (gp : ℕ)
  /-- `update_async`: push and let go of the list. -/
  | pushing (old : BoxId) (gp : ℕ)
  /-- Let go of the writer lock. -/
  | unlocking
  /-- `synchronize_rcu`: raise the grace period. -/
  | announcing (k : After)
  /-- `synchronize_rcu`: the loop that waits for the readers. -/
  | waiting (k : After)
  /-- `try_reclaim_pending`: take the lock of the pending list. -/
  | reclaiming (k : After)
  /-- `try_reclaim_pending`: read the grace period. -/
  | loading (k : After)
  /-- `try_reclaim_pending`: free what is older and let go of the list. -/
  | retaining (k : After) (gp : ℕ)
  /-- `update`: free the box that was replaced. -/
  | freeing (old : BoxId)
  /-- `call_rcu`: run the callback. -/
  | calling (stamp : GuardId)
  deriving Repr, DecidableEq

/-- Where a thread goes on after `try_reclaim_pending`. -/
def After.resume : After → Pc
  | .done => .idle
  | .free old => .freeing old
  | .call stamp => .calling stamp
  | .again => .reclaiming .done

/-- The thread has found no reader and is going to read the grace period. -/
def Pc.settling : Pc → Bool
  | .reclaiming _ | .loading _ | .retaining .again _ => true
  | _ => false

/-- The thread has the lock of the pending list. -/
def Pc.holdsPending : Pc → Bool
  | .pushing _ _ | .loading _ | .retaining _ _ => true
  | _ => false

/-- `PendingReclaim`. -/
structure PendingReclaim where
  ptr : BoxId
  gracePeriod : ℕ
  deriving Repr, DecidableEq

/-- The test of `try_reclaim_pending`. -/
def PendingReclaim.expired (gp : ℕ) (item : PendingReclaim) : Bool := item.gracePeriod < gp

end Rcu

open Rcu

/-- The cell and the threads that use it. -/
structure Rcu where
  current : BoxId
  writerLock : Option ThreadId
  pendingLock : Option ThreadId
  pending : List PendingReclaim
  gracePeriod : ℕ
  activeReaders : ℕ
  /-- The guards that live, with the pointer of each once it is loaded. -/
  guards : OrdMap GuardId (Option BoxId)
  nextGuard : GuardId
  nextBox : BoxId
  pcs : OrdMap ThreadId Pc
  /-- The boxes that were freed. -/
  freed : List BoxId
  /-- The callbacks that were run, each with the guards older than its call. -/
  ran : List GuardId

namespace Rcu

/-- `Rcu::new`: a cell with box 0. -/
def new : Rcu where
  current := 0
  writerLock := none
  pendingLock := none
  pending := []
  gracePeriod := 0
  activeReaders := 0
  guards := .empty
  nextGuard := 0
  nextBox := 1
  pcs := .empty
  freed := []
  ran := []

variable (s : Rcu)

def pc (t : ThreadId) : Pc := (s.pcs.get? t).getD .idle

def goto (t : ThreadId) (pc : Pc) : Rcu := { s with pcs := s.pcs.insert t pc }

/-! ### Steps -/

/-- Publish a new box. -/
def swap : Rcu := { s with current := s.nextBox, nextBox := s.nextBox + 1 }

/-- Take the lock of the pending list. -/
def takePending (t : ThreadId) : Rcu := { s with pendingLock := some t }

/-- Push an item and let go of the pending list. -/
def push (item : PendingReclaim) : Rcu :=
  { s with pending := s.pending ++ [item], pendingLock := none }

def raise : Rcu := { s with gracePeriod := u64Add s.gracePeriod 1 }

/-- Free the items with an earlier tag and let go of the pending list. -/
def retain (gp : ℕ) : Rcu :=
  { s with
    freed := s.freed ++ (s.pending.filter (PendingReclaim.expired gp)).map PendingReclaim.ptr
    pending := s.pending.filter (!PendingReclaim.expired gp ·)
    pendingLock := none }

def free (p : BoxId) : Rcu := { s with freed := s.freed ++ [p] }

def runCallback (stamp : GuardId) : Rcu := { s with ran := s.ran ++ [stamp] }

/-- The calls that a thread makes. `try_update` and `update_with` do to the cell
what `update` does. -/
inductive Call
  | update
  | updateAsync
  | synchronizeRcu
  | callRcu
  | rcuBarrier
  deriving Repr, DecidableEq

/-- The first step of a call. -/
def Call.start : Call → Pc
  | .update => .locking false
  | .updateAsync => .locking true
  | .synchronizeRcu => .announcing .done
  | .callRcu => .announcing (.call s.nextGuard)
  | .rcuBarrier => .announcing .again

/-- The next step of a thread that is in a call; `none` if it has to wait for a
lock. -/
def next (t : ThreadId) : Option Rcu :=
  match s.pc t with
  | .idle => none
  | .locking async =>
    if s.writerLock = none then some ({ s with writerLock := some t }.goto t (.swapping async))
    else if async then some (s.goto t .idle)
    else none
  | .swapping async =>
    some (s.swap.goto t (if async then .tagging s.current else .announcing (.free s.current)))
  | .tagging old => some (s.goto t (.queueing old s.gracePeriod))
  | .queueing old gp =>
    if s.pendingLock = none then some ((s.takePending t).goto t (.pushing old gp)) else none
  | .pushing old gp => some ((s.push ⟨old, gp⟩).goto t .unlocking)
  | .unlocking => some ({ s with writerLock := none }.goto t .idle)
  | .announcing k => some (s.raise.goto t (.waiting k))
  | .waiting k => if s.activeReaders = 0 then some (s.goto t (.reclaiming k)) else some s
  | .reclaiming k =>
    if s.pendingLock = none then some ((s.takePending t).goto t (.loading k)) else none
  | .loading k => some (s.goto t (.retaining k s.gracePeriod))
  | .retaining k gp => some ((s.retain gp).goto t k.resume)
  | .freeing old => some ((s.free old).goto t .unlocking)
  | .calling stamp => some ((s.runCallback stamp).goto t .idle)

/-- A step of a reader or of another thread. -/
inductive Op
  /-- `read`: count the reader. -/
  | enter
  /-- `read`: load the pointer. -/
  | load (g : GuardId)
  | drop (g : GuardId)
  /-- A thread makes a call. -/
  | start (t : ThreadId) (call : Call)
  /-- A thread makes its next step. -/
  | run (t : ThreadId)

def step : Op → Option Rcu
  | .enter =>
    some { s with
      activeReaders := u64Add s.activeReaders 1
      guards := s.guards.insert s.nextGuard none
      nextGuard := s.nextGuard + 1 }
  | .load g =>
    match s.guards.get? g with
    | some none => some { s with guards := s.guards.insert g (some s.current) }
    | _ => none
  | .drop g =>
    match s.guards.get? g with
    | some (some _) =>
      some { s with activeReaders := u64Sub s.activeReaders 1, guards := s.guards.erase g }
    | _ => none
  | .start t call => if s.pc t = .idle then some (s.goto t (call.start s)) else none
  | .run t => s.next t

/-- The grace period is raised only while no other thread is between its waiting
and its look at the grace period, and fewer guards live than the count can hold. -/
def NoOverlap : Op → Prop
  | .enter => s.guards.entries.length + 1 < 2 ^ 64
  | .run t => (∃ k, s.pc t = .announcing k) → ∀ t', (s.pc t').settling = false
  | _ => True

/-- No guard that lives has a pointer that was freed, and no guard that is older
than a call to `call_rcu` lives when its callback has been run. -/
def Safe : Prop :=
  (∀ p ∈ s.freed, ∀ g, s.guards.get? g ≠ some (some p)) ∧
    ∀ stamp ∈ s.ran, ∀ g ptr, s.guards.get? g = some ptr → stamp ≤ g

/-! ### What stays true -/

/-- The box is not the current one any more. -/
def Retired (p : BoxId) : Prop := p ≠ s.current ∧ p < s.nextBox

/-- Nobody has the box, and nobody can get it. -/
def Clear (p : BoxId) : Prop :=
  s.Retired p ∧ ∀ g, s.guards.get? g ≠ some (some p)

/-- The guards below a number are all dropped. -/
def Passed (n : GuardId) : Prop :=
  n ≤ s.nextGuard ∧ ∀ g ptr, s.guards.get? g = some ptr → n ≤ g

/-- What a step never takes back. -/
structure Later (s s' : Rcu) : Prop where
  retired : ∀ p, s.Retired p → s'.Retired p
  clear : ∀ p, s.Clear p → s'.Clear p
  passed : ∀ n, s.Passed n → s'.Passed n
  stamps : s.nextGuard ≤ s'.nextGuard

variable {g : GuardId}

section Later

variable {s s' : Rcu}

/-- Steps that touch neither the pointer nor the guards. -/
theorem later_of_eq (hcurrent : s'.current = s.current) (hbox : s'.nextBox = s.nextBox)
    (hguards : s'.guards = s.guards) (hnext : s'.nextGuard = s.nextGuard) : Later s s' := by
  refine ⟨fun p h => ?_, fun p h => ?_, fun n h => ?_, hnext.ge⟩
  · rwa [Retired, hcurrent, hbox]
  · rwa [Clear, Retired, hcurrent, hbox, hguards]
  · rwa [Passed, hguards, hnext]

/-- A new pointer: the box is new, and no guard gets another pointer by it. -/
theorem later_swap (hcurrent : s'.current = s.nextBox) (hbox : s'.nextBox = s.nextBox + 1)
    (hguards : s'.guards = s.guards) (hnext : s'.nextGuard = s.nextGuard) : Later s s' := by
  have hretired : ∀ p, s.Retired p → s'.Retired p := by
    rintro p ⟨-, hlt⟩
    rw [Retired, hcurrent, hbox]
    exact ⟨hlt.ne, Nat.lt_succ_of_lt hlt⟩
  refine ⟨hretired, fun p h => ⟨hretired p h.1, ?_⟩, fun n h => ?_, hnext.ge⟩
  · rw [hguards]
    exact h.2
  · rwa [Passed, hguards, hnext]

theorem later_enter : Later s { s with
    activeReaders := u64Add s.activeReaders 1
    guards := s.guards.insert s.nextGuard none
    nextGuard := s.nextGuard + 1 } := by
  refine ⟨fun p h => h, fun p h => ⟨h.1, fun g hg => ?_⟩, fun n h => ⟨?_, fun g ptr hg => ?_⟩,
    Nat.le_succ _⟩
  · simp only [get?_insert] at hg
    split at hg
    · cases hg
    · exact h.2 g hg
  · exact Nat.le_succ_of_le h.1
  · simp only [get?_insert] at hg
    split at hg
    · rename_i heq
      rw [heq]
      exact h.1
    · exact h.2 g ptr hg

/-- A guard gets the current pointer, which is none of those that are retired. -/
theorem later_load (hg : s.guards.get? g = some none) :
    Later s { s with guards := s.guards.insert g (some s.current) } := by
  refine ⟨fun p h => h, fun p h => ⟨h.1, fun g' hg' => ?_⟩, fun n h => ⟨h.1, fun g' ptr hg' => ?_⟩,
    le_rfl⟩
  · simp only [get?_insert] at hg'
    split at hg'
    · exact h.1.1 (Option.some.inj (Option.some.inj hg')).symm
    · exact h.2 g' hg'
  · simp only [get?_insert] at hg'
    split at hg'
    · rename_i heq
      rw [heq]
      exact h.2 g none hg
    · exact h.2 g' ptr hg'

theorem later_drop (g : GuardId) : Later s { s with
    activeReaders := u64Sub s.activeReaders 1, guards := s.guards.erase g } := by
  have hsub : ∀ g' ptr, (s.guards.erase g).get? g' = some ptr → s.guards.get? g' = some ptr := by
    intro g' ptr hg'
    rw [get?_erase] at hg'
    split at hg'
    · cases hg'
    · exact hg'
  refine ⟨fun p h => ⟨h.1, h.2⟩, fun p h => ⟨⟨h.1.1, h.1.2⟩, fun g' hg' => ?_⟩,
    fun n h => ⟨h.1, fun g' ptr hg' => ?_⟩, Nat.le_refl s.nextGuard⟩
  · exact h.2 g' (hsub g' _ hg')
  · exact h.2 g' ptr (hsub g' ptr hg')

end Later

/-! ### The invariant -/

/-- What a thread brings to its wait for the readers. -/
def After.Before : After → Prop
  | .done | .again => True
  | .free old => s.Retired old
  | .call stamp => stamp ≤ s.nextGuard

/-- What it knows once it has seen no reader. -/
def After.Settled : After → Prop
  | .done | .again => True
  | .free old => s.Clear old
  | .call stamp => s.Passed stamp

/-- What a thread knows at each place. -/
def Pc.Ok : Pc → Prop
  | .idle | .locking _ | .swapping _ | .unlocking => True
  | .tagging old | .queueing old _ | .pushing old _ => s.Retired old
  | .announcing k | .waiting k => k.Before s
  | .reclaiming k | .loading k => k.Settled s
  | .retaining k gp =>
    k.Settled s ∧ ∀ item ∈ s.pending, item.gracePeriod < gp → s.Clear item.ptr
  | .freeing old => s.Clear old
  | .calling stamp => s.Passed stamp

/-- An item on the pending list or on its way there. -/
def Tagged (item : PendingReclaim) : Prop :=
  item ∈ s.pending ∨ ∃ t, s.pc t = .queueing item.ptr item.gracePeriod ∨
    s.pc t = .pushing item.ptr item.gracePeriod

structure Inv (s : Rcu) : Prop where
  readers : s.activeReaders = s.guards.entries.length
  bound : s.guards.entries.length < 2 ^ 64
  guards : ∀ g ptr, s.guards.get? g = some ptr → g < s.nextGuard
  box : s.current < s.nextBox
  pcs : ∀ t, (s.pc t).Ok s
  lock : ∀ t, (s.pc t).holdsPending = true → s.pendingLock = some t
  pending : ∀ item ∈ s.pending, s.Retired item.ptr
  /-- While a thread is about to read the grace period, an item with another tag
  is out of reach. -/
  settled : ∀ t, (s.pc t).settling = true → ∀ item, s.Tagged item →
    item.gracePeriod ≠ s.gracePeriod → s.Clear item.ptr
  freed : ∀ p ∈ s.freed, s.Clear p
  ran : ∀ stamp ∈ s.ran, s.Passed stamp

theorem inv_new : Inv new where
  readers := rfl
  bound := by decide
  guards _ _ h := nomatch h
  box := Nat.zero_lt_one
  pcs _ := trivial
  lock _ h := nomatch h
  pending _ h := nomatch h
  settled _ h := nomatch h
  freed _ h := nomatch h
  ran _ h := nomatch h

variable {s : Rcu}

/-- What a thread knows stays true; the pending list must not get longer under a
thread that has its lock. -/
theorem Pc.Ok.later {s' : Rcu} {p : Pc} (h : p.Ok s) (hlater : Later s s')
    (hpending : p.holdsPending = true → ∀ item ∈ s'.pending, item ∈ s.pending) : p.Ok s' := by
  have hbefore : ∀ {k : After}, k.Before s → k.Before s' := by
    intro k hk
    cases k with
    | done | again => trivial
    | free old => exact hlater.retired old hk
    | call stamp => exact le_trans hk hlater.stamps
  have hsettled : ∀ {k : After}, k.Settled s → k.Settled s' := by
    intro k hk
    cases k with
    | done | again => trivial
    | free old => exact hlater.clear old hk
    | call stamp => exact hlater.passed stamp hk
  cases p with
  | idle | locking | swapping | unlocking => trivial
  | tagging old | queueing old | pushing old => exact hlater.retired old h
  | announcing k | waiting k => exact hbefore h
  | reclaiming k | loading k => exact hsettled h
  | retaining k gp =>
    exact ⟨hsettled h.1, fun item hitem hlt =>
      hlater.clear _ (h.2 item (hpending rfl item hitem) hlt)⟩
  | freeing old => exact hlater.clear old h
  | calling stamp => exact hlater.passed stamp h

variable {k : After}

/-- A thread that has seen no reader knows what it wanted to know. -/
theorem After.Before.settled (h : k.Before s) (hnone : ∀ g, s.guards.get? g = none) :
    k.Settled s := by
  have hno : ∀ g ptr, s.guards.get? g ≠ some ptr := by
    intro g ptr hg
    rw [hnone g] at hg
    cases hg
  cases k with
  | done | again => trivial
  | free old => exact ⟨h, fun g => hno g _⟩
  | call stamp => exact ⟨h, fun g ptr hg => absurd hg (hno g ptr)⟩

theorem After.Settled.resume (h : k.Settled s) : k.resume.Ok s := by
  cases k with
  | done | again => trivial
  | free old
  | call stamp => exact h

theorem pc_goto {s1 : Rcu} (h : s1.pcs = s.pcs) (t : ThreadId) (p : Pc) (t' : ThreadId) :
    (s1.goto t p).pc t' = if t' = t then p else s.pc t' := by
  unfold goto pc
  simp only [get?_insert, h]
  split <;> rfl

/-! ### Steps of readers -/

/-- Steps of readers leave the threads, the lists and the grace period alone. -/
theorem Inv.reader {s' : Rcu} (h : Inv s) (hlater : Later s s') (hpcs : s'.pcs = s.pcs)
    (hlists : s'.pending = s.pending ∧ s'.freed = s.freed ∧ s'.ran = s.ran)
    (hlock : s'.pendingLock = s.pendingLock) (hgp : s'.gracePeriod = s.gracePeriod)
    (hbox : s'.current < s'.nextBox) (hreaders : s'.activeReaders = s'.guards.entries.length)
    (hbound : s'.guards.entries.length < 2 ^ 64)
    (hguards : ∀ g ptr, s'.guards.get? g = some ptr → g < s'.nextGuard) : Inv s' := by
  have hpc : ∀ t, s'.pc t = s.pc t := fun t => by rw [pc, pc, hpcs]
  obtain ⟨hpending, hfreed, hran⟩ := hlists
  refine ⟨hreaders, hbound, hguards, hbox, fun t => ?_, fun t ht => ?_, fun item hitem => ?_,
    fun t ht item hitem hne => ?_, fun p hp => ?_, fun stamp hstamp => ?_⟩
  · rw [hpc]
    exact (h.pcs t).later hlater fun _ item hitem => hpending ▸ hitem
  · rw [hpc] at ht
    rw [hlock]
    exact h.lock t ht
  · exact hlater.retired _ (h.pending item (hpending ▸ hitem))
  · rw [hpc] at ht
    simp only [Tagged, hpc, hpending] at hitem
    exact hlater.clear _ (h.settled t ht item hitem (hgp ▸ hne))
  · exact hlater.clear p (h.freed p (hfreed ▸ hp))
  · exact hlater.passed stamp (h.ran stamp (hran ▸ hstamp))

theorem Inv.enter (h : Inv s) (hroom : s.guards.entries.length + 1 < 2 ^ 64) :
    Inv { s with
      activeReaders := u64Add s.activeReaders 1
      guards := s.guards.insert s.nextGuard none
      nextGuard := s.nextGuard + 1 } := by
  have hnew : s.guards.get? s.nextGuard = none := by
    cases hg : s.guards.get? s.nextGuard with
    | none => rfl
    | some ptr => exact absurd (h.guards _ ptr hg) (lt_irrefl _)
  have hlen : (s.guards.insert s.nextGuard none).entries.length = s.guards.entries.length + 1 := by
    rw [length_insert, hnew]
    rfl
  refine h.reader later_enter rfl ⟨rfl, rfl, rfl⟩ rfl rfl h.box ?_ ?_ fun g ptr hg => ?_
  · simp only [hlen, u64Add, h.readers]
    exact Nat.mod_eq_of_lt hroom
  · rw [hlen]
    exact hroom
  · simp only [get?_insert] at hg
    split at hg
    · rename_i heq
      rw [heq]
      exact Nat.lt_succ_self _
    · exact Nat.lt_succ_of_lt (h.guards g ptr hg)

theorem Inv.load (h : Inv s) (hg : s.guards.get? g = some none) :
    Inv { s with guards := s.guards.insert g (some s.current) } := by
  have hlen : (s.guards.insert g (some s.current)).entries.length = s.guards.entries.length := by
    rw [length_insert, hg]
    rfl
  refine h.reader (later_load hg) rfl ⟨rfl, rfl, rfl⟩ rfl rfl h.box ?_ ?_ fun g' ptr hg' => ?_
  · simp only [hlen]
    exact h.readers
  · rw [hlen]
    exact h.bound
  · simp only [get?_insert] at hg'
    split at hg'
    · rename_i heq
      rw [heq]
      exact h.guards g none hg
    · exact h.guards g' ptr hg'

theorem Inv.drop (h : Inv s) {ptr : Option BoxId} (hg : s.guards.get? g = some ptr) :
    Inv { s with activeReaders := u64Sub s.activeReaders 1, guards := s.guards.erase g } := by
  have hlen : (s.guards.erase g).entries.length + 1 = s.guards.entries.length := by
    have hpos := length_pos_of_mem (mem_entries_iff.2 hg)
    rw [length_erase hg]
    omega
  have hbound := h.bound
  refine h.reader (later_drop g) rfl ⟨rfl, rfl, rfl⟩ rfl rfl h.box ?_ ?_ fun g' ptr' hg' => ?_
  · simp only [u64Sub, h.readers]
    omega
  · simp only
    omega
  · rw [get?_erase] at hg'
    split at hg'
    · cases hg'
    · exact h.guards g' ptr' hg'

/-! ### Steps of the other threads -/

section Threads

variable {s' : Rcu} {t : ThreadId} {p : Pc} {old : BoxId}

theorem Inv.no_guard (h : Inv s) (hzero : s.activeReaders = 0) (g : GuardId) :
    s.guards.get? g = none := by
  rw [h.readers] at hzero
  rw [OrdMap.get?, eq_nil_of_length_eq_zero hzero]
  rfl

theorem Inv.retired_of_tagged (h : Inv s) {item : PendingReclaim} (hitem : s.Tagged item) :
    s.Retired item.ptr := by
  rcases hitem with hitem | ⟨t, ht | ht⟩
  · exact h.pending item hitem
  · have hok := h.pcs t
    rw [ht] at hok
    exact hok
  · have hok := h.pcs t
    rw [ht] at hok
    exact hok

theorem Inv.lock_unique (h : Inv s) {t' : ThreadId} (ht : (s.pc t).holdsPending = true)
    (ht' : (s.pc t').holdsPending = true) : t' = t := by
  have heq := (h.lock t' ht').symm.trans (h.lock t ht)
  exact Option.some.inj heq

/-- A step of a thread: it moves to `p`, the guards stay, and other threads keep
what they know. -/
structure Moves (s : Rcu) (t : ThreadId) (p : Pc) (s' : Rcu) : Prop where
  later : Later s s'
  guards : s'.guards = s.guards
  readers : s'.activeReaders = s.activeReaders
  nextGuard : s'.nextGuard = s.nextGuard
  box : s'.current < s'.nextBox
  pc : ∀ t', s'.pc t' = if t' = t then p else s.pc t'

/-- A step that leaves the pointer of the cell alone. -/
theorem Inv.moves (h : Inv s) {s1 : Rcu} (hs1 : ∃ writer lock pending gp freed ran,
      s1 = { s with
        writerLock := writer, pendingLock := lock, pending := pending, gracePeriod := gp
        freed := freed, ran := ran }) : Moves s t p (s1.goto t p) := by
  obtain ⟨_, _, _, _, _, _, rfl⟩ := hs1
  exact ⟨later_of_eq rfl rfl rfl rfl, rfl, rfl, rfl, h.box, pc_goto rfl t p⟩

section Move

variable (h : Inv s) (hm : Moves s t p s')

include h hm

theorem Inv.move (hok : p.Ok s')
    (hpending : ∀ t', t' ≠ t → (s.pc t').holdsPending = true →
      ∀ item ∈ s'.pending, item ∈ s.pending)
    (hlock : ∀ t', (s'.pc t').holdsPending = true → s'.pendingLock = some t')
    (hretired : ∀ item ∈ s'.pending, s.Retired item.ptr)
    (hsettled : ∀ t', (s'.pc t').settling = true → ∀ item, s'.Tagged item →
      item.gracePeriod ≠ s'.gracePeriod → s'.Clear item.ptr)
    (hfreed : ∀ q ∈ s'.freed, q ∈ s.freed ∨ s.Clear q)
    (hran : ∀ n ∈ s'.ran, n ∈ s.ran ∨ s.Passed n) : Inv s' := by
  refine ⟨?_, ?_, fun g ptr hptr => ?_, hm.box, fun t' => ?_, hlock,
    fun item hitem => hm.later.retired _ (hretired item hitem), hsettled,
    fun q hq => hm.later.clear q ((hfreed q hq).elim (h.freed q) id),
    fun n hn => hm.later.passed n ((hran n hn).elim (h.ran n) id)⟩
  · rw [hm.guards, hm.readers]
    exact h.readers
  · rw [hm.guards]
    exact h.bound
  · rw [hm.guards] at hptr
    rw [hm.nextGuard]
    exact h.guards g ptr hptr
  · rw [hm.pc]
    split
    · exact hok
    · rename_i hne
      exact (h.pcs t').later hm.later (hpending t' hne)

theorem Inv.lock_keep (heq : s'.pendingLock = s.pendingLock)
    (hp : p.holdsPending = true → (s.pc t).holdsPending = true) (t' : ThreadId)
    (ht' : (s'.pc t').holdsPending = true) : s'.pendingLock = some t' := by
  rw [hm.pc] at ht'
  rw [heq]
  split at ht'
  · rename_i hself
    rw [hself]
    exact h.lock t (hp ht')
  · exact h.lock t' ht'

theorem Inv.lock_take (hfree : s.pendingLock = none) (htaken : s'.pendingLock = some t)
    (t' : ThreadId) (ht' : (s'.pc t').holdsPending = true) : s'.pendingLock = some t' := by
  rw [hm.pc] at ht'
  split at ht'
  · rename_i hself
    rw [hself, htaken]
  · have := h.lock t' ht'
    rw [hfree] at this
    cases this

theorem Inv.lock_release (hold : (s.pc t).holdsPending = true) (hp : p.holdsPending = false)
    (t' : ThreadId) (ht' : (s'.pc t').holdsPending = true) : s'.pendingLock = some t' := by
  rw [hm.pc] at ht'
  split at ht'
  · rw [hp] at ht'
    cases ht'
  · rename_i hne
    exact absurd (h.lock_unique hold ht') hne

/-- Items with another tag stay out of reach, if the step brings no new ones. -/
theorem Inv.settled_keep (hgp : s'.gracePeriod = s.gracePeriod)
    (hp : p.settling = true → (s.pc t).settling = true)
    (htagged : ∀ item, s'.Tagged item → s.Tagged item ∨ item.gracePeriod = s.gracePeriod)
    (t' : ThreadId) (ht' : (s'.pc t').settling = true) (item : PendingReclaim)
    (hitem : s'.Tagged item) (hne : item.gracePeriod ≠ s'.gracePeriod) : s'.Clear item.ptr := by
  have hsettling : ∃ t1, (s.pc t1).settling = true := by
    rw [hm.pc] at ht'
    split at ht'
    · exact ⟨t, hp ht'⟩
    · exact ⟨t', ht'⟩
  obtain ⟨t1, ht1⟩ := hsettling
  rw [hgp] at hne
  rcases htagged item hitem with hold | hnew
  · exact hm.later.clear _ (h.settled t1 ht1 item hold hne)
  · exact absurd hnew hne

/-- Steps that leave the pending list, its lock and the grace period alone. -/
theorem Inv.plain (hok : p.Ok s')
    (hlists : s'.pending = s.pending ∧ s'.pendingLock = s.pendingLock ∧
      s'.gracePeriod = s.gracePeriod)
    (hholds : p.holdsPending = true → (s.pc t).holdsPending = true)
    (hsettling : p.settling = true → (s.pc t).settling = true)
    (htagged : ∀ item, s'.Tagged item → s.Tagged item ∨ item.gracePeriod = s.gracePeriod)
    (hfreed : ∀ q ∈ s'.freed, q ∈ s.freed ∨ s.Clear q)
    (hran : ∀ n ∈ s'.ran, n ∈ s.ran ∨ s.Passed n) : Inv s' := by
  obtain ⟨hpending, hlock, hgp⟩ := hlists
  exact h.move hm hok (fun _ _ _ item hitem => hpending ▸ hitem) (h.lock_keep hm hlock hholds)
    (fun item hitem => h.pending item (hpending ▸ hitem))
    (h.settled_keep hm hgp hsettling htagged) hfreed hran

end Move

/-- The tags after a step are those before it and those the step brings. -/
theorem Moves.tagged {P : PendingReclaim → Prop} (hm : Moves s t p s')
    (hold : ∀ item, s.Tagged item → P item) (hpending : ∀ item ∈ s'.pending, P item)
    (hp : ∀ old gp, p = .queueing old gp ∨ p = .pushing old gp → P ⟨old, gp⟩)
    (item : PendingReclaim) (hitem : s'.Tagged item) : P item := by
  rcases hitem with hitem | ⟨t', ht'⟩
  · exact hpending item hitem
  rw [hm.pc] at ht'
  split at ht'
  · exact hp _ _ ht'
  · exact hold item (.inr ⟨t', ht'⟩)

section

variable (h : Inv s)

include h

/-- The thread moves, and nothing else happens to the cell but that the writer
lock changes hands. -/
theorem Inv.goto (lock : Option ThreadId) (hok : p.Ok s)
    (hholds : p.holdsPending = true → (s.pc t).holdsPending = true)
    (hsettling : p.settling = true → (s.pc t).settling = true)
    (htag : ∀ old gp, p = .queueing old gp ∨ p = .pushing old gp → gp = s.gracePeriod) :
    Inv ({ s with writerLock := lock }.goto t p) := by
  have hm : Moves s t p ({ s with writerLock := lock }.goto t p) := h.moves ⟨_, _, _, _, _, _, rfl⟩
  exact h.plain hm (hok.later hm.later fun _ _ hitem => hitem) ⟨rfl, rfl, rfl⟩ hholds hsettling
    (hm.tagged (fun _ => .inl) (fun _ hitem => .inl (.inl hitem)) fun old gp hp =>
      .inr (htag old gp hp)) (fun _ => .inl) fun _ => .inl

theorem Inv.swapping (hp : p = .tagging s.current ∨ p = .announcing (.free s.current)) :
    Inv (s.swap.goto t p) := by
  have hm : Moves s t p (s.swap.goto t p) := ⟨later_swap rfl rfl rfl rfl, rfl, rfl, rfl,
    Nat.lt_succ_self s.nextBox, pc_goto rfl t p⟩
  have hold : (s.swap.goto t p).Retired s.current := ⟨h.box.ne, Nat.lt_succ_of_lt h.box⟩
  refine h.plain hm ?_ ⟨rfl, rfl, rfl⟩ ?_ ?_
    (hm.tagged (fun _ => .inl) (fun _ hitem => .inl (.inl hitem)) ?_) (fun _ => .inl) fun _ => .inl
  · rcases hp with rfl | rfl <;> exact hold
  all_goals rcases hp with rfl | rfl <;> exact nofun

theorem Inv.take (hfree : s.pendingLock = none) (hok : p.Ok s)
    (hsettling : p.settling = true → (s.pc t).settling = true)
    (htag : ∀ old gp, p = .queueing old gp ∨ p = .pushing old gp → s.Tagged ⟨old, gp⟩) :
    Inv ((s.takePending t).goto t p) := by
  have hm : Moves s t p ((s.takePending t).goto t p) := h.moves ⟨_, _, _, _, _, _, rfl⟩
  exact h.move hm (hok.later hm.later fun _ _ hitem => hitem) (fun _ _ _ _ hitem => hitem)
    (h.lock_take hm hfree rfl) h.pending
    (h.settled_keep hm rfl hsettling fun item hitem =>
      .inl (hm.tagged (fun _ => id) (fun _ => .inl) htag item hitem)) (fun _ => .inl) fun _ => .inl

theorem Inv.pushing {gp : ℕ} (ht : s.pc t = .pushing old gp) :
    Inv ((s.push ⟨old, gp⟩).goto t .unlocking) := by
  have hm : Moves s t .unlocking ((s.push ⟨old, gp⟩).goto t .unlocking) :=
    h.moves ⟨_, _, _, _, _, _, rfl⟩
  have hholds : (s.pc t).holdsPending = true := by rw [ht]; rfl
  -- the item was tagged before, so it is no new one
  have hsub : ∀ item ∈ ((s.push ⟨old, gp⟩).goto t .unlocking).pending, s.Tagged item := by
    intro item hitem
    rcases mem_append.1 hitem with hitem | hitem
    · exact .inl hitem
    · obtain rfl := mem_singleton.1 hitem
      exact .inr ⟨t, .inr ht⟩
  exact h.move hm trivial (fun t' hne ht' => absurd (h.lock_unique hholds ht') hne)
    (h.lock_release hm hholds rfl) (fun item hitem => h.retired_of_tagged (hsub item hitem))
    (h.settled_keep hm rfl nofun fun item hitem =>
      .inl (hm.tagged (fun _ => id) hsub nofun item hitem))
    (fun _ => .inl) fun _ => .inl

/-- Raising the grace period makes every tag another one. No thread relies on
the tags then. -/
theorem Inv.announcing (ht : s.pc t = .announcing k)
    (hnone : ∀ t', (s.pc t').settling = false) : Inv (s.raise.goto t (.waiting k)) := by
  have hm : Moves s t (.waiting k) (s.raise.goto t (.waiting k)) := h.moves ⟨_, _, _, _, _, _, rfl⟩
  have hok : (Pc.announcing k).Ok s := ht ▸ h.pcs t
  refine h.move hm (Pc.Ok.later (p := .announcing k) hok hm.later fun _ _ hitem => hitem)
    (fun _ _ _ _ hitem => hitem) (h.lock_keep hm rfl nofun) h.pending (fun t' ht' => ?_)
    (fun _ => .inl) fun _ => .inl
  rw [hm.pc] at ht'
  split at ht'
  · cases ht'
  · rw [hnone t'] at ht'
    cases ht'

/-- A thread that finds no reader: whatever is retired is out of reach. -/
theorem Inv.waiting (ht : s.pc t = .waiting k) (hzero : s.activeReaders = 0) :
    Inv (s.goto t (.reclaiming k)) := by
  have hm : Moves s t (.reclaiming k) (s.goto t (.reclaiming k)) := h.moves ⟨_, _, _, _, _, _, rfl⟩
  have hno := h.no_guard hzero
  have hbefore : (Pc.waiting k).Ok s := ht ▸ h.pcs t
  have hok : (Pc.reclaiming k).Ok s := After.Before.settled hbefore hno
  refine h.move hm (hok.later hm.later fun _ _ hitem => hitem) (fun _ _ _ _ hitem => hitem)
    (h.lock_keep hm rfl nofun) h.pending (fun _ _ item hitem _ => ?_) (fun _ => .inl) fun _ => .inl
  have htagged : s.Tagged item := hm.tagged (fun _ => id) (fun _ => .inl) nofun item hitem
  refine hm.later.clear _ ⟨h.retired_of_tagged htagged, fun g hg => ?_⟩
  rw [hno g] at hg
  cases hg

/-- The thread that reads the grace period: what has an earlier tag is out of
reach. -/
theorem Inv.loading (ht : s.pc t = .loading k) :
    Inv (s.goto t (.retaining k s.gracePeriod)) := by
  have hknown : (Pc.loading k).Ok s := ht ▸ h.pcs t
  have hsettling : (s.pc t).settling = true := by rw [ht]; rfl
  have hholds : (s.pc t).holdsPending = true := by rw [ht]; rfl
  refine h.goto s.writerLock ⟨hknown, fun item hitem hlt => ?_⟩ (fun _ => hholds)
    (fun _ => hsettling) nofun
  exact h.settled t hsettling item (.inl hitem) (Nat.ne_of_lt hlt)

theorem Inv.retaining {gp : ℕ} (ht : s.pc t = .retaining k gp) :
    Inv ((s.retain gp).goto t k.resume) := by
  have hm : Moves s t k.resume ((s.retain gp).goto t k.resume) := h.moves ⟨_, _, _, _, _, _, rfl⟩
  obtain ⟨hknown, hexpired⟩ : (Pc.retaining k gp).Ok s := ht ▸ h.pcs t
  have hholds : (s.pc t).holdsPending = true := by rw [ht]; rfl
  have hsub : ∀ item ∈ ((s.retain gp).goto t k.resume).pending, item ∈ s.pending :=
    fun item hitem => mem_of_mem_filter hitem
  refine h.move hm (hknown.resume.later hm.later fun _ => hsub) (fun _ _ _ => hsub)
    (h.lock_release hm hholds ?_) (fun item hitem => h.pending item (hsub item hitem))
    (h.settled_keep hm rfl ?_ fun item hitem =>
      .inl (hm.tagged (fun _ => id) (fun item hitem => .inl (hsub item hitem)) ?_ item hitem))
    (fun q hq => ?_) fun _ => .inl
  · cases k <;> rfl
  · rw [ht]
    cases k <;> exact fun h => h
  · cases k <;> exact nofun
  · rcases mem_append.1 hq with hq | hq
    · exact .inl hq
    · obtain ⟨item, hitem, rfl⟩ := mem_map.1 hq
      obtain ⟨hin, hlt⟩ := mem_filter.1 hitem
      exact .inr (hexpired item hin (of_decide_eq_true hlt))

theorem Inv.freeing (ht : s.pc t = .freeing old) :
    Inv ((s.free old).goto t .unlocking) := by
  have hm : Moves s t .unlocking ((s.free old).goto t .unlocking) := h.moves ⟨_, _, _, _, _, _, rfl⟩
  have hclear : (Pc.freeing old).Ok s := ht ▸ h.pcs t
  refine h.plain hm trivial ⟨rfl, rfl, rfl⟩ nofun nofun
    (hm.tagged (fun _ => .inl) (fun _ hitem => .inl (.inl hitem)) nofun) (fun q hq => ?_)
    fun _ => .inl
  rcases mem_append.1 hq with hq | hq
  · exact .inl hq
  · obtain rfl := mem_singleton.1 hq
    exact .inr hclear

theorem Inv.calling {stamp : GuardId} (ht : s.pc t = .calling stamp) :
    Inv ((s.runCallback stamp).goto t .idle) := by
  have hm : Moves s t .idle ((s.runCallback stamp).goto t .idle) := h.moves ⟨_, _, _, _, _, _, rfl⟩
  have hpassed : (Pc.calling stamp).Ok s := ht ▸ h.pcs t
  refine h.plain hm trivial ⟨rfl, rfl, rfl⟩ nofun nofun
    (hm.tagged (fun _ => .inl) (fun _ hitem => .inl (.inl hitem)) nofun) (fun _ => .inl)
    fun n hn => ?_
  rcases mem_append.1 hn with hn | hn
  · exact .inl hn
  · obtain rfl := mem_singleton.1 hn
    exact .inr hpassed

end

end Threads

/-! ### Runs -/

theorem next_inv {s' : Rcu} {t : ThreadId} (h : Inv s) (hok : NoOverlap s (.run t))
    (hnext : s.next t = some s') : Inv s' := by
  have hknown := h.pcs t
  unfold next at hnext
  cases hpc : s.pc t with simp only [hpc] at hnext hknown
  | idle =>
    cases hnext
  | locking async =>
    split at hnext
    · cases hnext
      exact h.goto _ trivial nofun nofun nofun
    split at hnext
    · cases hnext
      exact h.goto s.writerLock trivial nofun nofun nofun
    · cases hnext
  | swapping async =>
    cases hnext
    refine h.swapping ?_
    cases async
    · exact .inr rfl
    · exact .inl rfl
  | tagging old =>
    cases hnext
    refine h.goto s.writerLock hknown nofun nofun fun old' gp hgp => ?_
    rcases hgp with hgp | hgp
    · cases hgp
      rfl
    · cases hgp
  | queueing old gp =>
    split at hnext
    · rename_i hfree
      cases hnext
      refine h.take hfree hknown nofun fun old' gp' hp => ?_
      rcases hp with hp | hp
      · cases hp
      · cases hp
        exact .inr ⟨t, .inl hpc⟩
    · cases hnext
  | pushing old gp =>
    cases hnext
    exact h.pushing hpc
  | unlocking =>
    cases hnext
    exact h.goto _ trivial nofun nofun nofun
  | announcing k =>
    cases hnext
    exact h.announcing hpc (hok ⟨k, hpc⟩)
  | waiting k =>
    split at hnext
    · rename_i hzero
      cases hnext
      exact h.waiting hpc hzero
    · cases hnext
      exact h
  | reclaiming k =>
    split at hnext
    · rename_i hfree
      cases hnext
      refine h.take hfree hknown (fun _ => by rw [hpc]; rfl) fun old' gp' hp => ?_
      rcases hp with hp | hp <;> cases hp
    · cases hnext
  | loading k =>
    cases hnext
    exact h.loading hpc
  | retaining k gp =>
    cases hnext
    exact h.retaining hpc
  | freeing old =>
    cases hnext
    exact h.freeing hpc
  | calling stamp =>
    cases hnext
    exact h.calling hpc

theorem step_inv {s' : Rcu} {a : Op} (h : Inv s) (hok : NoOverlap s a)
    (hstep : ofPartial step s a s') : Inv s' := by
  unfold ofPartial step at hstep
  cases a with
  | enter =>
    cases hstep
    exact h.enter hok
  | load g =>
    simp only at hstep
    split at hstep
    · rename_i hg
      cases hstep
      exact h.load hg
    · cases hstep
  | drop g =>
    simp only at hstep
    split at hstep
    · rename_i hg
      cases hstep
      exact h.drop hg
    · cases hstep
  | start t call =>
    simp only at hstep
    split at hstep
    · cases hstep
      have hstart : (call.start s).Ok s := by
        cases call with
        | callRcu => exact le_rfl
        | update | updateAsync | synchronizeRcu | rcuBarrier => trivial
      refine h.goto s.writerLock hstart ?_ ?_ ?_
      all_goals cases call <;> exact nofun
    · cases hstep
  | run t => exact next_inv h hok hstep

theorem Inv.safe (h : Inv s) : Safe s :=
  ⟨fun p hp => (h.freed p hp).2, fun stamp hstamp => (h.ran stamp hstamp).2⟩

/-- **Grace periods.** In every run in which no thread raises the grace period
while another is between its waiting and its look at the grace period, nothing
is freed that a guard still has, and no callback is run before the guards older
than its call are dropped. -/
theorem guards_protect {s : Rcu} {ops : List Op}
    (hrun : Run (Guarded NoOverlap (ofPartial step)) new ops s) : Safe s :=
  (Run.invariant Inv (fun _ _ _ hs h => step_inv hs h.1 h.2) hrun inv_new).safe

/-- The thread is about to raise the grace period. -/
def Pc.raises : Pc → Bool
  | .announcing _ => true
  | _ => false

theorem noOverlap_run_iff (s : Rcu) (t : ThreadId) :
    NoOverlap s (.run t) ↔ (s.pc t).raises = true → ∀ e ∈ s.pcs.entries, e.2.settling = false := by
  have hraises : (s.pc t).raises = true ↔ ∃ k, s.pc t = .announcing k := by
    cases s.pc t <;> simp [Pc.raises]
  rw [NoOverlap, hraises]
  refine imp_congr_right fun _ => ⟨fun h e he => ?_, fun h t' => ?_⟩
  · have hget : s.pcs.get? e.1 = some e.2 := mem_entries_iff.1 he
    have := h e.1
    rwa [pc, hget] at this
  · cases hget : s.pcs.get? t' with
    | none =>
      rw [pc, hget]
      rfl
    | some p =>
      rw [pc, hget]
      exact h (t', p) (mem_entries_iff.2 hget)

instance (s : Rcu) : (a : Op) → Decidable (NoOverlap s a)
  | .enter => inferInstanceAs (Decidable (s.guards.entries.length + 1 < 2 ^ 64))
  | .run t => decidable_of_iff' _ (noOverlap_run_iff s t)
  | .load _ | .drop _ | .start _ _ => .isTrue trivial

/-- Thread 1 replaces box 0 while a reader has it, and thread 2 waits until it
is dropped. -/
def orderly : List Op :=
  [.enter, .load 0, .start 1 .updateAsync, .run 1, .run 1, .run 1, .run 1, .run 1, .run 1,
    .start 2 .synchronizeRcu, .run 2, .run 2, .drop 0, .run 2, .run 2, .run 2, .run 2]

theorem guards_protect_orderly : ∃ s, Run (Guarded NoOverlap (ofPartial step)) new orderly s ∧
    s.freed = [0] ∧ Safe s :=
  Run.exists_of_exec (by decide) fun _ hrun hfreed => ⟨hfreed, guards_protect hrun⟩

/-- Thread 2 has seen that there is no reader. Then a reader gets box 0, thread
1 replaces it, and thread 3 raises the grace period, before thread 2 looks at
it. -/
def overlapping : List Op :=
  [.start 2 .synchronizeRcu, .run 2, .run 2, .enter, .load 0, .start 1 .updateAsync, .run 1, .run 1,
    .run 1, .run 1, .run 1, .run 1, .start 3 .synchronizeRcu, .run 3, .run 2, .run 2, .run 2]

/-- Box 0 is freed although guard 0 has it. -/
theorem overlapping_frees_held_box : ∃ s,
    Run (Guarded (fun _ _ => True) (ofPartial step)) new overlapping s ∧ ¬ Safe s :=
  Run.exists_of_exec (Q := fun s => 0 ∈ s.freed ∧ s.guards.get? 0 = some (some 0)) (by decide)
    fun _ _ h hsafe => hsafe.1 0 h.1 0 h.2

/-! ### Where the boxes are -/

def After.held : After → List BoxId
  | .free old => [old]
  | _ => []

/-- The box that a thread has replaced and neither freed nor queued. -/
def Pc.held : Pc → List BoxId
  | .tagging old | .queueing old _ | .pushing old _ | .freeing old => [old]
  | .announcing k | .waiting k | .reclaiming k | .loading k | .retaining k _ => k.held
  | _ => []

/-- How often the box is in the cell, with a thread, on the pending list, or
freed. -/
def places (s : Rcu) (p : BoxId) : ℕ :=
  [s.current].count p + s.pcs.sum (fun _ pc => pc.held.count p) +
    (s.pending.map PendingReclaim.ptr).count p + s.freed.count p

def Placed (s : Rcu) : Prop := ∀ p, s.places p = (range s.nextBox).count p

section Placed

variable {s' s1 : Rcu} {t : ThreadId} {q : Pc} (h : Placed s)

include h

/-- A thread moves to `q`: what it no longer has is somewhere else. -/
theorem Placed.goto (hpcs : s1.pcs = s.pcs)
    (hplaces : ∀ p, s1.places p + q.held.count p + (range s.nextBox).count p
      = s.places p + (s.pc t).held.count p + (range s1.nextBox).count p) :
    Placed (s1.goto t q) := by
  intro p
  have hsum := s1.pcs.sum_insert (fun _ pc => pc.held.count p) t q
  have hold : (s1.pcs.get? t).elim 0 (·.held.count p) = (s.pc t).held.count p := by
    rw [pc, hpcs]
    cases s.pcs.get? t <;> rfl
  have hp := h p
  have hnew := hplaces p
  rw [places] at hnew ⊢
  simp only [Rcu.goto]
  omega

theorem next_placed (hnext : s.next t = some s') : Placed s' := by
  unfold next at hnext
  cases hpc : s.pc t with simp only [hpc] at hnext
  | waiting k =>
    split at hnext <;> cases hnext
    · exact h.goto rfl fun p => by rw [hpc]; rfl
    · exact h
  | retaining k gp =>
    cases hnext
    refine h.goto rfl fun p => ?_
    have hresume : k.resume.held = k.held := by cases k <;> rfl
    have hsplit := ((filter_append_perm (PendingReclaim.expired gp) s.pending).map
      PendingReclaim.ptr).count_eq p
    rw [map_append, count_append] at hsplit
    rw [hpc, hresume]
    simp only [places, retain, Pc.held, count_append]
    omega
  | _ =>
    repeat' split at hnext
    all_goals cases hnext
    all_goals
      refine h.goto rfl fun p => ?_
      rw [hpc]
      simp [places, swap, push, free, takePending, raise, runCallback, Pc.held, After.held,
        range_succ] <;> omega

theorem step_placed {a : Op} (hstep : ofPartial step s a s') : Placed s' := by
  unfold ofPartial step at hstep
  cases a with
  | enter | load | drop =>
    simp only at hstep
    try split at hstep
    all_goals cases hstep
    intro p
    rw [places]
    exact h p
  | start t call =>
    simp only at hstep
    split at hstep <;> cases hstep
    rename_i hpc
    exact h.goto rfl fun p => by rw [hpc]; cases call <;> rfl
  | run t => exact next_placed h hstep

end Placed

/-- **No box is lost and none is freed twice**: one that was published is in one
place. -/
theorem boxes_conserved {s : Rcu} {ops : List Op} (hrun : Run (ofPartial step) new ops s)
    (p : BoxId) : s.places p = if p < s.nextBox then 1 else 0 := by
  have h : Placed s := hrun.invariant Placed (fun _ _ _ hs => step_placed hs) fun _ => rfl
  rw [h p]
  simp

theorem boxes_conserved_orderly : ∃ s, Run (ofPartial step) new orderly s ∧ s.freed = [0] ∧
    s.places 0 = if 0 < s.nextBox then 1 else 0 :=
  Run.exists_of_exec_free NoOverlap (by decide) fun _ hrun hfreed =>
    ⟨hfreed, boxes_conserved (hrun.mono fun _ _ _ h => h.2) 0⟩

end Rcu

end JanuaryOs.Libs

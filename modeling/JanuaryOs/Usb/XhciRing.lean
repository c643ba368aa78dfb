import JanuaryOs.Lib.Trace

/-!
# The producer rings of the xHCI driver (`drivers/usb/xhci.rs`)

A ring has 256 entries; the last one is the Link TRB, which leads back to the
first. The driver writes an entry field by field, the control word with the
cycle bit last. The controller takes the entry at its position if the cycle bit
is the one it expects.

The proof counts entries through all laps: slot `a` is entry `a % 256` on lap `a
/ 256`, and its cycle bit is that of the lap. The slots from the controller's
position up to what has been written hold what was enqueued, and every slot from
there to one lap later still has the other cycle bit.
-/

namespace JanuaryOs.Usb

open Lib List Function

def trbTypeLink : UInt32 := 6

structure Trb where
  parameter : UInt64
  status : UInt32
  control : UInt32
  deriving DecidableEq, Inhabited

variable (t : Trb)

namespace Trb

def cycle : Bool := t.control &&& 1 != 0

/-- The Toggle Cycle flag of a Link TRB. -/
def toggleCycle : Bool := t.control &&& 2 != 0

def trbType : UInt32 := t.control >>> 10 &&& 0x3F

/-- The entry with the cycle bit of a producer. -/
def withCycle (cycleState : UInt32) : Trb :=
  { t with control := if cycleState ≠ 0 then t.control ||| 1 else t.control &&& ~~~1 }

/-- The Link TRB at the end of a ring. -/
def link (phys : UInt64) (cycleState : UInt32) : Trb :=
  let linkControl := trbTypeLink <<< 10 ||| (1 : UInt32) <<< 1
  ⟨phys, 0, if cycleState ≠ 0 then linkControl ||| 1 else linkControl⟩

theorem cycle_withCycle (cycleState : UInt32) :
    (t.withCycle cycleState).cycle = (cycleState != 0) := by
  have hset : (t.control ||| 1) &&& 1 = 1 := by
    apply UInt32.toBitVec_inj.1
    ext i hi
    simp
    grind
  have hclear : t.control &&& ~~~1 &&& 1 = 0 := by
    rw [UInt32.and_assoc]
    exact UInt32.and_zero
  simp only [withCycle, cycle]
  split
  · rename_i hne
    simp [hset, hne]
  · rename_i heq
    simp [hclear, not_not.1 heq]

theorem withCycle_withCycle (cycleState : UInt32) :
    (t.withCycle cycleState).withCycle 0 = t.withCycle 0 := by
  have hset : (t.control ||| 1) &&& ~~~1 = t.control &&& ~~~1 := by
    apply UInt32.toBitVec_inj.1
    ext i hi
    simp
    grind
  by_cases hne : cycleState = 0 <;> simp [withCycle, hne, hset, UInt32.and_assoc]

end Trb

/-! ### The rings of the driver -/

structure RingState where
  phys : UInt64
  /-- The memory at `virt`. -/
  entries : ℕ → Trb
  enqueueIdx : ℕ
  cycleState : UInt32

namespace RingState

variable (r : RingState) (t : Trb)

def put (p : ℕ × Trb) : RingState := { r with entries := update r.entries p.1 p.2 }

/-- The body of `enqueue_command` and of `enqueue_transfer`, on the ring of
each. -/
def enqueue : RingState :=
  let r :=
    if r.enqueueIdx = 255 then
      { r.put (255, .link r.phys r.cycleState) with
        cycleState := r.cycleState ^^^ 1, enqueueIdx := 0 }
    else r
  { r.put (r.enqueueIdx, t.withCycle r.cycleState) with enqueueIdx := r.enqueueIdx + 1 }

/-- The entries a call writes, in order. -/
def stores : List (ℕ × Trb) :=
  if r.enqueueIdx = 255 then
    [(255, .link r.phys r.cycleState), (0, t.withCycle (r.cycleState ^^^ 1))]
  else [(r.enqueueIdx, t.withCycle r.cycleState)]

/-- What a call does to the position and the cycle state, which only the driver
sees. -/
def advance : RingState :=
  if r.enqueueIdx = 255 then { r with cycleState := r.cycleState ^^^ 1, enqueueIdx := 1 }
  else { r with enqueueIdx := r.enqueueIdx + 1 }

theorem enqueue_eq : r.enqueue t = (r.stores t).foldl put r.advance := by
  unfold enqueue stores advance
  split <;> rfl

@[simp] theorem put_entries (p : ℕ × Trb) :
    (r.put p).entries = update r.entries p.1 p.2 := by
  rw [put]

end RingState

/-- The command ring of `init`: a zeroed page. -/
def cmdRing (phys : UInt64) : RingState := ⟨phys, fun _ => ⟨0, 0, 0⟩, 0, 1⟩

/-- The ring of an endpoint: a zeroed page that ends in a Link TRB. -/
def transferRing (phys : UInt64) : RingState := (cmdRing phys).put (255, .link phys 0)

/-- `enqueue_transfer` on the rings of all slots and endpoints; `none` is an index
outside one of the two arrays. -/
def enqueueTransfer (slots : ℕ → Option (ℕ → Option RingState)) (slotId dci : UInt8) (t : Trb) :
    Option (ℕ → Option (ℕ → Option RingState)) :=
  if 32 ≤ slotId.toNat then none
  else
    match slots slotId.toNat with
    | none => some slots
    | some rings =>
      if 32 ≤ dci.toNat then none
      else
        let ring := (rings dci.toNat).map (·.enqueue t)
        some (update slots slotId.toNat (some (update rings dci.toNat ring)))

/-! ### A ring and the controller that reads it -/

structure RingSystem where
  ring : RingState
  /-- The entries the call in progress has still to write, the first up to field
  `stage`. -/
  todo : List (ℕ × Trb) := []
  stage : ℕ := 0
  enqueued : List Trb := []
  dequeueIdx : ℕ := 0
  consumerCycle : Bool := true
  taken : List Trb := []

inductive RingOp
  /-- The driver calls `enqueue_command` or `enqueue_transfer`. -/
  | enqueue (t : Trb)
  /-- The driver writes the next field. -/
  | store
  /-- The controller looks at the entry at its position. -/
  | consume

namespace RingSystem

variable (s : RingSystem)

def enqueue : RingSystem :=
  { s with
    ring := s.ring.advance, todo := s.ring.stores t, stage := 0, enqueued := s.enqueued ++ [t] }

def store : RingSystem :=
  match s.todo with
  | [] => s
  | (i, t) :: rest =>
    let e := s.ring.entries i
    match s.stage with
    | 0 => { s with ring := s.ring.put (i, { e with parameter := t.parameter }), stage := 1 }
    | 1 => { s with ring := s.ring.put (i, { e with status := t.status }), stage := 2 }
    | _ =>
      { s with ring := s.ring.put (i, { e with control := t.control }), stage := 0, todo := rest }

def consume : RingSystem :=
  let t := s.ring.entries s.dequeueIdx
  if t.cycle = s.consumerCycle then
    if s.dequeueIdx = 255 ∧ t.trbType = trbTypeLink then
      { s with
        dequeueIdx := ((t.parameter - s.ring.phys) / 16).toNat
        consumerCycle := s.consumerCycle ^^ t.toggleCycle }
    else { s with dequeueIdx := s.dequeueIdx + 1, taken := s.taken ++ [t] }
  else s

def step : RingOp → RingSystem
  | .enqueue t => s.enqueue t
  | .store => s.store
  | .consume => s.consume

/-- The driver makes one call after the other, and at most 254 TRBs are
outstanding. -/
def Allowed : RingOp → Prop
  | .enqueue _ => s.todo = [] ∧ s.enqueued.length < s.taken.length + 254
  | _ => True

instance : ∀ op, Decidable (s.Allowed op)
  | .enqueue _ => inferInstanceAs (Decidable (_ ∧ _))
  | .store | .consume => .isTrue trivial

end RingSystem

/-! ### Slots through all laps -/

/-- The cycle state of the producer at slot `a`. -/
def lapCycle (a : ℕ) : UInt32 := if a / 256 % 2 = 0 then 1 else 0

theorem lapCycle_next (a : ℕ) (ha : a % 256 = 255) : lapCycle (a + 1) = lapCycle a ^^^ 1 := by
  unfold lapCycle
  by_cases h : a / 256 % 2 = 0
  · rw [if_pos h, if_neg (by omega)]
    rfl
  · rw [if_neg h, if_pos (by omega)]
    rfl

theorem lapCycle_same {a b : ℕ} (h : a / 256 = b / 256) : lapCycle a = lapCycle b := by
  rw [lapCycle, h, lapCycle]

theorem lapCycle_lap (a : ℕ) : (lapCycle (a + 256) != 0) = !(lapCycle a != 0) := by
  unfold lapCycle
  by_cases h : a / 256 % 2 = 0
  · rw [if_pos h, if_neg (by omega)]
    rfl
  · rw [if_neg h, if_pos (by omega)]
    rfl

theorem link_lapCycle (phys : UInt64) (a : ℕ) :
    (Trb.link phys (lapCycle a)).trbType = trbTypeLink ∧
      (Trb.link phys (lapCycle a)).toggleCycle = true ∧
      (Trb.link phys (lapCycle a)).cycle = (lapCycle a != 0) := by
  unfold lapCycle
  split <;> simp [Trb.link, Trb.trbType, Trb.toggleCycle, Trb.cycle, trbTypeLink] <;> decide

/-- The entry of slot `a`. -/
structure IsSlot (phys : UInt64) (a : ℕ) (p : ℕ × Trb) : Prop where
  index : p.1 = a % 256
  cycle : p.2.cycle = (lapCycle a != 0)
  link : a % 256 = 255 → p.2 = .link phys (lapCycle a)

/-- The TRBs among the entries, without the Link TRBs and with the cycle bit
cleared. -/
def trbsOf (log : List (ℕ × Trb)) : List Trb :=
  (log.filter fun p => p.1 ≠ 255).map fun p => p.2.withCycle 0

theorem trbsOf_append (log log' : List (ℕ × Trb)) :
    trbsOf (log ++ log') = trbsOf log ++ trbsOf log' := by
  simp [trbsOf]

/-- The state of a run: `c` slots have been passed by the controller, `w`
written by the driver. -/
structure Laps (r0 : RingState) (s : RingSystem) (log : List (ℕ × Trb)) (c w : ℕ) : Prop where
  phys : s.ring.phys = r0.phys
  idx : s.ring.enqueueIdx = log.length % 256
  cycleState : s.ring.cycleState = lapCycle log.length
  slot : ∀ a p, log[a]? = some p → IsSlot r0.phys a p
  enqueued : s.enqueued.map (·.withCycle 0) = trbsOf log
  calls : s.enqueued.length = 255 * (log.length / 256) + log.length % 256
  todo : s.todo = log.drop w
  bounds : c ≤ w ∧ w ≤ log.length ∧ log.length ≤ c + 256
  written : ∀ a p, log[a]? = some p → c ≤ a → a < w → s.ring.entries (a % 256) = p.2
  parameter : ∀ p, log[w]? = some p → 1 ≤ s.stage →
    (s.ring.entries (w % 256)).parameter = p.2.parameter
  status : ∀ p, log[w]? = some p → 2 ≤ s.stage →
    (s.ring.entries (w % 256)).status = p.2.status
  stale : ∀ a, w ≤ a → a < c + 256 → (s.ring.entries (a % 256)).cycle = !(lapCycle a != 0)
  dequeueIdx : s.dequeueIdx = c % 256
  consumerCycle : s.consumerCycle = (lapCycle c != 0)
  taken : s.taken.map (·.withCycle 0) = trbsOf (log.take c)
  takes : s.taken.length = 255 * (c / 256) + c % 256
  replay : s.todo.foldl RingState.put s.ring = s.enqueued.foldl RingState.enqueue r0

section

variable {r0 : RingState} {s : RingSystem} {log : List (ℕ × Trb)} {c w : ℕ} {p : ℕ × Trb}

theorem Laps.stores_slot (h : Laps r0 s log c w) (t : Trb) (a : ℕ) (p : ℕ × Trb)
    (hp : (s.ring.stores t)[a]? = some p) : IsSlot r0.phys (log.length + a) p := by
  unfold RingState.stores at hp
  rw [h.idx, h.cycleState, h.phys] at hp
  split at hp
  · rename_i hend
    rw [← lapCycle_next _ hend] at hp
    match a, hp with
    | 0, hp =>
      cases hp
      exact ⟨hend.symm, (link_lapCycle _ _).2.2, fun _ => rfl⟩
    | 1, hp =>
      cases hp
      exact ⟨by simp only; omega, Trb.cycle_withCycle _ _, fun h' => by omega⟩
  · rename_i hend
    match a, hp with
    | 0, hp =>
      cases hp
      exact ⟨rfl, Trb.cycle_withCycle _ _, fun h' => absurd h' hend⟩

theorem trbsOf_stores (r : RingState) (t : Trb) : trbsOf (r.stores t) = [t.withCycle 0] := by
  unfold RingState.stores trbsOf
  split
  · simp [Trb.withCycle_withCycle]
  · rename_i hend
    simp [hend, Trb.withCycle_withCycle]

section

variable (h : Laps r0 s log c w)

include h

/-- A call moves the position of the driver over the slots it writes. -/
theorem Laps.advance_eq : let n := log.length + (s.ring.stores t).length
    s.ring.advance = { s.ring with enqueueIdx := n % 256, cycleState := lapCycle n } ∧
      255 * (n / 256) + n % 256 = 255 * (log.length / 256) + log.length % 256 + 1 ∧
      n ≤ log.length + 2 := by
  unfold RingState.stores RingState.advance
  rw [h.idx, h.cycleState]
  split
  · rename_i hend
    rw [← lapCycle_next _ hend]
    have hidx : (log.length + 2) % 256 = 1 := by omega
    have hlap : lapCycle (log.length + 2) = lapCycle (log.length + 1) :=
      lapCycle_same (by omega)
    simp only [length_cons, length_nil]
    refine ⟨?_, by omega, by omega⟩
    rw [hidx, hlap]
  · rename_i hend
    have hidx : (log.length + 1) % 256 = log.length % 256 + 1 := by omega
    have hlap : lapCycle (log.length + 1) = lapCycle log.length := lapCycle_same (by omega)
    simp only [length_cons, length_nil]
    refine ⟨?_, by omega, by omega⟩
    rw [hidx, hlap, ← h.idx, ← h.cycleState]

theorem Laps.enqueue {t : Trb} (hok : s.Allowed (.enqueue t)) :
    Laps r0 (s.enqueue t) (log ++ s.ring.stores t) c w := by
  obtain ⟨hidle, hfew⟩ := hok
  obtain ⟨hadv, hcalls, hlen⟩ := h.advance_eq t
  have hw : w = log.length := by
    have := drop_eq_nil_iff.1 (h.todo ▸ hidle)
    have := h.bounds
    omega
  have hroom : log.length ≤ c + 254 := by
    have := h.calls
    have := h.takes
    have := h.bounds
    omega
  have hold : ∀ a p, (log ++ s.ring.stores t)[a]? = some p → a < w → log[a]? = some p := by
    intro a p hp ha
    rwa [getElem?_append_left (by omega)] at hp
  exact
    { h with
      phys := by
        simp only [RingSystem.enqueue, hadv, h.phys]
      idx := by
        simp only [RingSystem.enqueue, hadv, length_append]
      cycleState := by
        simp only [RingSystem.enqueue, hadv, length_append]
      slot := fun a p hp => by
        by_cases ha : a < log.length
        · exact h.slot a p (hold a p hp (hw ▸ ha))
        · rw [getElem?_append_right (by omega)] at hp
          have := h.stores_slot t _ p hp
          rwa [Nat.add_sub_cancel' (by omega)] at this
      enqueued := by
        simp only [RingSystem.enqueue, map_append, h.enqueued, trbsOf_append, trbsOf_stores,
          map_cons, map_nil]
      calls := by
        simp only [RingSystem.enqueue, length_append, hcalls, h.calls, length_singleton]
      todo := by
        rw [hw, drop_left]
        rfl
      bounds := by
        rw [length_append]
        have := h.bounds
        omega
      written := fun a p hp hc ha => by
        simp only [RingSystem.enqueue, hadv]
        exact h.written a p (hold a p hp ha) hc ha
      parameter := fun p _ hst => absurd hst (by simp [RingSystem.enqueue])
      status := fun p _ hst => absurd hst (by simp [RingSystem.enqueue])
      stale := fun a hwa hac => by
        simp only [RingSystem.enqueue, hadv]
        exact h.stale a hwa hac
      taken := by
        rw [take_append_of_le_length (by have := h.bounds; omega)]
        exact h.taken
      replay := by
        have hdone := h.replay
        rw [hidle] at hdone
        simp only [RingSystem.enqueue, foldl_append, ← hdone, foldl_cons, foldl_nil,
          RingState.enqueue_eq] }

/-- Writing the first slot not yet written touches no other slot of the lap. -/
theorem Laps.put_other (hw : w < log.length) (e : Trb) {a : ℕ} (hc : c ≤ a) (ha : a < c + 256)
    (hne : a ≠ w) : (s.ring.put (w % 256, e)).entries (a % 256) = s.ring.entries (a % 256) := by
  have := h.bounds
  exact update_of_ne (by omega) _ _

theorem Laps.todo_cons (hp : log[w]? = some p) : s.todo = (w % 256, p.2) :: log.drop (w + 1) := by
  obtain ⟨hw, hget⟩ := List.getElem?_eq_some_iff.1 hp
  rw [h.todo, drop_eq_getElem_cons hw, hget, ← (h.slot w p hp).index]

theorem Laps.put_field (hp : log[w]? = some p) (e : Trb)
    (he : e.control = (s.ring.entries (w % 256)).control) (stage : ℕ)
    (hparam : 1 ≤ stage → e.parameter = p.2.parameter)
    (hstatus : 2 ≤ stage → e.status = p.2.status) :
    Laps r0 { s with ring := s.ring.put (w % 256, e), stage := stage } log c w := by
  have hw : w < log.length := (List.getElem?_eq_some_iff.1 hp).1
  exact
    { h with
      written := fun a q hq hc ha => by
        rw [h.put_other hw e hc (by have := h.bounds; omega) (by omega)]
        exact h.written a q hq hc ha
      parameter := fun q hq hst => by
        cases hp.symm.trans hq
        simpa using hparam hst
      status := fun q hq hst => by
        cases hp.symm.trans hq
        simpa using hstatus hst
      stale := fun a hwa hac => by
        by_cases hne : a = w
        · subst hne
          rw [← h.stale a hwa hac]
          simp [Trb.cycle, he]
        · rw [h.put_other hw e (Nat.le_trans h.bounds.1 hwa) hac hne]
          exact h.stale a hwa hac
      replay := by
        have hdone := h.replay
        rw [h.todo_cons hp, foldl_cons] at hdone
        rw [show RingSystem.todo _ = s.todo from rfl, h.todo_cons hp, foldl_cons, ← hdone]
        simp [RingState.put] }

/-- The control word, which hands the slot over. -/
theorem Laps.put_control (hp : log[w]? = some p) (hst : 2 ≤ s.stage) :
    Laps r0 { s with
      ring := s.ring.put (w % 256, { s.ring.entries (w % 256) with control := p.2.control })
      stage := 0, todo := log.drop (w + 1) } log c (w + 1) := by
  have hw : w < log.length := (List.getElem?_eq_some_iff.1 hp).1
  have hentry : { s.ring.entries (w % 256) with control := p.2.control } = p.2 := by
    simp only [h.parameter p hp (by omega), h.status p hp hst]
  rw [hentry]
  exact
    { h with
      todo := rfl
      bounds := by
        have := h.bounds
        omega
      written := fun a q hq hc ha => by
        by_cases hne : a = w
        · subst hne
          cases hp.symm.trans hq
          simp
        · rw [h.put_other hw _ hc (by have := h.bounds; omega) hne]
          exact h.written a q hq hc (by omega)
      parameter := fun _ _ hst' => absurd hst' (by simp)
      status := fun _ _ hst' => absurd hst' (by simp)
      stale := fun a hwa hac => by
        have := h.bounds
        rw [h.put_other hw _ (by omega) hac (by omega)]
        exact h.stale a (by omega) hac
      replay := by
        have hdone := h.replay
        rwa [h.todo_cons hp, foldl_cons] at hdone }

theorem Laps.store : ∃ w', Laps r0 s.store log c w' := by
  unfold RingSystem.store
  split
  · exact ⟨w, h⟩
  rename_i i t rest htodo
  have hw : w < log.length := by
    by_contra hw
    rw [h.todo, drop_eq_nil_of_le (not_lt.1 hw)] at htodo
    cases htodo
  obtain ⟨p, hp⟩ : ∃ p, log[w]? = some p := ⟨_, getElem?_eq_getElem hw⟩
  obtain ⟨rfl, rfl, rfl⟩ : i = w % 256 ∧ t = p.2 ∧ rest = log.drop (w + 1) := by
    rw [h.todo_cons hp] at htodo
    cases htodo
    exact ⟨rfl, rfl, rfl⟩
  split
  · refine ⟨w, h.put_field hp _ ?_ 1 ?_ ?_⟩
    · rfl
    · exact fun _ => rfl
    · exact fun h' => absurd h' (by omega)
  · rename_i hst
    refine ⟨w, h.put_field hp _ ?_ 2 ?_ ?_⟩
    · rfl
    · exact fun _ => h.parameter p hp (by omega)
    · exact fun _ => rfl
  · rename_i hst0 hst1
    have hst : s.stage ≠ 0 ∧ s.stage ≠ 1 := ⟨hst0, hst1⟩
    exact ⟨w + 1, h.put_control hp (by omega)⟩

end

/-- With nothing written past its position, the controller waits. -/
theorem Laps.consume_eq (h : Laps r0 s log c c) : s.consume = s := by
  have hstale := h.stale c le_rfl (by omega)
  rw [RingSystem.consume, if_neg]
  rw [h.dequeueIdx, h.consumerCycle, hstale]
  simp

theorem Laps.consume (h : Laps r0 s log c w) (hc : c < w) : Laps r0 s.consume log (c + 1) w := by
  have hlen : c < log.length := lt_of_lt_of_le hc h.bounds.2.1
  obtain ⟨p, hp⟩ : ∃ p, log[c]? = some p := ⟨_, getElem?_eq_getElem hlen⟩
  have hslot := h.slot c p hp
  have hentry : s.ring.entries s.dequeueIdx = p.2 := by
    rw [h.dequeueIdx]
    exact h.written c p hp le_rfl hc
  have htake : log.take (c + 1) = log.take c ++ [p] := by
    rw [take_add_one, hp]
    rfl
  have hstale : ∀ a, w ≤ a → a < c + 1 + 256 →
      (s.ring.entries (a % 256)).cycle = !(lapCycle a != 0) := by
    intro a hwa hac
    by_cases hlast : a = c + 256
    · rw [hlast, lapCycle_lap, Bool.not_not, Nat.add_mod_right, ← h.dequeueIdx, hentry]
      exact hslot.cycle
    · exact h.stale a hwa (by omega)
  have hbounds : c + 1 ≤ w ∧ w ≤ log.length ∧ log.length ≤ c + 1 + 256 := by
    have := h.bounds
    omega
  rw [RingSystem.consume, hentry, if_pos (by rw [h.consumerCycle]; exact hslot.cycle)]
  by_cases hend : c % 256 = 255
  · obtain ⟨htype, htoggle, -⟩ := link_lapCycle r0.phys c
    rw [hslot.link hend, if_pos ⟨h.dequeueIdx.trans hend, htype⟩]
    exact
      { h with
        bounds := hbounds
        written := fun a q hq hc' => h.written a q hq (by omega)
        stale := hstale
        dequeueIdx := by
          have hzero : (c + 1) % 256 = 0 := by omega
          simp [Trb.link, h.phys, hzero]
        consumerCycle := by
          rw [lapCycle_same (show (c + 1) / 256 = (c + 256) / 256 by omega), lapCycle_lap,
            ← h.consumerCycle, htoggle, Bool.xor_true]
        taken := by
          rw [htake, trbsOf_append, ← h.taken]
          simp [trbsOf, hslot.index, hend]
        takes := by
          have := h.takes
          simp only
          omega }
  · rw [if_neg (fun h' => hend (h.dequeueIdx ▸ h'.1))]
    exact
      { h with
        bounds := hbounds
        written := fun a q hq hc' => h.written a q hq (by omega)
        stale := hstale
        dequeueIdx := by
          have := h.dequeueIdx
          simp only
          omega
        consumerCycle := by
          rw [lapCycle_same (show (c + 1) / 256 = c / 256 by omega)]
          exact h.consumerCycle
        taken := by
          rw [htake, trbsOf_append, ← h.taken]
          simp [trbsOf, hslot.index, hend]
        takes := by
          have := h.takes
          simp only [length_append, length_singleton]
          omega }

theorem Laps.step (h : Laps r0 s log c w) {op : RingOp} (hok : s.Allowed op) :
    ∃ log c w, Laps r0 (s.step op) log c w := by
  cases op with
  | enqueue t => exact ⟨_, c, w, h.enqueue hok⟩
  | store => exact ⟨log, c, h.store⟩
  | consume =>
    obtain heq | hlt := Nat.eq_or_lt_of_le h.bounds.1
    · subst heq
      exact ⟨log, c, c, by rwa [RingSystem.step, h.consume_eq]⟩
    · exact ⟨log, c + 1, w, h.consume hlt⟩

/-- A controller that looks often enough passes every slot written. -/
theorem Laps.drain (h : Laps r0 s log c w) {n : ℕ} (hn : w ≤ c + n) :
    Laps r0 (RingSystem.consume^[n] s) log w w := by
  induction n generalizing s c with
  | zero => exact (le_antisymm h.bounds.1 hn) ▸ h
  | succ n ih =>
    rw [iterate_succ_apply]
    obtain heq | hlt := Nat.eq_or_lt_of_le h.bounds.1
    · subst heq
      rw [h.consume_eq]
      exact ih h (by omega)
    · exact ih (h.consume hlt) (by omega)

end

/-- The rings of `init` and of the endpoints start with every cycle bit clear. -/
theorem Laps.init {phys : UInt64} {r0 : RingState}
    (hr : r0 = cmdRing phys ∨ r0 = transferRing phys) : Laps r0 { ring := r0 } [] 0 0 := by
  have hclear : ∀ i, (r0.entries i).cycle = false := by
    intro i
    obtain rfl | rfl := hr
    · simp [cmdRing, Trb.cycle]
    · by_cases hi : i = 255 <;> simp [transferRing, cmdRing, hi, Trb.link, Trb.cycle, trbTypeLink]
      decide
  have hregs : r0.enqueueIdx = 0 ∧ r0.cycleState = 1 := by
    obtain rfl | rfl := hr <;> exact ⟨rfl, rfl⟩
  exact
    { phys := rfl
      idx := hregs.1
      cycleState := hregs.2
      slot := fun a p hp => by simp at hp
      enqueued := rfl
      calls := rfl
      todo := rfl
      bounds := by simp
      written := fun a p hp => by simp at hp
      parameter := fun p hp => by simp at hp
      status := fun p hp => by simp at hp
      stale := fun a _ ha => by
        rw [hclear, lapCycle, if_pos (by omega)]
        rfl
      dequeueIdx := rfl
      consumerCycle := rfl
      taken := rfl
      takes := rfl
      replay := rfl }

/-- Across any number of laps the controller takes the TRBs that were enqueued,
each once and in order. It never takes anything else, and once no call is in
progress it can take all of them. -/
theorem ring_delivers {phys : UInt64} {r0 : RingState}
    (hr : r0 = cmdRing phys ∨ r0 = transferRing phys) {ops : List RingOp} {s : RingSystem}
    (hrun : Run (Guarded RingSystem.Allowed (ofFun RingSystem.step)) { ring := r0 } ops s) :
    s.taken.map (·.withCycle 0) =
        (s.enqueued.map (·.withCycle 0)).take s.taken.length ∧
      (s.todo = [] → s.ring = s.enqueued.foldl RingState.enqueue r0 ∧
        (RingSystem.consume^[256] s).taken.map (·.withCycle 0) =
          s.enqueued.map (·.withCycle 0)) := by
  obtain ⟨log, c, w, h⟩ : ∃ log c w, Laps r0 s log c w := by
    refine Run.invariant (fun s => ∃ log c w, Laps r0 s log c w) ?_ hrun ⟨[], 0, 0, .init hr⟩
    rintro s op s' ⟨log, c, w, h⟩ ⟨hok, rfl⟩
    exact h.step hok
  constructor
  · have hlen : s.taken.length = (trbsOf (log.take c)).length := by
      rw [← h.taken, length_map]
    rw [h.taken, h.enqueued, hlen]
    nth_rewrite 3 [← take_append_drop c log]
    rw [trbsOf_append, take_left]
  · intro hidle
    have hw : log.length ≤ w := drop_eq_nil_iff.1 (h.todo ▸ hidle)
    have hdone := h.replay
    rw [hidle] at hdone
    refine ⟨hdone, ?_⟩
    have hd := h.drain (show w ≤ c + 256 by have := h.bounds; omega)
    rw [hd.taken, take_of_length_le hw, h.enqueued]

/-- Commands, each with its three stores and a look of the controller. -/
def oneByOne (n : ℕ) : List RingOp := (range n).flatMap fun i =>
  [.enqueue ⟨i.toUInt64, 0, 0x2400⟩, .store, .store, .store, .consume]

/-- The last of 256 commands is behind the Link TRB, which is taken before it is
written. -/
theorem ring_delivers_lap :
    ∃ s, Run (Guarded RingSystem.Allowed (ofFun RingSystem.step)) { ring := cmdRing 0x1000 }
        (oneByOne 256 ++ [.store, .store, .store, .consume]) s ∧
      s.taken.length = 256 ∧ s.dequeueIdx = 1 ∧
      s.taken.map (·.withCycle 0) =
        (s.enqueued.map (·.withCycle 0)).take s.taken.length :=
  Run.exists_of_exec_total (Q := fun s => s.taken.length = 256 ∧ s.dequeueIdx = 1)
    (by decide +kernel) fun _ hrun hlap => ⟨hlap.1, hlap.2, (ring_delivers (.inl rfl) hrun).1⟩

end JanuaryOs.Usb

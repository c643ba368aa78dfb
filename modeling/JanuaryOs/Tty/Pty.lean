import Mathlib

/-!
# Writing to a pseudo-terminal (`drivers/tty/pty/mod.rs`)

`master_write` and `slave_write` put the images of the bytes one after the other
into a ring, which is a list here. Both count the bytes that the ring takes, not
those they were given. The two counts are the same as long as every byte for
which there is room is sent as one byte.
-/

namespace JanuaryOs.Tty

open List

/-- `PTY_BUFFER_SIZE`. -/
def ptyBufferSize : ℕ := 4096

/-- `RingBuffer::write` of one byte, counted if there is room for it. -/
def put (s : ℕ × List UInt8) (b : UInt8) : ℕ × List UInt8 :=
  if ptyBufferSize ≤ s.2.length then s else (s.1 + 1, s.2 ++ [b])

/-- `process_input`: `IGNCR`, `ICRNL`, `INLCR` and `ISTRIP`. -/
def processInput (iflag : UInt32) (byte : UInt8) : Option UInt8 :=
  if byte = 13 ∧ iflag &&& 0x80 ≠ 0 then none
  else if byte = 13 ∧ iflag &&& 0x100 ≠ 0 then some 10
  else if byte = 10 ∧ iflag &&& 0x40 ≠ 0 then some 13
  else if iflag &&& 0x20 ≠ 0 then some (byte &&& 0x7F)
  else some byte

/-- `process_output`: two bytes, of which the second is missing if it is zero. -/
def processOutput (oflag : UInt32) (byte : UInt8) : UInt8 × UInt8 :=
  if oflag &&& 1 = 0 then (byte, 0)
  else if byte = 10 ∧ oflag &&& 4 ≠ 0 then (13, 10)
  else if byte = 13 ∧ oflag &&& 8 ≠ 0 then (10, 0)
  else (byte, 0)

/-- `master_write`, with the number that it returns. -/
def masterWrite (iflag : UInt32) (toSlave data : List UInt8) : ℕ × List UInt8 :=
  data.foldl (fun s byte => (processInput iflag byte).toList.foldl put s) (0, toSlave)

/-- `slave_write`. The loop over the two bytes ends at a zero. -/
def slaveWrite (oflag : UInt32) (toMaster data : List UInt8) : ℕ × List UInt8 :=
  data.foldl (fun s byte =>
    ([(processOutput oflag byte).1, (processOutput oflag byte).2].takeWhile (· ≠ 0)).foldl put s)
    (0, toMaster)

/-- What `process_input` makes of a byte. -/
def inputImage (iflag : UInt32) (byte : UInt8) : List UInt8 := (processInput iflag byte).toList

/-- What `process_output` makes of a byte: a byte always has an image. -/
def outputImage (oflag : UInt32) (byte : UInt8) : List UInt8 :=
  (processOutput oflag byte).1 :: [(processOutput oflag byte).2].filter (· ≠ 0)

/-- The room that a ring has. -/
def room (ring : List UInt8) : ℕ := ptyBufferSize - ring.length

/-- The count is a number of bytes of `data`, what the ring got are their
images, and the next byte was only refused for lack of room. -/
def Accounts (image : UInt8 → List UInt8) (ring data : List UInt8) (r : ℕ × List UInt8) : Prop :=
  r.1 ≤ data.length ∧ r.2 = ring ++ (data.take r.1).flatMap image ∧
    ∀ b ∈ data[r.1]?, ptyBufferSize < r.2.length + max 1 (image b).length

/-- A writer that writes again what was not taken. Between two calls the peer
reads, so that `rings` is what the ring holds at each call. The result is what
was put into the ring, and what is left. -/
def retry (write : List UInt8 → List UInt8 → ℕ × List UInt8) :
    List (List UInt8) → List UInt8 → List UInt8 × List UInt8
  | [], data => ([], data)
  | ring :: rings, data =>
    let r := write ring data
    let (sent, rest) := retry write rings (data.drop r.1)
    (r.2.drop ring.length ++ sent, rest)

/-- The stream is transmitted without loss or duplication: the images of what is
left complete what was sent. -/
def Transmits (image : UInt8 → List UInt8) (data : List UInt8)
    (r : List UInt8 × List UInt8) : Prop :=
  r.2 <:+ data ∧ r.1 ++ r.2.flatMap image = data.flatMap image

variable {data ring xs : List UInt8} {image sent : UInt8 → List UInt8} {iflag oflag : UInt32}

/-! ### What the ring gets -/

theorem foldl_put (n : ℕ) :
    xs.foldl put (n, ring) = (n + (xs.take (ptyBufferSize - ring.length)).length,
      ring ++ xs.take (ptyBufferSize - ring.length)) := by
  induction xs generalizing n ring with
  | nil => simp
  | cons b xs ih =>
    rw [foldl_cons, put]
    by_cases hfull : ptyBufferSize ≤ ring.length
    · rw [if_pos hfull, ih, Nat.sub_eq_zero_of_le hfull, take_zero, take_zero]
    · rw [if_neg hfull, ih, length_append, length_singleton, ← Nat.sub_sub]
      obtain ⟨k, hk⟩ := Nat.exists_eq_succ_of_ne_zero (Nat.sub_ne_zero_of_lt (not_le.1 hfull))
      simp [hk]
      omega

/-- What is sent for the bytes goes into the ring as far as there is room. -/
theorem foldl_sent (sent : UInt8 → List UInt8) (ring data : List UInt8) :
    data.foldl (fun s byte => (sent byte).foldl put s) (0, ring)
      = (((data.flatMap sent).take (room ring)).length,
        ring ++ (data.flatMap sent).take (room ring)) := by
  rw [← foldl_flatMap, foldl_put, Nat.zero_add]
  rfl

/-- The bytes are sent as they should be, each as one byte. -/
def Single (image sent : UInt8 → List UInt8) (xs : List UInt8) : Prop :=
  ∀ b ∈ xs, sent b = image b ∧ (image b).length = 1

theorem Single.length (h : Single image sent xs) : (xs.flatMap image).length = xs.length := by
  rw [length_flatMap, map_congr_left fun b hb => (h b hb).2]
  simp

theorem Single.flatMap (h : Single image sent xs) : xs.flatMap sent = xs.flatMap image :=
  flatMap_congr fun b hb => (h b hb).1

/-- The law holds if every byte for which there is room is sent as one byte. -/
theorem Single.accounts (h : Single image sent (data.take (room ring))) :
    Accounts image ring data (data.foldl (fun s byte => (sent byte).foldl put s) (0, ring)) := by
  rw [foldl_sent]
  have hsplit : data.flatMap sent = (data.take (room ring)).flatMap image
      ++ (data.drop (room ring)).flatMap sent := by
    rw [← h.flatMap, ← flatMap_append, take_append_drop]
  have hlen := h.length
  rw [length_take] at hlen
  have hroom : room ring = ptyBufferSize - ring.length := rfl
  rcases Nat.lt_or_ge (room ring) data.length with hlt | hge
  · -- the ring is full before the data ends
    have hsent : (data.flatMap sent).take (room ring) = (data.take (room ring)).flatMap image := by
      rw [hsplit, take_left' (by omega)]
    have hcount : ((data.take (room ring)).flatMap image).length = room ring := by omega
    rw [hsent, Accounts, hcount]
    refine ⟨by omega, rfl, fun b _ => ?_⟩
    rw [length_append, hcount]
    omega
  · -- there is room for everything
    rw [drop_eq_nil_of_le hge, flatMap_nil, append_nil] at hsplit
    have hsent : (data.flatMap sent).take (room ring) = data.flatMap image := by
      rw [hsplit, take_of_length_le (by omega), take_of_length_le hge]
    have hcount : (data.flatMap image).length = data.length := by
      rw [take_of_length_le hge] at hlen
      omega
    rw [hsent, Accounts, hcount]
    refine ⟨le_rfl, by rw [take_length], fun b hb => ?_⟩
    rw [getElem?_eq_none le_rfl] at hb
    cases hb

/-- What the law says about the bytes that were counted. -/
theorem Accounts.spec
    (h : Accounts image ring data (data.foldl (fun s byte => (sent byte).foldl put s) (0, ring))) :
    ∃ n, n ≤ data.length ∧ (data.flatMap sent).take (room ring) = (data.take n).flatMap image ∧
      ((data.take n).flatMap image).length = n ∧
      ∀ b ∈ data[n]?, ptyBufferSize < ring.length + n + max 1 (image b).length := by
  rw [foldl_sent] at h
  obtain ⟨hle, heq, hnext⟩ := h
  have heq := append_cancel_left heq
  refine ⟨_, hle, heq, by rw [← heq], fun b hb => ?_⟩
  have := hnext b hb
  rwa [length_append] at this

/-- If the counted bytes were sent as one byte each, so was every byte for which
there was room. -/
theorem Single.of_counted {n : ℕ} (hle : n ≤ data.length) (h : Single image sent (data.take n))
    (heq : (data.flatMap sent).take (room ring) = (data.take n).flatMap image)
    (hnext : ∀ b ∈ data[n]?, ptyBufferSize < ring.length + n + max 1 (image b).length)
    (hskipped : ∀ b, sent b = [] → (image b).length ≤ 1) :
    Single image sent (data.take (room ring)) := by
  suffices hroom : n < data.length → room ring ≤ n by
    rcases hle.lt_or_eq with hlt | rfl
    · exact fun b hb => h b (take_subset_take_left _ (hroom hlt) hb)
    · exact fun b hb => h b (by rw [take_length]; exact mem_of_mem_take hb)
  intro hlt
  have hget : data[n]? = some data[n] := getElem?_eq_getElem hlt
  by_cases hsent : sent data[n] = []
  · have := hnext _ hget
    have := hskipped _ hsent
    have hroom : room ring = ptyBufferSize - ring.length := rfl
    omega
  · -- the next byte was sent, so the ring is full
    have hsplit : data.flatMap sent = (data.take n).flatMap sent ++ (sent data[n]
        ++ (data.drop (n + 1)).flatMap sent) := by
      rw [← flatMap_cons, ← drop_eq_getElem_cons hlt, ← flatMap_append, take_append_drop]
    have hpos := length_pos_of_ne_nil hsent
    have hlen := congrArg List.length heq
    have hcount := h.length
    rw [hsplit, h.flatMap, length_take, length_append, length_append] at hlen
    rw [length_take] at hcount
    omega

/-! ### The two directions of a terminal -/

theorem processOutput_fst_ne {b : UInt8} (hb : b ≠ 0) : (processOutput oflag b).1 ≠ 0 := by
  unfold processOutput
  split_ifs <;> simp [hb]

theorem length_le_flatMap (oflag : UInt32) (xs : List UInt8) :
    xs.length ≤ (xs.flatMap (outputImage oflag)).length := by
  induction xs with
  | nil => simp
  | cons b xs ih =>
    simp only [flatMap_cons, length_append, length_cons, outputImage] at *
    omega

/-- Input bytes are sent as one byte if they are not dropped. -/
theorem single_input (xs : List UInt8) :
    Single (inputImage iflag) (inputImage iflag) xs ↔ ∀ b ∈ xs, processInput iflag b ≠ none := by
  refine forall₂_congr fun b _ => ?_
  rw [inputImage]
  cases processInput iflag b <;> simp

/-- Output bytes are sent as one byte if they are not zero and have no second
byte. -/
theorem single_output (xs : List UInt8) :
    Single (outputImage oflag) (fun byte =>
      [(processOutput oflag byte).1, (processOutput oflag byte).2].takeWhile (· ≠ 0)) xs ↔
      ∀ b ∈ xs, b ≠ 0 ∧ (processOutput oflag b).2 = 0 := by
  refine forall₂_congr fun b _ => ⟨fun ⟨hsent, hlen⟩ => ⟨?_, ?_⟩, fun ⟨hzero, hsnd⟩ => ?_⟩
  · rintro rfl
    simp [outputImage, processOutput] at hsent
  · by_contra hsnd
    simp [outputImage, hsnd] at hlen
  · simp [outputImage, processOutput_fst_ne hzero, hsnd]

theorem master_accounts_iff : Accounts (inputImage iflag) ring data (masterWrite iflag ring data) ↔
    ∀ b ∈ data.take (room ring), processInput iflag b ≠ none := by
  rw [← single_input]
  refine ⟨fun h => ?_, fun h => h.accounts⟩
  obtain ⟨n, hle, heq, hlen, hnext⟩ := h.spec
  have hone : ∀ b, (inputImage iflag b).length ≤ 1 := fun b => by
    rw [inputImage]
    cases processInput iflag b <;> simp
  refine .of_counted hle ((single_input _).2 fun b hb hnone => ?_) heq hnext fun b _ => hone b
  -- a dropped byte among the counted ones would be missing in the ring
  have hfilter : (data.take n).flatMap (inputImage iflag)
      = (data.take n).filterMap (processInput iflag) := (filterMap_eq_flatMap_toList _ _).symm
  have hall : ((data.take n).filterMap (processInput iflag)).length = (data.take n).length := by
    rw [← hfilter, hlen, length_take, min_eq_left hle]
  rw [filterMap_length_eq_length] at hall
  simpa [hnone] using hall b hb

theorem slave_accounts_iff : Accounts (outputImage oflag) ring data (slaveWrite oflag ring data) ↔
    ∀ b ∈ data.take (room ring), b ≠ 0 ∧ (processOutput oflag b).2 = 0 := by
  rw [← single_output]
  refine ⟨fun h => ?_, fun h => h.accounts⟩
  obtain ⟨n, hle, heq, hlen, hnext⟩ := h.spec
  refine .of_counted hle ((single_output _).2 fun b hb => ⟨?_, by_contra fun hsnd => ?_⟩) heq hnext
    fun b hsent => ?_
  · -- the ring never gets a zero
    rintro rfl
    have hzero : 0 ∈ outputImage oflag 0 := by simp [outputImage, processOutput]
    have hmem : 0 ∈ (data.take n).flatMap (outputImage oflag) := mem_flatMap.2 ⟨0, hb, hzero⟩
    rw [← heq] at hmem
    obtain ⟨x, -, hx⟩ := mem_flatMap.1 (mem_of_mem_take hmem)
    simpa using mem_takeWhile_imp hx
  · -- every byte has an image, and this one has two bytes
    obtain ⟨A, B, hAB⟩ := append_of_mem hb
    have hA := length_le_flatMap oflag A
    have hB := length_le_flatMap oflag B
    have hn := congrArg List.length hAB
    rw [hAB] at hlen
    simp [outputImage, hsnd] at hlen hA hB hn
    omega
  · by_contra hlong
    have hsnd : (processOutput oflag b).2 ≠ 0 := by
      rintro hsnd
      simp [outputImage, hsnd] at hlong
    have hfst : (processOutput oflag b).1 ≠ 0 := by
      refine processOutput_fst_ne ?_
      rintro rfl
      simp [processOutput] at hsnd
    simp [hfst] at hsent

/-- A law that holds for every rest of the data makes a retrying writer transmit
the stream. -/
theorem retry_transmits {write : List UInt8 → List UInt8 → ℕ × List UInt8}
    (rings : List (List UInt8))
    (h : ∀ ring rest, rest <:+ data → Accounts image ring rest (write ring rest)) :
    Transmits image data (retry write rings data) := by
  induction rings generalizing data with
  | nil => exact ⟨suffix_rfl, rfl⟩
  | cons ring rings ih =>
    obtain ⟨-, heq, -⟩ := h ring data suffix_rfl
    have hdrop := drop_suffix (write ring data).1 data
    obtain ⟨hsuffix, hrest⟩ := ih fun ring rest hrest => h ring rest (hrest.trans hdrop)
    refine ⟨hsuffix.trans hdrop, ?_⟩
    show (write ring data).2.drop ring.length ++ _
      ++ (retry write rings (data.drop (write ring data).1)).2.flatMap image = _
    rw [append_assoc, hrest, heq, drop_left, ← flatMap_append, take_append_drop]

/-- For all flags, data and fill levels of the ring: `master_write` obeys the
law exactly if no byte for which there is room is dropped, and `slave_write`
exactly if no such byte is zero or a newline that becomes two bytes. So a
retrying writer transmits data without such bytes. Without output processing, or
with all input flags off, the image of every byte, zero included, is the byte. -/
theorem writes_account_iff (iflag oflag : UInt32) (ring data : List UInt8) :
    (Accounts (inputImage iflag) ring data (masterWrite iflag ring data) ↔
      ∀ b ∈ data.take (room ring), processInput iflag b ≠ none) ∧
    (Accounts (outputImage oflag) ring data (slaveWrite oflag ring data) ↔
      ∀ b ∈ data.take (room ring), b ≠ 0 ∧ (processOutput oflag b).2 = 0) ∧
    (∀ rings, (∀ b ∈ data, processInput iflag b ≠ none) →
      Transmits (inputImage iflag) data (retry (masterWrite iflag) rings data)) ∧
    (∀ rings, (∀ b ∈ data, b ≠ 0 ∧ (processOutput oflag b).2 = 0) →
      Transmits (outputImage oflag) data (retry (slaveWrite oflag) rings data)) ∧
    (iflag &&& 0x1E0 = 0 → ∀ b, inputImage iflag b = [b]) ∧
    (oflag &&& 1 = 0 → ∀ b, outputImage oflag b = [b]) := by
  refine ⟨master_accounts_iff, slave_accounts_iff, fun rings h => ?_, fun rings h => ?_,
    fun h b => ?_, fun h b => ?_⟩
  · refine retry_transmits rings fun ring rest hrest => master_accounts_iff.2 fun b hb => ?_
    exact h b (hrest.subset (mem_of_mem_take hb))
  · refine retry_transmits rings fun ring rest hrest => slave_accounts_iff.2 fun b hb => ?_
    exact h b (hrest.subset (mem_of_mem_take hb))
  · have hbit : ∀ mask : UInt32, 0x1E0 &&& mask = mask → iflag &&& mask = 0 := by
      intro mask hmask
      rw [← hmask, ← UInt32.and_assoc, h, UInt32.zero_and]
    simp [inputImage, processInput, hbit 0x80 rfl, hbit 0x100 rfl, hbit 0x40 rfl, hbit 0x20 rfl]
  · simp [outputImage, processOutput, h]

/-- A return that is ignored, zeros without output processing, and a newline. -/
theorem writes_miscount :
    ¬ Accounts (inputImage 0x80) [] [13, 97] (masterWrite 0x80 [] [13, 97]) ∧
      ¬ Accounts (outputImage 0) [] [0] (slaveWrite 0 [] [0]) ∧
      ¬ Accounts (outputImage 0) [] [0, 97] (slaveWrite 0 [] [0, 97]) ∧
      ¬ Accounts (outputImage 5) [] [10] (slaveWrite 5 [] [10]) := by
  unfold Accounts
  decide

end JanuaryOs.Tty

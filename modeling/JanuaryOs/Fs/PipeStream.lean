import JanuaryOs.Fs.PipeAccounting

/-!
# Reading, writing and polling (`fs/runtime/manager.rs`), and the bytes that go through a pipe

Nothing blocks at this level: a read that finds no byte answers `EAGAIN`, also
on a descriptor without `O_NONBLOCK`, and the caller tries again. Whether an end
is open is decided by the counts of the pipe, so what a call answers rests on
the accounting of `PipeAccounting`.

A run keeps a record of the bytes that were read from one pipe and of those that
were written to it. Closing the last end of a pipe drops what is still queued.
-/

namespace JanuaryOs.Fs

open Lib OrdMap

/-! ### Reading and writing -/

/-- What regular files answer. -/
structure VfsFiles where
  /-- `read_at`: at most as many bytes as asked for. -/
  readAt : (inode offset len : ℕ) → Except Errno (List UInt8)
  size : (inode : ℕ) → Option ℕ
  /-- The contents of a file that is kept in memory. -/
  staticData : (inode : ℕ) → Option (List UInt8)

variable (v : VfsFiles)

namespace VfsFiles

/-- The bytes a read of a regular file copies out. -/
def read (inode offset len : ℕ) : Except Errno (List UInt8) :=
  match v.staticData inode with
  | some data => .ok ((data.drop offset).take len)
  | none => v.readAt inode offset len

/-- A poll finds the file readable. -/
def readable (inode offset : ℕ) : Bool :=
  match v.staticData inode with
  | some data => !data.isEmpty || data.length ≤ offset
  | none =>
    match v.size inode with
    | none => false
    | some size => 0 < size || size ≤ offset

end VfsFiles

/-- The loop of `read_for_pid` that takes bytes off a queue. -/
def popFront : ℕ → List UInt8 → List UInt8 × List UInt8
  | 0, data => ([], data)
  | _ + 1, [] => ([], [])
  | room + 1, byte :: data => (byte :: (popFront room data).1, (popFront room data).2)

theorem popFront_append (room : ℕ) (data : List UInt8) :
    (popFront room data).1 ++ (popFront room data).2 = data := by
  induction room generalizing data with
  | zero => rfl
  | succ room ih =>
    cases data with
    | nil => rfl
    | cons byte data => exact congrArg (byte :: ·) (ih data)

variable {data : List UInt8} {e : PipeEnd} {s' : FsState} {events : UInt16}
  {pid : ProcessId} {s : FsState} {fd : ℤ} {id len : ℕ} {cloexec : Bool}

theorem popFront_eq_nil {room : ℕ} (hroom : room ≠ 0) :
    (popFront room data).1 = [] ↔ data = [] := by
  cases room with
  | zero => exact absurd rfl hroom
  | succ room => cases data <;> simp [popFront]

namespace FsState

def setPipeData (s : FsState) (id : ℕ) (pipe : PipeState) (data : List UInt8) : FsState :=
  { s with pipes := s.pipes.insert id { pipe with data := data } }

/-- `read_for_pid`, with the bytes it puts into the buffer. -/
def readForPid (s : FsState) (pid : ProcessId) (fd : ℤ) (len : ℕ) :
    Except Errno (List UInt8) × FsState :=
  match s.lookup pid fd with
  | none => (.error .EBADF, s)
  | some file =>
    if len = 0 then (.ok [], s)
    else
      match file with
      | .vfs inode offset cloexec =>
        match v.read inode offset len with
        | .error e => (.error e, s)
        | .ok bytes =>
          (.ok bytes, s.setFile pid fd (.vfs inode (satAdd u64Max offset bytes.length) cloexec))
      | .pipeRead id _ _ =>
        match s.pipes.get? id with
        | none => (.error .EBADF, s)
        | some pipe =>
          match popFront len pipe.data with
          | ([], _) => if pipe.writers = 0 then (.ok [], s) else (.error .EAGAIN, s)
          | (bytes, rest) => (.ok bytes, s.setPipeData id pipe rest)
      | .dir _ _ _ => (.error .EISDIR, s)
      | .pipeWrite _ _ _ => (.error .EBADF, s)

def writeForPid (s : FsState) (pid : ProcessId) (fd : ℤ) (data : List UInt8) :
    Except Errno ℕ × FsState :=
  match s.lookup pid fd with
  | none => (.error .EBADF, s)
  | some file =>
    if data = [] then (.ok 0, s)
    else
      match file with
      | .pipeWrite id _ _ =>
        match s.pipes.get? id with
        | none => (.error .EBADF, s)
        | some pipe =>
          if pipe.readers = 0 then (.error .EPIPE, s)
          else (.ok data.length, s.setPipeData id pipe (pipe.data ++ data))
      | .dir _ _ _ => (.error .EISDIR, s)
      | .vfs _ _ _ => (.error .EBADF, s)
      | .pipeRead _ _ _ => (.error .EBADF, s)

end FsState

/-! ### Polling -/

def POLLIN : UInt16 := 0x0001
def POLLOUT : UInt16 := 0x0004
def POLLERR : UInt16 := 0x0008
def POLLHUP : UInt16 := 0x0010
def POLLNVAL : UInt16 := 0x0020

/-- `if (events & bit) != 0 && cond { revents |= bit }`. -/
def report (events bit : UInt16) (cond : Bool) : UInt16 :=
  if events &&& bit != 0 && cond then bit else 0

/-- `poll_revents_for_pid`; `serialHasInput` is what the terminal says. -/
def FsState.pollReventsForPid (serialHasInput : Bool) (s : FsState)
    (pid : ProcessId) (fd : ℤ) (events : UInt16) : Except Errno UInt16 :=
  if fd < 0 then .ok POLLNVAL
  else if fd ≤ 2 then
    .ok (report events POLLIN (fd = 0 && serialHasInput) |||
      report events POLLOUT (fd = 1 || fd = 2))
  else
    match s.lookup pid fd with
    | none => .error .EBADF
    | some (.vfs inode offset _) => .ok (report events POLLIN (v.readable inode offset))
    | some (.dir _ _ _) => .ok (report events POLLIN true)
    | some (.pipeRead id _ _) =>
      match s.pipes.get? id with
      | none => .ok POLLHUP
      | some pipe =>
        .ok (report events POLLIN (!pipe.data.isEmpty || pipe.writers = 0) |||
          if pipe.writers = 0 then POLLHUP else 0)
    | some (.pipeWrite id _ _) =>
      match s.pipes.get? id with
      | none => .ok (POLLERR ||| POLLHUP)
      | some pipe =>
        if pipe.readers = 0 then .ok (POLLERR ||| POLLHUP) else .ok (report events POLLOUT true)

/-! ### Open ends -/

/-- Some process has a descriptor on an end of a pipe. -/
def FsState.EndOpen (s : FsState) (e : PipeEnd) (id : ℕ) : Prop :=
  ∃ pid fd f, s.lookup pid fd = some f ∧ onEnd e id f = 1

def FsState.queue (s : FsState) (id : ℕ) : List UInt8 := ((s.pipes.get? id).map (·.data)).getD []

open FsState

theorem endOpen_iff : s.EndOpen e id ↔ s.descriptors e id ≠ 0 := by
  constructor
  · rintro ⟨pid, fd, f, hf, he⟩ hzero
    have hle : onEnd e id f ≤ s.descriptors e id := weigh_pos_of_lookup hf
    omega
  · intro hne
    have hsum : 0 < s.openFiles.sum fun _ t => t.sum fun _ f => onEnd e id f :=
      Nat.pos_of_ne_zero hne
    obtain ⟨pid, t, hpid, hpos⟩ := sum_pos_iff.1 hsum
    obtain ⟨fd, f, hfd, hf⟩ := sum_pos_iff.1 hpos
    refine ⟨pid, fd, f, ?_, ?_⟩
    · rw [lookup, tableOf, hpid, Option.getD_some, hfd]
    · have := onEnd_le_one e id f
      omega

theorem PipeInv.count_eq_zero (hs : PipeInv s) {p : PipeState} (hp : s.pipes.get? id = some p)
    (e : PipeEnd) : p.count e = 0 ↔ ¬ s.EndOpen e id := by
  rw [endOpen_iff, not_not, hs.accounted.count id p hp e, inHand_nil, Nat.add_zero]

/-! ### What a call does to the bytes of the pipes -/

/-- Pipes may go, but none comes and no byte moves. -/
def KeepsData (s s' : FsState) : Prop :=
  ∀ id p', s'.pipes.get? id = some p' → ∃ p, s.pipes.get? id = some p ∧ p.data = p'.data

namespace KeepsData

variable {s1 s2 : FsState}

theorem of_eq (h : s1.pipes = s.pipes) : KeepsData s s1 := fun _ p' hp' => ⟨p', h ▸ hp', rfl⟩

theorem trans (h : KeepsData s s1) (h' : KeepsData s1 s2) : KeepsData s s2 := by
  intro id p2 hp2
  obtain ⟨p1, hp1, hdata1⟩ := h' id p2 hp2
  obtain ⟨p, hp, hdata⟩ := h id p1 hp1
  exact ⟨p, hp, hdata.trans hdata1⟩

variable {g : PipeState → PipeState}

theorem updatePipe (s : FsState) (id : ℕ) (hg : ∀ p, (g p).data = p.data) :
    KeepsData s (s.updatePipe id g) := by
  unfold FsState.updatePipe
  cases hid : s.pipes.get? id with
  | none => exact of_eq rfl
  | some p =>
    intro id' p' hp'
    simp only at hp'
    by_cases hne : id' = id
    · subst hne
      refine ⟨p, hid, ?_⟩
      split at hp'
      · rw [get?_erase_self] at hp'
        cases hp'
      · rw [get?_insert_self] at hp'
        cases hp'
        exact (hg p).symm
    · refine ⟨p', ?_, rfl⟩
      split at hp'
      · rwa [get?_erase_ne _ hne] at hp'
      · rwa [get?_insert_ne _ _ hne] at hp'

theorem releaseFile (s : FsState) (f : OpenFile) : KeepsData s (s.releaseFile f) := by
  cases f with
  | vfs | dir => exact of_eq rfl
  | pipeRead id _ _
  | pipeWrite id _ _ => exact updatePipe s id fun _ => rfl

theorem closeForPid (s : FsState) (pid : ProcessId) (fd : ℤ) :
    KeepsData s (s.closeForPid pid fd).2 := by
  unfold FsState.closeForPid
  split
  · exact of_eq rfl
  · exact trans (of_eq rfl) (releaseFile (s.removeFile pid fd) _)

theorem modifyPipe (s : FsState) (id : ℕ) (hg : ∀ p, (g p).data = p.data) :
    KeepsData s { s with pipes := s.pipes.modify id g } := by
  intro id' p' hp'
  simp only [get?_modify] at hp'
  split at hp'
  · rename_i heq
    obtain ⟨p, hp, rfl⟩ := Option.map_eq_some_iff.1 hp'
    exact ⟨p, heq ▸ hp, (hg p).symm⟩
  · exact ⟨p', hp', rfl⟩

theorem duplicateOpenFile (s : FsState) (f : OpenFile) : KeepsData s (s.duplicateOpenFile f) := by
  cases f with
  | vfs | dir => exact of_eq rfl
  | pipeRead id _ _
  | pipeWrite id _ _ => exact modifyPipe s id fun _ => rfl

end KeepsData

theorem PipeInv.setPipeData (hs : PipeInv s) {pipe : PipeState} (hp : s.pipes.get? id = some pipe)
    (data : List UInt8) : PipeInv (s.setPipeData id pipe data) where
  accounted := by
    refine hs.accounted.change id rfl (fun _ hne => get?_insert_ne _ _ hne) (fun _ _ _ => rfl)
      ?_
    have hfits := accounted_iff.1 hs.accounted id
    rw [hp] at hfits
    show Fits _ ((s.pipes.insert id { pipe with data := data }).get? id)
    rw [get?_insert_self]
    have hcount : ∀ e, { pipe with data := data }.count e = pipe.count e := fun e => by
      cases e <;> rfl
    simpa only [Fits, hcount] using hfits
  shape := hs.shape.of_eq ⟨rfl, rfl⟩

/-- A regular file takes the place of another under the same number. -/
theorem PipeInv.setVfs (hs : PipeInv s) {inode offset inode' offset' : ℕ} {cloexec' : Bool}
    (hf : s.lookup pid fd = some (.vfs inode offset cloexec)) :
    PipeInv (s.setFile pid fd (.vfs inode' offset' cloexec')) where
  accounted := by
    refine hs.accounted.congr rfl fun e id => ?_
    have hsum := weigh_setFile s (onEnd e id) pid fd (.vfs inode' offset' cloexec')
    rw [hf, Option.elim_some] at hsum
    have hold : onEnd e id (.vfs inode offset cloexec) = 0 := rfl
    have hnew : onEnd e id (.vfs inode' offset' cloexec') = 0 := rfl
    simp only [descriptors, inHand_nil]
    omega
  shape := by
    refine hs.shape.setFile (hs.shape.range pid fd _ hf) ?_
    intro _ _ _ e _ id _ he
    cases he

/-! ### Reads and writes of a pipe -/

section Ends

variable {nonblocking : Bool} {pipe : PipeState}

theorem readForPid_pipeRead
    (hf : s.lookup pid fd = some (.pipeRead id nonblocking cloexec))
    (hp : s.pipes.get? id = some pipe) (hlen : len ≠ 0) :
    s.readForPid v pid fd len =
      if pipe.data = [] then (if pipe.writers = 0 then .ok [] else .error .EAGAIN, s)
      else (.ok (popFront len pipe.data).1, s.setPipeData id pipe (popFront len pipe.data).2) := by
  simp only [readForPid, hf, if_neg hlen, hp]
  have hnil : (popFront len pipe.data).1 = [] ↔ pipe.data = [] := popFront_eq_nil hlen
  generalize popFront len pipe.data = popped at hnil
  obtain ⟨bytes, rest⟩ := popped
  cases bytes with
  | nil =>
    rw [if_pos (hnil.1 rfl)]
    by_cases hwriters : pipe.writers = 0 <;> simp only [hwriters, if_true, if_false]
  | cons byte bytes => rw [if_neg fun h => nomatch hnil.2 h]

theorem writeForPid_pipeWrite (hf : s.lookup pid fd = some (.pipeWrite id nonblocking cloexec))
    (hp : s.pipes.get? id = some pipe) (hdata : data ≠ []) :
    s.writeForPid pid fd data =
      if pipe.readers = 0 then (.error .EPIPE, s)
      else (.ok data.length, s.setPipeData id pipe (pipe.data ++ data)) := by
  simp only [writeForPid, hf, if_neg hdata, hp]

end Ends

/-! ### Runs -/

/-- The state with what went through one pipe so far. -/
structure Stream where
  fs : FsState
  received : List UInt8
  sent : List UInt8

/-- A call on descriptors by some process. -/
inductive StreamOp
  | read (pid : ProcessId) (fd : Int32) (len : ℕ)
  | write (pid : ProcessId) (fd : Int32) (data : List UInt8)
  | dup (pid : ProcessId) (oldfd minNewfd : Int32) (cloexec : Bool)
  | dup2 (pid : ProcessId) (oldfd newfd : Int32) (cloexec : Bool)
  | close (pid : ProcessId) (fd : Int32)
  | poll (pid : ProcessId) (fd : Int32) (events : UInt16)

/-- The bytes that a read returns, if it is a read of the pipe. -/
def receivedBy (id : ℕ) : Option OpenFile → Except Errno (List UInt8) → List UInt8
  | some (.pipeRead i _ _), .ok bytes => if i = id then bytes else []
  | _, _ => []

/-- The bytes of a write that was accepted, if it is a write to the pipe. -/
def sentBy (id : ℕ) : Option OpenFile → List UInt8 → Except Errno ℕ → List UInt8
  | some (.pipeWrite i _ _), data, .ok _ => if i = id then data else []
  | _, _, _ => []

/-- One call, with the record for the pipe `id`; `none` if it does not return. -/
def Stream.call (id : ℕ) (st : Stream) : StreamOp → Option Stream
  | .read pid fd len =>
    let r := st.fs.readForPid v pid fd.toInt len
    some { st with
      fs := r.2
      received := st.received ++ receivedBy id (st.fs.lookup pid fd.toInt) r.1 }
  | .write pid fd data =>
    let r := st.fs.writeForPid pid fd.toInt data
    some { st with
      fs := r.2
      sent := st.sent ++ sentBy id (st.fs.lookup pid fd.toInt) data r.1 }
  | .dup pid oldfd minNewfd cloexec =>
    (st.fs.dupForPid pid oldfd.toInt minNewfd.toInt cloexec).map fun r => { st with fs := r.2 }
  | .dup2 pid oldfd newfd cloexec =>
    some { st with fs := (st.fs.dup2ForPid pid oldfd.toInt newfd.toInt cloexec).2 }
  | .close pid fd => some { st with fs := (st.fs.closeForPid pid fd.toInt).2 }
  | .poll _ _ _ => some st

/-- `dup2` leaves the numbers of the terminal alone. -/
def OffTerminal (_ : Stream) : StreamOp → Prop
  | .dup2 _ _ newfd _ => newfd ≠ 0 ∧ newfd ≠ 1 ∧ newfd ≠ 2
  | _ => True

instance (st : Stream) : (a : StreamOp) → Decidable (OffTerminal st a)
  | .dup2 _ _ newfd _ => inferInstanceAs (Decidable (newfd ≠ 0 ∧ newfd ≠ 1 ∧ newfd ≠ 2))
  | .read .. | .write .. | .dup .. | .close .. | .poll .. => .isTrue trivial

/-- What holds between two calls: while the pipe is there, the bytes read from
it and those still in it are the bytes written, and its ends are not under the
numbers of the terminal. -/
structure StreamInv (id : ℕ) (st : Stream) : Prop where
  inv : PipeInv st.fs
  above : ∀ pid fd f e, st.fs.lookup pid fd = some f → onEnd e id f = 1 → firstUserFd ≤ fd
  flow : ∀ p, st.fs.pipes.get? id = some p → st.received ++ p.data = st.sent

namespace StreamInv

variable {st : Stream}

section

variable (h : StreamInv id st)

include h

theorem keep (hinv : PipeInv s')
    (habove : ∀ pid fd f e, s'.lookup pid fd = some f → onEnd e id f = 1 → firstUserFd ≤ fd)
    (hdata : KeepsData st.fs s') : StreamInv id { st with fs := s' } := by
  refine ⟨hinv, habove, fun p' hp' => ?_⟩
  obtain ⟨p, hp, heq⟩ := hdata id p' hp'
  rw [← heq]
  exact h.flow p hp

theorem close (pid : ProcessId) (fd : ℤ) :
    StreamInv id { st with fs := (st.fs.closeForPid pid fd).2 } := by
  refine h.keep (closeForPid_inv pid fd h.inv) (fun pid' fd' f e hf he => ?_)
    (.closeForPid st.fs pid fd)
  rw [lookup_closeForPid] at hf
  split at hf
  · cases hf
  · exact h.above pid' fd' f e hf he

theorem dup {oldfd minNewfd : ℤ} {r : Except Errno ℤ}
    (hmin : minNewfd ≤ i32Max) (hcall : st.fs.dupForPid pid oldfd minNewfd cloexec = some (r, s')) :
    StreamInv id { st with fs := s' } := by
  have hinv := dupForPid_inv h.inv hmin hcall
  unfold dupForPid at hcall
  cases hold : st.fs.lookup pid oldfd with
  | none =>
    rw [hold] at hcall
    cases hcall
    exact h
  | some old =>
    rw [hold] at hcall
    simp only at hcall
    split at hcall
    · cases hcall
    rename_i fd s1 halloc
    cases hcall
    have hsame := openFiles_duplicateOpenFile st.fs (old.setCloexec cloexec)
    refine h.keep hinv (fun pid' fd' f e hf he => ?_) ?_
    · rw [lookup_setFile] at hf
      split at hf
      · -- the new number is at or above the first one of users
        rename_i heq
        obtain ⟨-, hstart, -⟩ := allocFdFrom_inv halloc
        have hge : max minNewfd firstUserFd ≤ fd := le_trans (le_max_right _ _) hstart
        rw [heq.2]
        exact le_trans (le_max_right _ _) hge
      · rw [lookup_allocFdFrom halloc, lookup_eq_of_openFiles hsame.1] at hf
        exact h.above pid' fd' f e hf he
    · refine (KeepsData.duplicateOpenFile st.fs (old.setCloexec cloexec)).trans (.of_eq ?_)
      rw [(allocFdFrom_inv halloc).1]
      rfl

theorem dup2 {oldfd newfd : ℤ} (hmax : newfd ≤ i32Max) (hoff : 0 ≤ newfd → firstUserFd ≤ newfd) :
    StreamInv id { st with fs := (st.fs.dup2ForPid pid oldfd newfd cloexec).2 } := by
  have hinv : PipeInv (st.fs.dup2ForPid pid oldfd newfd cloexec).2 :=
    dup2ForPid_inv cloexec h.inv hmax
  unfold dup2ForPid at hinv ⊢
  by_cases hneg : newfd < 0
  · rw [if_pos hneg]
    exact h
  rw [if_neg hneg] at hinv ⊢
  cases hold : st.fs.lookup pid oldfd with
  | none => exact h
  | some old =>
    simp only [hold] at hinv ⊢
    by_cases hsame : oldfd = newfd
    · rw [if_pos hsame]
      exact h
    rw [if_neg hsame] at hinv ⊢
    have hclose := h.close pid newfd
    have htables := openFiles_duplicateOpenFile (st.fs.closeForPid pid newfd).2
      (old.setCloexec cloexec)
    refine h.keep hinv (fun pid' fd' f e hf he => ?_) ?_
    · have hf : (((st.fs.closeForPid pid newfd).2.duplicateOpenFile
          (old.setCloexec cloexec)).setFile pid newfd (old.setCloexec cloexec)).lookup pid' fd' =
            some f := hf
      rw [lookup_setFile] at hf
      split at hf
      · rename_i heq
        rw [heq.2]
        exact hoff (not_lt.1 hneg)
      · rw [lookup_eq_of_openFiles htables.1] at hf
        exact hclose.above pid' fd' f e hf he
    · exact ((KeepsData.closeForPid st.fs pid newfd).trans (.duplicateOpenFile _ _)).trans
        (.of_eq rfl)

theorem setData {i : ℕ} {pipe : PipeState} {data received sent : List UInt8}
    (hp : st.fs.pipes.get? i = some pipe)
    (hself : i = id → st.received ++ pipe.data = st.sent → received ++ data = sent)
    (hother : i ≠ id → received = st.received ∧ sent = st.sent) :
    StreamInv id ⟨st.fs.setPipeData i pipe data, received, sent⟩ := by
  refine ⟨h.inv.setPipeData hp _, h.above, fun p' hp' => ?_⟩
  simp only [setPipeData, get?_insert] at hp'
  by_cases hid : i = id
  · rw [if_pos hid.symm] at hp'
    cases hp'
    exact hself hid (h.flow pipe (hid ▸ hp))
  · rw [if_neg (Ne.symm hid)] at hp'
    obtain ⟨rfl, rfl⟩ := hother hid
    exact h.flow p' hp'

theorem read (pid : ProcessId) (fd : ℤ) (len : ℕ) :
    StreamInv id { st with
      fs := (st.fs.readForPid v pid fd len).2
      received := st.received ++
        receivedBy id (st.fs.lookup pid fd) (st.fs.readForPid v pid fd len).1 } := by
  cases hf : st.fs.lookup pid fd with
  | none =>
    simp only [readForPid, hf, receivedBy, List.append_nil]
    exact h
  | some file =>
    by_cases hlen : len = 0
    · have hnil : receivedBy id (some file) (.ok []) = [] := by
        cases file <;> simp [receivedBy]
      simp only [readForPid, hf, if_pos hlen, hnil, List.append_nil]
      exact h
    cases file with
    | dir | pipeWrite =>
      simp only [readForPid, hf, if_neg hlen, receivedBy, List.append_nil]
      exact h
    | vfs inode offset cloexec =>
      simp only [readForPid, hf, if_neg hlen, receivedBy, List.append_nil]
      split
      · exact h
      refine h.keep (h.inv.setVfs hf) (fun pid' fd' f e hf' he => ?_) (.of_eq rfl)
      rw [lookup_setFile] at hf'
      split at hf'
      · cases hf'
        cases he
      · exact h.above pid' fd' f e hf' he
    | pipeRead i nonblocking cloexec =>
      have hend : onEnd .read i (.pipeRead i nonblocking cloexec) = 1 := by simp [onEnd]
      obtain ⟨pipe, hp, -⟩ := h.inv.pipe_of_lookup hf hend
      rw [readForPid_pipeRead v hf hp hlen]
      split
      · -- nothing is queued, so nothing is returned
        have hnil : receivedBy id (some (.pipeRead i nonblocking cloexec))
            (if pipe.writers = 0 then .ok [] else .error .EAGAIN) = [] := by
          split <;> simp [receivedBy]
        simp only [hnil, List.append_nil]
        exact h
      refine h.setData hp (fun hid hflow => ?_) fun hid => ⟨?_, rfl⟩
      · simp only [receivedBy, if_pos hid]
        rw [List.append_assoc, popFront_append, hflow]
      · simp only [receivedBy, if_neg hid, List.append_nil]

theorem write (pid : ProcessId) (fd : ℤ) (data : List UInt8) :
    StreamInv id { st with
      fs := (st.fs.writeForPid pid fd data).2
      sent := st.sent ++
        sentBy id (st.fs.lookup pid fd) data (st.fs.writeForPid pid fd data).1 } := by
  cases hf : st.fs.lookup pid fd with
  | none =>
    simp only [writeForPid, hf, sentBy, List.append_nil]
    exact h
  | some file =>
    by_cases hdata : data = []
    · have hnil : ∀ r, sentBy id (some file) data r = [] := by
        intro r
        subst hdata
        unfold sentBy
        split <;> simp
      simp only [writeForPid, hf, if_pos hdata, hnil, List.append_nil]
      exact h
    cases file with
    | vfs | dir | pipeRead =>
      simp only [writeForPid, hf, if_neg hdata, sentBy, List.append_nil]
      exact h
    | pipeWrite i nonblocking cloexec =>
      have hend : onEnd .write i (.pipeWrite i nonblocking cloexec) = 1 := by simp [onEnd]
      obtain ⟨pipe, hp, -⟩ := h.inv.pipe_of_lookup hf hend
      rw [writeForPid_pipeWrite hf hp hdata]
      split
      · simp only [sentBy, List.append_nil]
        exact h
      refine h.setData hp (fun hid hflow => ?_) fun hid => ⟨rfl, ?_⟩
      · simp only [sentBy, if_pos hid]
        rw [← List.append_assoc, hflow]
      · simp only [sentBy, if_neg hid, List.append_nil]

end

end StreamInv

theorem streamCall_inv {v : VfsFiles} {st st' : Stream} {a : StreamOp} (h : StreamInv id st)
    (hok : OffTerminal st a) (hcall : ofPartial (Stream.call v id) st a st') :
    StreamInv id st' := by
  unfold ofPartial Stream.call at hcall
  cases a with
  | read pid fd len =>
    cases hcall
    exact h.read v pid fd.toInt len
  | write pid fd data =>
    cases hcall
    exact h.write pid fd.toInt data
  | dup pid oldfd minNewfd cloexec =>
    obtain ⟨⟨r, s'⟩, hdup, rfl⟩ := Option.map_eq_some_iff.1 hcall
    exact h.dup (toInt_le_i32Max _) hdup
  | dup2 pid oldfd newfd cloexec =>
    cases hcall
    refine h.dup2 (toInt_le_i32Max _) fun hnonneg => ?_
    obtain ⟨h0, h1, h2⟩ := hok
    have hne : ∀ x : Int32, newfd ≠ x → newfd.toInt ≠ x.toInt := fun x hx heq =>
      hx (Int32.toInt_inj.1 heq)
    have h0 := hne 0 h0
    have h1 := hne 1 h1
    have h2 := hne 2 h2
    simp only [firstUserFd]
    have e0 : (0 : Int32).toInt = 0 := rfl
    have e1 : (1 : Int32).toInt = 1 := rfl
    have e2 : (2 : Int32).toInt = 2 := rfl
    omega
  | close pid fd =>
    cases hcall
    exact h.close pid fd.toInt
  | poll pid fd events =>
    cases hcall
    exact h

/-- A new pipe: its ends are the only ones, and it is empty. -/
theorem streamInv_pipe2 {flags : UInt32} {ends : ℤ × ℤ} (hs : PipeInv s) (hok : Pipe2Ok s pid)
    (h : s.pipe2ForPid pid flags = some (.ok ends, s')) : StreamInv s.nextPipeId ⟨s', [], []⟩ := by
  have hinv := pipe2ForPid_inv hs (.inr hok) h
  unfold pipe2ForPid at h
  split at h
  · cases h
  simp only at h
  split at h
  · cases h
  rename_i readFd s2 hread
  split at h
  · cases h
  rename_i writeFd s3 hwrite
  cases h
  have hstart : ∀ {s s1 : FsState} {fd : ℤ}, s.allocFd pid = some (fd, s1) → firstUserFd ≤ fd := by
    intro s s1 fd halloc
    obtain ⟨-, hle, -⟩ := allocFdFrom_inv halloc
    exact le_trans (le_max_right _ _) (le_trans (le_max_right _ _) hle)
  refine ⟨hinv, fun pid' fd f e hf he => ?_, fun p hp => ?_⟩
  · have hf : ((s3.setFile pid readFd _).setFile pid writeFd _).lookup pid' fd = some f := hf
    rw [lookup_setFile] at hf
    split at hf
    · rename_i heq
      rw [heq.2]
      exact hstart hwrite
    rw [lookup_setFile] at hf
    split at hf
    · rename_i heq
      rw [heq.2]
      exact hstart hread
    -- nothing referred to the pipe before
    rw [lookup_allocFdFrom hwrite, lookup_allocFdFrom hread] at hf
    have hf : s.lookup pid' fd = some f := hf
    rw [hs.accounted.unused hok.fresh hf e] at he
    cases he
  · simp only [get?_insert_self] at hp
    cases hp
    rfl

/-! ### What the calls answer -/

/-- A bit that is asked for is reported exactly if it holds. -/
theorem report_eq {bit : UInt16} (hbit : events &&& bit ≠ 0) (cond : Bool) :
    report events bit cond = if cond then bit else 0 := by
  simp [report, hbit]

/-- The stream semantics of the pipe `id`. -/
structure StreamSpec (v : VfsFiles) (id : ℕ) (st : Stream) : Prop where
  bytes : (∃ e, st.fs.EndOpen e id) → st.received ++ st.fs.queue id = st.sent
  read_nothing : ∀ pid fd nonblocking cloexec len,
    st.fs.lookup pid fd = some (.pipeRead id nonblocking cloexec) → len ≠ 0 →
    (st.fs.readForPid v pid fd len).1 = .ok [] → st.fs.queue id = [] ∧ ¬ st.fs.EndOpen .write id
  read_again : ∀ pid fd nonblocking cloexec len,
    st.fs.lookup pid fd = some (.pipeRead id nonblocking cloexec) → len ≠ 0 →
    (st.fs.readForPid v pid fd len).1 = .error .EAGAIN →
      st.fs.queue id = [] ∧ st.fs.EndOpen .write id
  write_refused : ∀ pid fd nonblocking cloexec data,
    st.fs.lookup pid fd = some (.pipeWrite id nonblocking cloexec) → data ≠ [] →
    ((st.fs.writeForPid pid fd data).1 = .error .EPIPE ↔ ¬ st.fs.EndOpen .read id)
  poll_readable : ∀ pid fd nonblocking cloexec events serialHasInput len,
    st.fs.lookup pid fd = some (.pipeRead id nonblocking cloexec) → events &&& POLLIN ≠ 0 →
    len ≠ 0 → ∃ revents, st.fs.pollReventsForPid v serialHasInput pid fd events = .ok revents ∧
      (revents &&& POLLIN ≠ 0 ↔ (st.fs.readForPid v pid fd len).1 ≠ .error .EAGAIN)
  poll_writable : ∀ pid fd f e events serialHasInput data,
    st.fs.lookup pid fd = some f → onEnd e id f = 1 → events &&& POLLOUT ≠ 0 →
    data ≠ [] → ∃ revents, st.fs.pollReventsForPid v serialHasInput pid fd events = .ok revents ∧
      (revents &&& POLLOUT ≠ 0 ↔ ∃ n, (st.fs.writeForPid pid fd data).1 = .ok n)

namespace StreamInv

variable {v : VfsFiles} {st : Stream}

variable {f : OpenFile}

/-- The pipe of a descriptor, with what its counts say. -/
theorem pipe (h : StreamInv id st) (hf : st.fs.lookup pid fd = some f) (he : onEnd e id f = 1) :
    ∃ p, st.fs.pipes.get? id = some p ∧ st.fs.queue id = p.data ∧
      (p.readers = 0 ↔ ¬ st.fs.EndOpen .read id) ∧
      (p.writers = 0 ↔ ¬ st.fs.EndOpen .write id) := by
  obtain ⟨p, hp, -⟩ := h.inv.pipe_of_lookup hf he
  refine ⟨p, hp, ?_, h.inv.count_eq_zero hp .read, h.inv.count_eq_zero hp .write⟩
  rw [queue, hp, Option.map_some, Option.getD_some]

theorem poll_fd (h : StreamInv id st) (hf : st.fs.lookup pid fd = some f) (he : onEnd e id f = 1) :
    ¬ fd < 0 ∧ ¬ fd ≤ 2 := by
  have habove := h.above pid fd f e hf he
  simp only [firstUserFd] at habove
  omega

theorem poll_readable (h : StreamInv id st) {nonblocking : Bool} (serialHasInput : Bool)
    (hf : st.fs.lookup pid fd = some (.pipeRead id nonblocking cloexec))
    (hevents : events &&& POLLIN ≠ 0) (hlen : len ≠ 0) :
    ∃ revents, st.fs.pollReventsForPid v serialHasInput pid fd events = .ok revents ∧
      (revents &&& POLLIN ≠ 0 ↔ (st.fs.readForPid v pid fd len).1 ≠ .error .EAGAIN) := by
  have hend : onEnd .read id (.pipeRead id nonblocking cloexec) = 1 := by simp [onEnd]
  obtain ⟨p, hp, -⟩ := h.pipe hf hend
  obtain ⟨hneg, htty⟩ := h.poll_fd hf hend
  simp only [pollReventsForPid, if_neg hneg, if_neg htty, hf, hp]
  refine ⟨_, rfl, ?_⟩
  rw [readForPid_pipeRead v hf hp hlen, report_eq hevents]
  by_cases hdata : p.data = [] <;> by_cases hwriters : p.writers = 0 <;>
    simp [hdata, hwriters] <;> decide

theorem poll_writable (h : StreamInv id st) (serialHasInput : Bool)
    (hf : st.fs.lookup pid fd = some f) (he : onEnd e id f = 1) (hevents : events &&& POLLOUT ≠ 0)
    (hdata : data ≠ []) :
    ∃ revents, st.fs.pollReventsForPid v serialHasInput pid fd events = .ok revents ∧
      (revents &&& POLLOUT ≠ 0 ↔ ∃ n, (st.fs.writeForPid pid fd data).1 = .ok n) := by
  obtain ⟨p, hp, -⟩ := h.pipe hf he
  obtain ⟨hneg, htty⟩ := h.poll_fd hf he
  have hid : ∀ i, onEnd e id (.pipeRead i true true) = 1 ∨ onEnd e id (.pipeWrite i true true) = 1 →
      i = id := by
    intro i hi
    cases e <;> simp [onEnd] at hi <;> exact hi
  cases f with
  | vfs | dir => cases he
  | pipeRead i nonblocking cloexec =>
    obtain rfl : i = id := hid i (.inl he)
    -- a read end is never reported writable, and a write to it is refused
    simp only [pollReventsForPid, if_neg hneg, if_neg htty, hf, hp]
    refine ⟨_, rfl, ?_⟩
    simp only [writeForPid, hf, if_neg hdata, reduceCtorEq, exists_false, iff_false, not_not]
    unfold report
    split <;> split <;> decide
  | pipeWrite i nonblocking cloexec =>
    obtain rfl : i = id := hid i (.inr he)
    simp only [pollReventsForPid, if_neg hneg, if_neg htty, hf, hp]
    rw [writeForPid_pipeWrite hf hp hdata, report_eq hevents]
    by_cases hreaders : p.readers = 0
    · simp only [if_pos hreaders]
      refine ⟨_, rfl, ?_⟩
      simp only [reduceCtorEq, exists_false, iff_false, not_not]
      decide
    simp only [if_neg hreaders]
    refine ⟨_, rfl, ?_⟩
    simp only [Except.ok.injEq, exists_eq', iff_true]
    decide

theorem spec (h : StreamInv id st) : StreamSpec v id st where
  bytes := by
    rintro ⟨e, pid, fd, f, hf, he⟩
    obtain ⟨p, hp, hqueue, -⟩ := h.pipe hf he
    rw [hqueue]
    exact h.flow p hp
  read_nothing := by
    intro pid fd nonblocking cloexec len hf hlen hread
    obtain ⟨p, hp, hqueue, -, hwriters⟩ := h.pipe hf (e := .read) (by simp [onEnd])
    rw [readForPid_pipeRead v hf hp hlen] at hread
    rw [hqueue, ← hwriters]
    split at hread
    · rename_i hnil
      refine ⟨hnil, ?_⟩
      by_contra hne
      rw [if_neg hne] at hread
      cases hread
    · rename_i hne
      exact absurd ((popFront_eq_nil hlen).1 (Except.ok.inj hread)) hne
  read_again := by
    intro pid fd nonblocking cloexec len hf hlen hread
    obtain ⟨p, hp, hqueue, -, hwriters⟩ := h.pipe hf (e := .read) (by simp [onEnd])
    rw [readForPid_pipeRead v hf hp hlen] at hread
    rw [hqueue]
    split at hread
    · rename_i hnil
      refine ⟨hnil, ?_⟩
      by_contra hclosed
      rw [if_pos (hwriters.2 hclosed)] at hread
      cases hread
    · cases hread
  write_refused := by
    intro pid fd nonblocking cloexec data hf hdata
    obtain ⟨p, hp, -, hreaders, -⟩ := h.pipe hf (e := .write) (by simp [onEnd])
    rw [writeForPid_pipeWrite hf hp hdata, ← hreaders]
    by_cases hzero : p.readers = 0 <;> simp [hzero]
  poll_readable _ _ _ _ _ serialHasInput _ hf hevents hlen :=
    h.poll_readable serialHasInput hf hevents hlen
  poll_writable _ _ _ _ _ serialHasInput _ hf he hevents hdata :=
    h.poll_writable serialHasInput hf he hevents hdata

end StreamInv

/-- A file system without regular files. -/
def noFiles : VfsFiles := ⟨fun _ _ _ => .error .ENOENT, fun _ => none, fun _ => none⟩

/-- The first pipe of process 1. -/
def firstPipe : FsState := ((FsState.new.pipe2ForPid 1 0).map (·.2)).getD .new

theorem firstPipe_eq : FsState.new.pipe2ForPid 1 0 = some (.ok (3, 4), firstPipe) := by
  have hends : (FsState.new.pipe2ForPid 1 0).map (·.1.toOption) = some (some (3, 4)) := by
    decide
  unfold firstPipe
  generalize FsState.new.pipe2ForPid 1 0 = res at hends ⊢
  obtain _ | ⟨_ | ends, s⟩ := res
  · cases hends
  · cases hends
  · cases hends
    rfl

end JanuaryOs.Fs

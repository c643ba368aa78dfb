import JanuaryOs.Fs.PipeStream

/-!
# `sys_read` and `sys_write` on buffers that can be accessed (`fs/syscall/file.rs`)

Both look at the number of a descriptor before they look at the table, and
`poll_revents_for_pid` does so too: 0 to 2 are the terminal, whatever `dup2` has
put there. Only from 3 on does a descriptor lead to its table entry.
-/

namespace JanuaryOs.Fs

open FsState

/-- The terminal: the bytes typed and not read yet, and the bytes printed. -/
structure Terminal where
  input : List UInt8
  console : List UInt8

/-- `READ_IO_MAX` and `WRITE_IO_MAX`. -/
def ioMax : ℕ := 64 * 1024

namespace OpenFile

/-- `fd_is_nonblocking_for_pid`. -/
def nonblocking : OpenFile → Bool
  | .vfs _ _ _ | .dir _ _ _ => false
  | .pipeRead _ b _ | .pipeWrite _ b _ => b

/-- The same file, directory or end of a pipe; positions and flags may differ. -/
def SameFile : OpenFile → OpenFile → Prop
  | .vfs i _ _, .vfs j _ _ | .dir i _ _, .dir j _ _ => i = j
  | .pipeRead i _ _, .pipeRead j _ _ | .pipeWrite i _ _, .pipeWrite j _ _ => i = j
  | _, _ => False

end OpenFile

namespace FsState

variable (v : VfsFiles) (s : FsState) (tty : Terminal) (pid : ProcessId) (fd : ℤ)

/-- The loop of `sys_read` around `read_for_pid`, up to the first wait, where
the answer is `none`. -/
def readLoop (count : ℕ) : Option (Except Errno (List UInt8)) × FsState :=
  match s.lookup pid fd with
  | none => (some (.error .EBADF), s)
  | some f =>
    let r := s.readForPid v pid fd (min count ioMax)
    (if r.1 = .error .EAGAIN ∧ f.nonblocking = false then none else some r.1, r.2)

def sysRead (count : ℕ) : Option (Except Errno (List UInt8)) × FsState × Terminal :=
  if fd < 0 then (some (.error .EBADF), s, tty)
  else if count = 0 then (some (.ok []), s, tty)
  else if fd = 0 then
    match tty.input with
    | [] => (none, s, tty)
    | byte :: rest =>
      -- `read_tty_byte` turns a carriage return into a line feed
      (some (.ok [if byte = 13 then 10 else byte]), s, { tty with input := rest })
  else
    let r := s.readLoop v pid fd count
    (r.1, r.2, tty)

def sysWrite (data : List UInt8) : Except Errno ℕ × FsState × Terminal :=
  if fd < 0 then (.error .EBADF, s, tty)
  else if data = [] then (.ok 0, s, tty)
  else
    let tmp := data.take ioMax
    if fd = 1 ∨ fd = 2 then (.ok tmp.length, s, { tty with console := tty.console ++ tmp })
    else
      let r := s.writeForPid pid fd tmp
      (r.1, r.2, tty)

/-- Calls on a descriptor go to its table entry and not to the terminal; a poll
answers as if the entry were under the first number after the terminal's. -/
structure OnEntry : Prop where
  read : ∀ tty, ∀ count ≠ 0, s.sysRead v tty pid fd count =
    ((s.readLoop v pid fd count).1, (s.readLoop v pid fd count).2, tty)
  write : ∀ tty, ∀ data ≠ [], s.sysWrite tty pid fd data =
    ((s.writeForPid pid fd (data.take ioMax)).1, (s.writeForPid pid fd (data.take ioMax)).2, tty)
  poll : ∀ f ∈ s.lookup pid fd, ∀ serialHasInput events,
    s.pollReventsForPid v serialHasInput pid fd events =
      (s.setFile pid firstUserFd f).pollReventsForPid v serialHasInput pid firstUserFd events

end FsState

variable {v : VfsFiles} {s s' : FsState} {pid : ProcessId} {fd oldfd newfd r : ℤ} {cloexec : Bool}

theorem setCloexec_self (f : OpenFile) : ∃ c, f.setCloexec c = f := by
  cases f <;> exact ⟨_, rfl⟩

theorem lookup_dup2ForPid (h : s.dup2ForPid pid oldfd newfd cloexec = (.ok r, s')) :
    0 ≤ newfd ∧ ∃ f c, s.lookup pid oldfd = some f ∧
      ∀ x, s'.lookup pid x = if x = newfd then some (f.setCloexec c) else s.lookup pid x := by
  unfold dup2ForPid at h
  split at h
  · cases h
  rename_i hnew
  refine ⟨not_lt.1 hnew, ?_⟩
  cases hold : s.lookup pid oldfd with
  | none =>
    rw [hold] at h
    cases h
  | some f =>
    simp only [hold] at h
    split at h
    · rename_i heq
      obtain ⟨c, hc⟩ := setCloexec_self f
      cases h
      refine ⟨f, c, rfl, fun x => ?_⟩
      split
      · rw [hc, ← hold, ‹x = _›, heq]
      · rfl
    · cases h
      refine ⟨f, cloexec, rfl, fun x => (lookup_setFile _ _ _ _ _ _).trans ?_⟩
      rw [lookup_eq_of_openFiles (openFiles_duplicateOpenFile _ _).1, lookup_closeForPid]
      simp only [true_and]
      split <;> rfl

theorem onEntry_of_le (hfd : firstUserFd ≤ fd) (s : FsState) : s.OnEntry v pid fd := by
  have h3 : 3 ≤ fd := hfd
  refine ⟨fun tty count hcount => ?_, fun tty data hdata => ?_, fun f hf input events => ?_⟩
  · rw [sysRead, if_neg (by omega), if_neg hcount, if_neg (by omega)]
  · rw [sysWrite, if_neg (by omega), if_neg hdata, if_neg (by omega)]
  · have hfirst : (s.setFile pid firstUserFd f).lookup pid firstUserFd = some f := by
      simp [lookup_setFile]
    rw [pollReventsForPid, pollReventsForPid, if_neg (by omega), if_neg (by omega),
      if_neg (by decide), if_neg (by decide), Option.mem_def.1 hf, hfirst]
    rfl

/-- After `dup2` the new descriptor has the file of the old one. The calls on it
go to that file, as long as the descriptor has it, exactly if its number is not
one of the terminal's. -/
theorem redirected_iff (h : s.dup2ForPid pid oldfd newfd cloexec = (.ok r, s')) :
    ∃ f f', s.lookup pid oldfd = some f ∧ s'.lookup pid newfd = some f' ∧ f.SameFile f' ∧
      ((∀ t : FsState, ∀ g ∈ t.lookup pid newfd, f.SameFile g → t.OnEntry v pid newfd) ↔
        firstUserFd ≤ newfd) := by
  obtain ⟨hpos, f, c, hf, hall⟩ := lookup_dup2ForPid h
  have hf' := (hall newfd).trans (if_pos rfl)
  have hsame : f.SameFile (f.setCloexec c) := by cases f <;> rfl
  refine ⟨f, _, hf, hf', hsame, fun hall => ?_, fun hnew t g _ _ => onEntry_of_le hnew t⟩
  have hentry := hall s' _ hf' hsame
  by_contra hlow
  have hlt : newfd < 3 := not_le.1 hlow
  by_cases hzero : newfd = 0
  · -- a byte is taken from the terminal
    have hread := hentry.read ⟨[0], []⟩ 1 one_ne_zero
    rw [hzero] at hread
    cases congrArg (·.2.2.input) hread
  · have hwrite := hentry.write ⟨[], []⟩ [0] (List.cons_ne_nil _ _)
    rw [sysWrite, if_neg (by omega), if_neg (List.cons_ne_nil _ _), if_pos (by omega)] at hwrite
    cases congrArg (·.2.2.console) hwrite

/-- The read end of a pipe, under number 5. -/
theorem redirected_iff_five : ∃ s', firstPipe.dup2ForPid 1 3 5 false = (.ok 5, s') ∧
    s'.lookup 1 5 = some (.pipeRead 1 false false) ∧ s'.OnEntry noFiles 1 5 := by
  have hdup : firstPipe.dup2ForPid 1 3 5 false = (.ok 5, _) := rfl
  obtain ⟨f, f', -, hf', hsame, hiff⟩ := redirected_iff (v := noFiles) hdup
  exact ⟨_, hdup, by decide, hiff.2 (by decide) _ f' hf' hsame⟩

/-- A read of a descriptor that was redirected to a pipe takes a byte from the
terminal. -/
theorem read_of_redirected_stdin : ∃ s s', FsState.new.pipe2ForPid 1 0 = some (.ok (3, 4), s) ∧
    s.dup2ForPid 1 3 0 false = (.ok 0, s') ∧ s'.lookup 1 0 = some (.pipeRead 1 false false) ∧
    s'.sysRead noFiles ⟨[7], []⟩ 1 0 1 = (some (.ok [7]), s', ⟨[], []⟩) :=
  ⟨_, _, rfl, rfl, by decide, rfl⟩

end JanuaryOs.Fs

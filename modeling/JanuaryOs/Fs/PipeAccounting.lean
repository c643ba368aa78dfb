import JanuaryOs.Fs.Descriptor
import JanuaryOs.Lib.Trace

/-!
# The reader and writer counts of a pipe against the descriptors that refer to it

Descriptors are created, copied and dropped in several orders, and in between
the counts and the tables disagree by the descriptors a call has in hand.
`Accounted s pending` states the agreement with those in hand on a list: raising
a count puts a descriptor on the list, storing it in a table takes it off, and
closing goes the other way. A call starts and ends with nothing in hand, so
`Accounted s []` is the invariant of a run.

`Shape` bounds the counts: a pipe's descriptors all live in one table, whose
keys are nonnegative `i32`s, so the saturating additions never saturate.
-/

namespace JanuaryOs.Fs

open Lib FsState OrdMap

/-! ### Counting descriptors -/

inductive PipeEnd
  | read
  | write
  deriving Repr, DecidableEq

/-- The count kept for an end. -/
def PipeState.count (p : PipeState) : PipeEnd → ℕ
  | .read => p.readers
  | .write => p.writers

variable (e : PipeEnd)

/-- One if the open file is end `e` of pipe `id`. -/
def onEnd (id : ℕ) : OpenFile → ℕ
  | .pipeRead i _ _ => if e = .read ∧ i = id then 1 else 0
  | .pipeWrite i _ _ => if e = .write ∧ i = id then 1 else 0
  | .vfs _ _ _ => 0
  | .dir _ _ _ => 0

/-- The weight of all descriptors of all processes. -/
def FsState.weigh (s : FsState) (w : OpenFile → ℕ) : ℕ :=
  s.openFiles.sum fun _ table => table.sum fun _ f => w f

/-- The number of descriptors, over all tables, that are end `e` of pipe `id`. -/
def FsState.descriptors (s : FsState) (e : PipeEnd) (id : ℕ) : ℕ := s.weigh (onEnd e id)

theorem onEnd_le_one (id : ℕ) (f : OpenFile) : onEnd e id f ≤ 1 := by
  cases f <;> simp only [onEnd] <;> first | split <;> omega | omega

@[simp] theorem onEnd_setCloexec (id : ℕ) (b : Bool) (f : OpenFile) :
    onEnd e id (f.setCloexec b) = onEnd e id f := by
  cases f <;> rfl

section Weigh

variable (s : FsState) (w : OpenFile → ℕ) (pid : ProcessId) (fd : ℤ) (f : OpenFile)

theorem sum_tableOf :
    (s.openFiles.get? pid).elim 0 (fun t => t.sum fun _ f => w f)
      = (s.tableOf pid).sum fun _ f => w f := by
  unfold tableOf
  cases s.openFiles.get? pid <;> rfl

theorem weigh_setFile :
    (s.setFile pid fd f).weigh w + (s.lookup pid fd).elim 0 w = s.weigh w + w f := by
  have houter := s.openFiles.sum_insert (fun _ t => t.sum fun _ f => w f) pid
    ((s.tableOf pid).insert fd f)
  have hinner : ((s.tableOf pid).insert fd f).sum (fun _ f => w f)
      + ((s.tableOf pid).get? fd).elim 0 w = (s.tableOf pid).sum (fun _ f => w f) + w f :=
    sum_insert _ (fun _ f => w f) fd f
  rw [sum_tableOf] at houter
  simp only [weigh, setFile, lookup] at houter ⊢
  omega

theorem weigh_removeFile :
    (s.removeFile pid fd).weigh w + (s.lookup pid fd).elim 0 w = s.weigh w := by
  unfold removeFile lookup weigh tableOf OrdMap.modify
  cases htable : s.openFiles.get? pid with
  | none => simp
  | some t =>
    have houter := s.openFiles.sum_insert (fun _ t => t.sum fun _ f => w f) pid (t.erase fd)
    have hinner : (t.erase fd).sum (fun _ f => w f) + (t.get? fd).elim 0 w
        = t.sum fun _ f => w f := sum_erase t (fun _ f => w f) fd
    simp only [htable, Option.elim_some, Option.getD_some] at houter ⊢
    omega

theorem weigh_eraseTable (next : OrdMap ProcessId ℤ) (cwd : OrdMap ProcessId String) :
    FsState.weigh { s with openFiles := s.openFiles.erase pid, nextFd := next, cwd := cwd } w
      + (((s.tableOf pid).entries.map (·.2)).map w).sum = s.weigh w := by
  have houter := s.openFiles.sum_erase (fun _ t => t.sum fun _ f => w f) pid
  rw [sum_tableOf] at houter
  simp only [weigh, OrdMap.sum, sumKV, List.map_map] at houter ⊢
  exact houter

theorem weigh_pos_of_lookup {s : FsState} {w : OpenFile → ℕ} {pid : ProcessId} {fd : ℤ}
    {f : OpenFile} (h : s.lookup pid fd = some f) : w f ≤ s.weigh w := by
  have := weigh_removeFile s w pid fd
  rw [h, Option.elim_some] at this
  omega

end Weigh

/-! ### Counts with descriptors in hand -/

/-- How many of the files on a list are end `e` of pipe `id`. -/
def inHand (id : ℕ) (pending : List OpenFile) : ℕ := (pending.map (onEnd e id)).sum

@[simp] theorem inHand_nil (id : ℕ) : inHand e id [] = 0 := rfl

@[simp] theorem inHand_cons (id : ℕ) (f : OpenFile) (pending : List OpenFile) :
    inHand e id (f :: pending) = onEnd e id f + inHand e id pending := by
  simp [inHand]

/-- The counts of every pipe are its descriptors, stored and in hand, and a pipe
exists exactly while it has one. -/
structure Accounted (s : FsState) (pending : List OpenFile) : Prop where
  count : ∀ id p, s.pipes.get? id = some p → ∀ e,
    p.count e = s.descriptors e id + inHand e id pending
  absent : ∀ id, s.pipes.get? id = none → ∀ e, s.descriptors e id + inHand e id pending = 0
  used : ∀ id p, s.pipes.get? id = some p → ∃ e, p.count e ≠ 0

variable {s s' s1 : FsState} {pending pending' : List OpenFile} {id : ℕ} {pid : ProcessId}
  {fd minFd oldfd newfd : ℤ}
  {f : OpenFile} {r : Except Errno ℤ} {e : PipeEnd} {cloexec : Bool} {g : PipeState → PipeState}
  {flags : UInt32}

/-- The state of one pipe against the numbers of its descriptors. -/
def Fits (total : PipeEnd → ℕ) : Option PipeState → Prop
  | some p => (∀ e, p.count e = total e) ∧ ∃ e, p.count e ≠ 0
  | none => ∀ e, total e = 0

theorem accounted_iff : Accounted s pending ↔
    ∀ id, Fits (fun e => s.descriptors e id + inHand e id pending) (s.pipes.get? id) := by
  constructor
  · intro h id
    cases hp : s.pipes.get? id with
    | none => exact h.absent id hp
    | some p => exact ⟨h.count id p hp, h.used id p hp⟩
  · intro h
    have hsome : ∀ id p, s.pipes.get? id = some p → _ := fun id p hp => hp ▸ h id
    refine ⟨fun id p hp => (hsome id p hp).1, fun id hp => ?_, fun id p hp => (hsome id p hp).2⟩
    have := h id
    rwa [hp] at this

theorem Accounted.congr (h : Accounted s pending) (hpipes : s'.pipes = s.pipes)
    (htotal : ∀ e id, s'.descriptors e id + inHand e id pending' =
      s.descriptors e id + inHand e id pending) : Accounted s' pending' := by
  refine accounted_iff.2 fun id => ?_
  simp only [htotal, hpipes]
  exact accounted_iff.1 h id

/-- One pipe changes: the others keep their state and their descriptors in hand. -/
theorem Accounted.change (h : Accounted s pending) (id : ℕ) (hfiles : s'.openFiles = s.openFiles)
    (hpipes : ∀ id', id' ≠ id → s'.pipes.get? id' = s.pipes.get? id')
    (hother : ∀ id', id' ≠ id → ∀ e, inHand e id' pending' = inHand e id' pending)
    (hself : Fits (fun e => s.descriptors e id + inHand e id pending') (s'.pipes.get? id)) :
    Accounted s' pending' := by
  refine accounted_iff.2 fun id' => ?_
  have hdesc : ∀ e, s'.descriptors e id' = s.descriptors e id' := fun e => by
    simp only [descriptors, weigh, hfiles]
  simp only [hdesc]
  by_cases hne : id' = id
  · rw [hne]
    exact hself
  · simp only [hpipes id' hne, hother id' hne]
    exact accounted_iff.1 h id'

theorem accounted_setFile (h : Accounted s (f :: pending)) (hfree : s.lookup pid fd = none) :
    Accounted (s.setFile pid fd f) pending := by
  refine h.congr rfl fun e id => ?_
  have := weigh_setFile s (onEnd e id) pid fd f
  rw [hfree, Option.elim_none] at this
  simp only [descriptors, inHand_cons]
  omega

theorem accounted_removeFile (h : Accounted s pending) (hf : s.lookup pid fd = some f) :
    Accounted (s.removeFile pid fd) (f :: pending) := by
  refine h.congr rfl fun e id => ?_
  have := weigh_removeFile s (onEnd e id) pid fd
  rw [hf, Option.elim_some] at this
  simp only [descriptors, inHand_cons]
  omega

/-- The open file is end `e` of pipe `id` and of no other. -/
def IsEnd (e : PipeEnd) (id : ℕ) (f : OpenFile) : Prop :=
  ∀ e' id', onEnd e' id' f = if e' = e ∧ id = id' then 1 else 0

theorem isEnd_pipeRead {nonblocking : Bool} :
    IsEnd .read id (.pipeRead id nonblocking cloexec) := fun _ _ => rfl

theorem isEnd_pipeWrite {nonblocking : Bool} :
    IsEnd .write id (.pipeWrite id nonblocking cloexec) := fun _ _ => rfl

theorem IsEnd.onEnd_self (hf : IsEnd e id f) (e' : PipeEnd) :
    onEnd e' id f = if e' = e then 1 else 0 := by
  simp [hf e' id]

theorem IsEnd.eq_of_onEnd {e' : PipeEnd} {id' : ℕ} (hf : IsEnd e id f) (h : onEnd e' id' f = 1) :
    id = id' := by
  rw [hf] at h
  split at h
  · rename_i heq
    exact heq.2
  · cases h

theorem IsEnd.inHand_other (hf : IsEnd e id f) (id' : ℕ) (hne : id' ≠ id) (e' : PipeEnd) :
    inHand e' id' (f :: pending) = inHand e' id' pending := by
  simp [hf e' id', Ne.symm hne]

/-- Lowering a count takes a descriptor off the list, and the pipe goes with the
last. -/
theorem accounted_updatePipe (h : Accounted s (f :: pending)) (hf : IsEnd e id f)
    (hg : ∀ p e', (g p).count e' = p.count e' - if e' = e then 1 else 0) :
    Accounted (s.updatePipe id g) pending := by
  have hother : ∀ id', id' ≠ id → ∀ e, inHand e id' pending = inHand e id' (f :: pending) :=
    fun id' hne e' => (hf.inHand_other id' hne e').symm
  unfold updatePipe
  cases hid : s.pipes.get? id with
  | none =>
    refine h.change id rfl (fun _ _ => rfl) hother ?_
    rw [hid]
    intro e'
    have := h.absent id hid e'
    rw [inHand_cons] at this
    show s.descriptors e' id + _ = 0
    omega
  | some p =>
    have hcount : ∀ e', (g p).count e' = s.descriptors e' id + inHand e' id pending := by
      intro e'
      rw [hg, h.count id p hid e', inHand_cons, hf.onEnd_self]
      omega
    simp only []
    split
    · rename_i hzero
      refine h.change id rfl (fun _ hne => get?_erase_ne _ hne) hother ?_
      show Fits _ ((s.pipes.erase id).get? id)
      rw [get?_erase_self]
      intro e'
      refine (hcount e').symm.trans ?_
      cases e'
      · exact hzero.1
      · exact hzero.2
    · rename_i hnonzero
      refine h.change id rfl (fun _ hne => get?_insert_ne _ _ hne) hother ?_
      show Fits _ ((s.pipes.insert id (g p)).get? id)
      rw [get?_insert_self]
      refine ⟨hcount, ?_⟩
      by_cases hread : (g p).readers = 0
      · exact ⟨.write, fun hwrite => hnonzero ⟨hread, hwrite⟩⟩
      · exact ⟨.read, hread⟩

theorem accounted_releaseFile (h : Accounted s (f :: pending)) :
    Accounted (s.releaseFile f) pending := by
  cases f with
  | vfs inode offset cloexec
  | dir inode cursor cloexec => exact h.congr rfl fun e id => by simp [onEnd, releaseFile]
  | pipeRead i nonblocking cloexec =>
    exact accounted_updatePipe h isEnd_pipeRead fun p e' => by cases e' <;> rfl
  | pipeWrite i nonblocking cloexec =>
    exact accounted_updatePipe h isEnd_pipeWrite fun p e' => by cases e' <;> rfl

theorem accounted_foldl_releaseFile {files : List OpenFile} (h : Accounted s files) :
    Accounted (files.foldl releaseFile s) [] := by
  induction files generalizing s with
  | nil => exact h
  | cons f files ih => exact ih (accounted_releaseFile h)

/-- Raising a count of an existing pipe puts a descriptor in hand, as long as
the count does not saturate. -/
theorem accounted_modify {p : PipeState} (h : Accounted s pending) (hf : IsEnd e id f)
    (hp : s.pipes.get? id = some p)
    (hg : ∀ e', (g p).count e' = p.count e' + if e' = e then 1 else 0) :
    Accounted { s with pipes := s.pipes.modify id g } (f :: pending) := by
  refine h.change id rfl (fun id' hne => ?_) hf.inHand_other ?_
  · exact (get?_modify _ _ _ _).trans (if_neg hne)
  · show Fits _ ((s.pipes.modify id g).get? id)
    rw [get?_modify, if_pos rfl, hp, Option.map_some]
    refine ⟨fun e' => ?_, ?_⟩
    · simp only [hg, h.count id p hp e', inHand_cons, hf.onEnd_self]
      omega
    · obtain ⟨e', he'⟩ := h.used id p hp
      exact ⟨e', by rw [hg]; omega⟩

theorem accounted_duplicateOpenFile (h : Accounted s pending)
    (hlive : ∀ e id, onEnd e id f = 1 → ∃ p, s.pipes.get? id = some p ∧ p.count e < u32Max) :
    Accounted (s.duplicateOpenFile f) (f :: pending) := by
  cases f with
  | vfs inode offset cloexec
  | dir inode cursor cloexec =>
    exact h.congr rfl fun e id => by simp [onEnd, duplicateOpenFile]
  | pipeRead i nonblocking cloexec =>
    obtain ⟨p, hp, hlt⟩ := hlive .read i (by simp [onEnd])
    refine accounted_modify h isEnd_pipeRead hp fun e' => ?_
    cases e'
    · simpa [PipeState.count, satSucc] using hlt
    · simp [PipeState.count]
  | pipeWrite i nonblocking cloexec =>
    obtain ⟨p, hp, hlt⟩ := hlive .write i (by simp [onEnd])
    refine accounted_modify h isEnd_pipeWrite hp fun e' => ?_
    cases e'
    · simp [PipeState.count]
    · simpa [PipeState.count, satSucc] using hlt

theorem accounted_newPipe (h : Accounted s []) (hid : s.pipes.get? id = none)
    (nonblocking cloexec : Bool) :
    Accounted { s with pipes := s.pipes.insert id .new }
      [.pipeRead id nonblocking cloexec, .pipeWrite id nonblocking cloexec] := by
  refine h.change id rfl (fun _ hne => get?_insert_ne _ _ hne) (fun id' hne e => ?_) ?_
  · rw [isEnd_pipeRead.inHand_other id' hne, isEnd_pipeWrite.inHand_other id' hne]
  · show Fits _ ((s.pipes.insert id .new).get? id)
    rw [get?_insert_self]
    refine ⟨fun e => ?_, .read, by decide⟩
    have := h.absent id hid e
    rw [inHand_nil, Nat.add_zero] at this
    cases e <;> simp [this, onEnd, PipeState.count, PipeState.new]

/-! ### Shape of the tables -/

theorem lookup_setFile (s : FsState) (pid pid' : ProcessId) (fd fd' : ℤ) (f : OpenFile) :
    (s.setFile pid fd f).lookup pid' fd'
      = if pid' = pid ∧ fd' = fd then some f else s.lookup pid' fd' := by
  simp only [lookup, tableOf, setFile, get?_insert]
  by_cases hpid : pid' = pid
  · subst hpid
    simp [get?_insert]
  · simp [hpid]

theorem lookup_removeFile (s : FsState) (pid pid' : ProcessId) (fd fd' : ℤ) :
    (s.removeFile pid fd).lookup pid' fd'
      = if pid' = pid ∧ fd' = fd then none else s.lookup pid' fd' := by
  simp only [lookup, tableOf, removeFile, get?_modify]
  by_cases hpid : pid' = pid
  · subst hpid
    cases s.openFiles.get? pid' with
    | none => simp
    | some t => simp [get?_erase]
  · simp [hpid]

theorem openFiles_updatePipe (s : FsState) (id : ℕ) (g : PipeState → PipeState) :
    (s.updatePipe id g).openFiles = s.openFiles ∧ (s.updatePipe id g).nextFd = s.nextFd := by
  unfold updatePipe
  split
  · exact ⟨rfl, rfl⟩
  · simp only []
    split <;> exact ⟨rfl, rfl⟩

theorem openFiles_releaseFile (s : FsState) (f : OpenFile) :
    (s.releaseFile f).openFiles = s.openFiles ∧ (s.releaseFile f).nextFd = s.nextFd := by
  cases f with
  | vfs
  | dir => exact ⟨rfl, rfl⟩
  | pipeRead id
  | pipeWrite id => exact openFiles_updatePipe s id _

theorem openFiles_foldl_releaseFile (s : FsState) (files : List OpenFile) :
    (files.foldl releaseFile s).openFiles = s.openFiles ∧
      (files.foldl releaseFile s).nextFd = s.nextFd := by
  induction files generalizing s with
  | nil => exact ⟨rfl, rfl⟩
  | cons f files ih =>
    obtain ⟨h1, h2⟩ := openFiles_releaseFile s f
    obtain ⟨h3, h4⟩ := ih (s.releaseFile f)
    exact ⟨h3.trans h1, h4.trans h2⟩

theorem openFiles_duplicateOpenFile (s : FsState) (f : OpenFile) :
    (s.duplicateOpenFile f).openFiles = s.openFiles ∧
      (s.duplicateOpenFile f).nextFd = s.nextFd := by
  cases f <;> exact ⟨rfl, rfl⟩

theorem lookup_eq_of_openFiles (h : s'.openFiles = s.openFiles) (pid : ProcessId)
    (fd : ℤ) : s'.lookup pid fd = s.lookup pid fd := by
  simp only [lookup, tableOf, h]

/-- Descriptor numbers are nonnegative `i32`s, and the descriptors of a pipe
belong to one process: no call hands one to another process. -/
structure Shape (s : FsState) : Prop where
  range : ∀ pid fd f, s.lookup pid fd = some f → 0 ≤ fd ∧ fd ≤ i32Max
  next : ∀ pid n, s.nextFd.get? pid = some n → n ≤ i32Max
  owner : ∀ pid pid' fd fd' f f' e e' id, s.lookup pid fd = some f →
    s.lookup pid' fd' = some f' → onEnd e id f = 1 → onEnd e' id f' = 1 → pid = pid'

theorem Shape.sub (h : Shape s)
    (hlookup : ∀ pid fd f, s'.lookup pid fd = some f → s.lookup pid fd = some f)
    (hnext : ∀ pid n, s'.nextFd.get? pid = some n → n ≤ i32Max) : Shape s' where
  range pid fd f hf := h.range pid fd f (hlookup pid fd f hf)
  next := hnext
  owner pid pid' fd fd' f f' e e' id hf hf' :=
    h.owner pid pid' fd fd' f f' e e' id (hlookup _ _ _ hf) (hlookup _ _ _ hf')

theorem Shape.of_eq (h : Shape s)
    (heq : s'.openFiles = s.openFiles ∧ s'.nextFd = s.nextFd) : Shape s' := by
  refine h.sub (fun pid fd f hf => ?_) fun pid n hn => ?_
  · rwa [lookup_eq_of_openFiles heq.1] at hf
  · rw [heq.2] at hn
    exact h.next pid n hn

/-- The descriptors of the pipe of `f`, if any, belong to `pid`. -/
def OnlyOf (s : FsState) (pid : ProcessId) (f : OpenFile) : Prop :=
  ∀ pid' fd' f' e e' id, s.lookup pid' fd' = some f' → onEnd e id f = 1 → onEnd e' id f' = 1 →
    pid' = pid

theorem Shape.setFile (h : Shape s) (hfd : 0 ≤ fd ∧ fd ≤ i32Max) (howner : OnlyOf s pid f) :
    Shape (s.setFile pid fd f) where
  range pid' fd' f' hf' := by
    rw [lookup_setFile] at hf'
    split at hf'
    · rename_i heq
      rw [heq.2]
      exact hfd
    · exact h.range pid' fd' f' hf'
  next := h.next
  owner pid1 pid2 fd1 fd2 f1 f2 e1 e2 id h1 h2 he1 he2 := by
    rw [lookup_setFile] at h1 h2
    split at h1 <;> split at h2
    · rename_i heq1 heq2
      rw [heq1.1, heq2.1]
    · rename_i heq1 _
      cases h1
      rw [heq1.1, howner pid2 fd2 f2 e1 e2 id h2 he1 he2]
    · rename_i _ heq2
      cases h2
      rw [heq2.1, howner pid1 fd1 f1 e2 e1 id h1 he2 he1]
    · exact h.owner pid1 pid2 fd1 fd2 f1 f2 e1 e2 id h1 h2 he1 he2

/-- A pipe never has more descriptors than there are descriptor numbers. -/
theorem Shape.descriptors_lt (h : Shape s) (e : PipeEnd) (id : ℕ) :
    s.descriptors e id < u32Max := by
  by_cases hzero : s.descriptors e id = 0
  · rw [hzero]
    decide
  -- all of them are in the table of the process that owns one
  have hsum : 0 < s.openFiles.sum fun _ t => t.sum fun _ f => onEnd e id f :=
    Nat.pos_of_ne_zero hzero
  obtain ⟨pid, t, hpid, hpos⟩ := sum_pos_iff.1 hsum
  obtain ⟨fd, f, hfd, hf⟩ := sum_pos_iff.1 hpos
  have hone : ∀ f, 0 < onEnd e id f → onEnd e id f = 1 := fun f hf => by
    have := onEnd_le_one e id f
    omega
  have htable : s.tableOf pid = t := by rw [tableOf, hpid, Option.getD_some]
  have hsingle : s.descriptors e id = t.sum fun _ f => onEnd e id f := by
    unfold descriptors weigh
    rw [sum_eq_of_single pid, hpid, Option.elim_some]
    intro pid' t' hpid' hne
    rw [sum_eq_zero_iff]
    intro fd' f' hfd'
    by_contra hf'
    refine hne (h.owner pid' pid fd' fd f' f e e id ?_ ?_ ?_ (hone f hf))
    · rw [lookup, tableOf, hpid', Option.getD_some, hfd']
    · rw [lookup, htable, hfd]
    · exact hone f' (Nat.pos_of_ne_zero hf')
  have hbound := sum_le_of_range (m := t) 0 (i32Max + 1)
    (f := fun _ f => onEnd e id f) (fun _ f => onEnd_le_one e id f) fun fd f hfd => by
      have := h.range pid fd f (by rw [lookup, htable, hfd])
      omega
  rw [hsingle]
  simp only [i32Max, u32Max] at hbound ⊢
  omega

/-! ### Calls -/

structure PipeInv (s : FsState) : Prop where
  accounted : Accounted s []
  shape : Shape s

theorem PipeInv.pipe_of_lookup (h : PipeInv s) (hf : s.lookup pid fd = some f)
    (he : onEnd e id f = 1) : ∃ p, s.pipes.get? id = some p ∧ p.count e < u32Max := by
  have hpos : onEnd e id f ≤ s.descriptors e id := weigh_pos_of_lookup hf
  cases hp : s.pipes.get? id with
  | none =>
    have := h.accounted.absent id hp e
    omega
  | some p =>
    refine ⟨p, rfl, ?_⟩
    rw [h.accounted.count id p hp e, inHand_nil, Nat.add_zero]
    exact h.shape.descriptors_lt e id

theorem scanStart_le (hnext : ∀ n, s.nextFd.get? pid = some n → n ≤ i32Max)
    (hmin : minFd ≤ i32Max) : s.scanStart pid minFd ≤ i32Max := by
  have hstart : max minFd firstUserFd ≤ i32Max := max_le hmin (by decide)
  refine max_le ?_ hstart
  cases hn : s.nextFd.get? pid with
  | none => exact hstart
  | some n => exact hnext n hn

section Alloc

variable (h : s.allocFdFrom pid minFd = some (fd, s1))

include h

theorem lookup_allocFdFrom (pid' : ProcessId) (x : ℤ) : s1.lookup pid' x = s.lookup pid' x := by
  obtain ⟨rfl, -⟩ := allocFdFrom_inv h
  simp only [lookup, tableOf, get?_insert]
  by_cases hpid : pid' = pid <;> simp [hpid]

theorem accounted_allocFdFrom (hs : Accounted s pending) : Accounted s1 pending := by
  obtain ⟨rfl, -⟩ := allocFdFrom_inv h
  refine hs.congr rfl fun e id => ?_
  have htable := s.openFiles.sum_insert (fun _ t => t.sum fun _ f => onEnd e id f) pid
    (s.tableOf pid)
  rw [sum_tableOf] at htable
  simp only [descriptors, weigh]
  omega

variable (hs : Shape s) (hmin : minFd ≤ i32Max)

include hs hmin

theorem range_allocFdFrom : firstUserFd ≤ fd ∧ fd ≤ i32Max := by
  obtain ⟨-, hle, -, hmax, -⟩ := allocFdFrom_inv h
  have hfirst : firstUserFd ≤ s.scanStart pid minFd :=
    (le_max_right _ _).trans (le_max_right _ _)
  exact ⟨hfirst.trans hle, hmax (scanStart_le (hs.next pid) hmin)⟩

theorem shape_allocFdFrom : Shape s1 := by
  have hfd := (range_allocFdFrom h hs hmin).2
  refine hs.sub (fun pid' x f hf => ?_) fun pid' n hn => ?_
  · rwa [lookup_allocFdFrom h] at hf
  · obtain ⟨rfl, -⟩ := allocFdFrom_inv h
    rw [get?_insert] at hn
    split at hn
    · cases hn
      unfold satSuccI32
      split <;> omega
    · exact hs.next pid' n hn

theorem store_allocFdFrom (hacc : Accounted s [f]) (howner : OnlyOf s pid f) :
    PipeInv (s1.setFile pid fd f) where
  accounted := by
    refine accounted_setFile (accounted_allocFdFrom h hacc) ?_
    rw [lookup_allocFdFrom h]
    exact (allocFdFrom_inv h).2.2.1
  shape := by
    have hrange := range_allocFdFrom h hs hmin
    refine (shape_allocFdFrom h hs hmin).setFile ⟨le_trans (by decide) hrange.1, hrange.2⟩ ?_
    simpa only [OnlyOf, lookup_allocFdFrom h] using howner

end Alloc

theorem openForPid_inv {path : String} {inode : ℕ} {type : FileType} (hs : PipeInv s)
    (h : s.openForPid pid path flags inode type = some (r, s')) : PipeInv s' := by
  unfold openForPid at h
  simp only [] at h
  split at h
  · cases h; exact hs
  split at h
  · cases h; exact hs
  split at h
  · cases h; exact hs
  split at h
  · cases h; exact hs
  rename_i f hfile
  split at h
  · cases h
  rename_i fd s1 halloc
  cases h
  -- a file or a directory is no end of any pipe
  have hplain : ∀ e id, onEnd e id f = 0 := by
    intro e id
    cases type with
    | regular => simp only [] at hfile; split at hfile <;> cases hfile; rfl
    | directory => cases hfile; rfl
    | other => cases hfile
  refine store_allocFdFrom halloc hs.shape (by decide) (hs.accounted.congr rfl fun e id => ?_) ?_
  · simp [hplain]
  · intro pid' fd' f' e e' id _ he
    rw [hplain] at he
    cases he

theorem closeForPid_inv (pid : ProcessId) (fd : ℤ) (hs : PipeInv s) :
    PipeInv (s.closeForPid pid fd).2 := by
  unfold closeForPid
  cases hf : s.lookup pid fd with
  | none => exact hs
  | some f =>
    refine ⟨accounted_releaseFile (accounted_removeFile hs.accounted hf), ?_⟩
    refine Shape.of_eq ?_ (openFiles_releaseFile _ f)
    refine hs.shape.sub (fun pid' fd' f' hf' => ?_) hs.shape.next
    rw [lookup_removeFile] at hf'
    split at hf'
    · cases hf'
    · exact hf'

theorem dropProcessFds_inv (pid : ProcessId) (hs : PipeInv s) : PipeInv (s.dropProcessFds pid) := by
  refine ⟨accounted_foldl_releaseFile (hs.accounted.congr rfl fun e id => ?_), ?_⟩
  · rw [inHand_nil, Nat.add_zero]
    exact weigh_eraseTable s (onEnd e id) pid _ _
  refine Shape.of_eq ?_ (openFiles_foldl_releaseFile _ _)
  refine hs.shape.sub (fun pid' fd' f' hf' => ?_) fun pid' n hn => ?_
  · simp only [lookup, tableOf, get?_erase] at hf'
    by_cases hpid : pid' = pid
    · simp [hpid] at hf'
    · rwa [if_neg hpid] at hf'
  · rw [get?_erase] at hn
    split at hn
    · cases hn
    · exact hs.shape.next pid' n hn

theorem PipeInv.accounted_duplicate (hs : PipeInv s) (hf : s.lookup pid fd = some f) :
    Accounted (s.duplicateOpenFile (f.setCloexec cloexec)) [f.setCloexec cloexec] := by
  refine accounted_duplicateOpenFile hs.accounted fun e id he => ?_
  rw [onEnd_setCloexec] at he
  exact hs.pipe_of_lookup hf he

/-- A duplicate belongs to the process of its original. -/
theorem PipeInv.onlyOf_duplicate (hs : PipeInv s) (hf : s.lookup pid fd = some f) :
    OnlyOf (s.duplicateOpenFile (f.setCloexec cloexec)) pid (f.setCloexec cloexec) := by
  intro pid' fd' f' e e' id hf' he he'
  rw [lookup_eq_of_openFiles (openFiles_duplicateOpenFile s _).1] at hf'
  rw [onEnd_setCloexec] at he
  exact hs.shape.owner pid' pid fd' fd f' f e' e id hf' hf he' he

theorem dupForPid_inv {minNewfd : ℤ} (hs : PipeInv s) (hmin : minNewfd ≤ i32Max)
    (h : s.dupForPid pid oldfd minNewfd cloexec = some (r, s')) : PipeInv s' := by
  unfold dupForPid at h
  cases hold : s.lookup pid oldfd with
  | none =>
    rw [hold] at h
    cases h
    exact hs
  | some old =>
    rw [hold] at h
    simp only [] at h
    split at h
    · cases h
    rename_i fd s1 halloc
    cases h
    exact store_allocFdFrom halloc (hs.shape.of_eq (openFiles_duplicateOpenFile s _)) hmin
      (hs.accounted_duplicate hold) (hs.onlyOf_duplicate hold)

theorem fcntlDupfd_inv (hs : PipeInv s) (hmin : minFd ≤ i32Max)
    (h : s.fcntlDupfd pid fd minFd cloexec = some (r, s')) : PipeInv s' := by
  unfold fcntlDupfd at h
  split at h
  · cases h; exact hs
  split at h
  · cases h; exact hs
  · exact dupForPid_inv hs hmin h

theorem bumpNextFd_inv (hs : PipeInv s)
    (hmax : newfd ≤ i32Max) : PipeInv (s.bumpNextFd pid newfd) := by
  refine ⟨hs.accounted.congr rfl fun _ _ => rfl, hs.shape.sub (fun _ _ _ hf => hf) ?_⟩
  intro pid' n hn
  simp only [bumpNextFd, get?_insert] at hn
  split at hn
  · cases hn
    split
    · unfold satSuccI32
      split <;> omega
    · cases hnext : s.nextFd.get? pid with
      | none => decide
      | some n => exact hs.shape.next pid n hnext
  · exact hs.shape.next pid' n hn

theorem lookup_closeForPid (s : FsState) (pid pid' : ProcessId) (fd fd' : ℤ) :
    (s.closeForPid pid fd).2.lookup pid' fd'
      = if pid' = pid ∧ fd' = fd then none else s.lookup pid' fd' := by
  unfold closeForPid
  cases hf : s.lookup pid fd with
  | none =>
    show s.lookup pid' fd' = _
    split
    · rename_i heq
      rw [heq.1, heq.2, hf]
    · rfl
  | some f =>
    show ((s.removeFile pid fd).releaseFile f).lookup pid' fd' = _
    rw [lookup_eq_of_openFiles (openFiles_releaseFile _ f).1, lookup_removeFile]

theorem dup2ForPid_inv (cloexec : Bool) (hs : PipeInv s) (hmax : newfd ≤ i32Max) :
    PipeInv (s.dup2ForPid pid oldfd newfd cloexec).2 := by
  unfold dup2ForPid
  split
  · exact hs
  rename_i hneg
  cases hold : s.lookup pid oldfd with
  | none => exact hs
  | some old =>
    simp only []
    split
    · exact hs
    rename_i hne
    -- after the target is closed the original is still there
    have hclosed := closeForPid_inv pid newfd hs
    have hold' : (s.closeForPid pid newfd).2.lookup pid oldfd = some old := by
      rw [lookup_closeForPid, if_neg (fun h => hne h.2), hold]
    have hsame := openFiles_duplicateOpenFile (s.closeForPid pid newfd).2
      (old.setCloexec cloexec)
    refine bumpNextFd_inv ⟨accounted_setFile (hclosed.accounted_duplicate hold') ?_, ?_⟩ hmax
    · rw [lookup_eq_of_openFiles hsame.1, lookup_closeForPid, if_pos ⟨rfl, rfl⟩]
    · exact (hclosed.shape.of_eq hsame).setFile ⟨not_lt.1 hneg, hmax⟩
        (hclosed.onlyOf_duplicate hold')

/-- `pipe2` finds two different numbers when one below `i32Max` is free, and
makes a new pipe when its identifier is not in use. -/
structure Pipe2Ok (s : FsState) (pid : ProcessId) : Prop where
  free : ∃ fd, s.scanStart pid firstUserFd ≤ fd ∧ fd < i32Max ∧ s.lookup pid fd = none
  fresh : s.pipes.get? s.nextPipeId = none

/-- Two allocations in a row give different numbers exactly when one below
`i32Max` is free. -/
theorem allocFd_twice {s2 : FsState} {r w : ℤ} (hr : s.allocFd pid = some (r, s1))
    (hw : s1.allocFd pid = some (w, s2)) (hstart : s.scanStart pid firstUserFd ≤ i32Max) :
    r ≠ w ↔ ∃ x, s.scanStart pid firstUserFd ≤ x ∧ x < i32Max ∧ s.lookup pid x = none := by
  obtain ⟨rfl, hle, hfree, hmax, hbelow⟩ := allocFdFrom_inv hr
  obtain ⟨-, hge, -, hwmax, -⟩ := allocFdFrom_inv hw
  simp only [scanStart, get?_insert_self, Option.getD_some, max_self] at hge hwmax
  constructor
  · intro hne
    refine ⟨r, hle, lt_of_le_of_ne (hmax hstart) fun heq => hne ?_, hfree⟩
    -- the search for the second is stuck at `i32Max`
    subst heq
    exact le_antisymm hge (hwmax le_rfl)
  · rintro ⟨x, hxle, hxmax, hxfree⟩ rfl
    have hrx : r ≤ x := by
      by_contra hlt
      have hused := hbelow x hxle (not_le.1 hlt)
      rw [hxfree] at hused
      cases hused
    have hnext := (le_max_left _ _).trans hge
    rw [satSuccI32, if_pos (by omega)] at hnext
    omega

theorem Accounted.unused (h : Accounted s []) (hid : s.pipes.get? id = none)
    (hf : s.lookup pid fd = some f) (e : PipeEnd) : onEnd e id f = 0 := by
  have hpos : onEnd e id f ≤ s.descriptors e id := weigh_pos_of_lookup hf
  have := h.absent id hid e
  omega

theorem store_newPipe {r w : ℤ} (hs : PipeInv s) (hid : s.pipes.get? id = none)
    (hr : s.lookup pid r = none) (hw : s.lookup pid w = none) (hne : w ≠ r)
    (hrRange : 0 ≤ r ∧ r ≤ i32Max) (hwRange : 0 ≤ w ∧ w ≤ i32Max) (nonblocking cloexec : Bool) :
    PipeInv (({ s with pipes := s.pipes.insert id .new }.setFile pid r
      (.pipeRead id nonblocking cloexec)).setFile pid w (.pipeWrite id nonblocking cloexec)) where
  accounted := by
    refine accounted_setFile
      (accounted_setFile (accounted_newPipe hs.accounted hid nonblocking cloexec) hr) ?_
    rw [lookup_setFile, if_neg fun h => hne h.2]
    exact hw
  shape := by
    have hshape : Shape { s with pipes := s.pipes.insert id .new } := hs.shape.of_eq ⟨rfl, rfl⟩
    refine (hshape.setFile hrRange ?_).setFile hwRange ?_
    · intro pid' fd' f' e e' id' hf' he he'
      rw [← isEnd_pipeRead.eq_of_onEnd he, hs.accounted.unused hid hf' e'] at he'
      cases he'
    · intro pid' fd' f' e e' id' hf' he he'
      rw [lookup_setFile] at hf'
      split at hf'
      · rename_i hread
        exact hread.1
      · rw [← isEnd_pipeWrite.eq_of_onEnd he, hs.accounted.unused hid hf' e'] at he'
        cases he'

theorem pipe2ForPid_inv {r : Except Errno (ℤ × ℤ)} (hs : PipeInv s)
    (hok : (flags &&& ~~~(oNonblock ||| oCloexec) != 0) ∨ Pipe2Ok s pid)
    (h : s.pipe2ForPid pid flags = some (r, s')) : PipeInv s' := by
  unfold pipe2ForPid at h
  split at h
  · cases h; exact hs
  rename_i hflags
  replace hok := hok.resolve_left hflags
  simp only [] at h
  split at h
  · cases h
  rename_i readFd s2 hread
  split at h
  · cases h
  rename_i writeFd s3 hwrite
  cases h
  have hfirst : firstUserFd ≤ i32Max := by decide
  have hzero : (0 : ℤ) ≤ firstUserFd := by decide
  have hne : readFd ≠ writeFd :=
    (allocFd_twice hread hwrite (scanStart_le (hs.shape.next pid) hfirst)).2 hok.free
  -- the two allocations only advance the next number
  have hs1 : PipeInv { s with nextPipeId := satSucc u64Max s.nextPipeId } :=
    ⟨hs.accounted.congr rfl fun _ _ => rfl, hs.shape.of_eq ⟨rfl, rfl⟩⟩
  have hs2 : PipeInv s2 :=
    ⟨accounted_allocFdFrom hread hs1.accounted, shape_allocFdFrom hread hs1.shape hfirst⟩
  have hs3 : PipeInv s3 :=
    ⟨accounted_allocFdFrom hwrite hs2.accounted, shape_allocFdFrom hwrite hs2.shape hfirst⟩
  have hr := range_allocFdFrom hread hs1.shape hfirst
  have hw := range_allocFdFrom hwrite hs2.shape hfirst
  have hreadFree : s3.lookup pid readFd = none := by
    rw [lookup_allocFdFrom hwrite, lookup_allocFdFrom hread]
    exact (allocFdFrom_inv hread).2.2.1
  have hwriteFree : s3.lookup pid writeFd = none := by
    rw [lookup_allocFdFrom hwrite]
    exact (allocFdFrom_inv hwrite).2.2.1
  have hid : s3.pipes.get? s.nextPipeId = none := by
    rw [(allocFdFrom_inv hwrite).1, (allocFdFrom_inv hread).1]
    exact hok.fresh
  exact store_newPipe hs3 hid hreadFree hwriteFree hne.symm ⟨by omega, hr.2⟩ ⟨by omega, hw.2⟩ _ _

/-! ### Runs -/

/-- A call on the descriptor tables. Descriptor arguments are `i32`s. -/
inductive FdOp
  | openFile (pid : ProcessId) (path : String) (flags : UInt32) (inode : ℕ) (type : FileType)
  | pipe2 (pid : ProcessId) (flags : UInt32)
  | dup (pid : ProcessId) (oldfd minNewfd : Int32) (cloexec : Bool)
  | dup2 (pid : ProcessId) (oldfd newfd : Int32) (cloexec : Bool)
  | fcntlDupfd (pid : ProcessId) (fd minFd : Int32) (cloexec : Bool)
  | close (pid : ProcessId) (fd : Int32)
  | dropProcessFds (pid : ProcessId)

/-- One call; `none` if it does not return. -/
def FsState.call (s : FsState) : FdOp → Option FsState
  | .openFile pid path flags inode type => (s.openForPid pid path flags inode type).map (·.2)
  | .pipe2 pid flags => (s.pipe2ForPid pid flags).map (·.2)
  | .dup pid oldfd minNewfd cloexec =>
    (s.dupForPid pid oldfd.toInt minNewfd.toInt cloexec).map (·.2)
  | .dup2 pid oldfd newfd cloexec => some (s.dup2ForPid pid oldfd.toInt newfd.toInt cloexec).2
  | .fcntlDupfd pid fd minFd cloexec =>
    (s.fcntlDupfd pid fd.toInt minFd.toInt cloexec).map (·.2)
  | .close pid fd => some (s.closeForPid pid fd.toInt).2
  | .dropProcessFds pid => some (s.dropProcessFds pid)

/-- A `pipe2` with valid flags is not called when only `i32Max` is left to
allocate, nor when pipe identifiers have run out. -/
def PipeGuard (s : FsState) : FdOp → Prop
  | .pipe2 pid flags => (flags &&& ~~~(oNonblock ||| oCloexec) != 0) ∨ Pipe2Ok s pid
  | _ => True

/-- `pipe2` finds a number below `i32Max` exactly when one is free. -/
theorem free_iff_scanFd (s : FsState) (pid : ProcessId) :
    (∃ fd, s.scanStart pid firstUserFd ≤ fd ∧ fd < i32Max ∧ s.lookup pid fd = none) ↔
      ∃ r ∈ scanFd (s.tableOf pid) (scanFuel (s.scanStart pid firstUserFd))
        (s.scanStart pid firstUserFd), r < i32Max := by
  constructor
  · rintro ⟨fd, hle, hlt, hfree⟩
    obtain ⟨r, hscan, hr⟩ := scanFd_of_free hle hlt.le hfree
    exact ⟨r, hscan, hr.trans_lt hlt⟩
  · rintro ⟨r, hscan, hlt⟩
    obtain ⟨hle, hfree, -⟩ := scanFd_spec hscan
    exact ⟨r, hle, hlt, hfree⟩

instance (s : FsState) (pid : ProcessId) : Decidable (Pipe2Ok s pid) :=
  decidable_of_iff
    ((∃ r ∈ scanFd (s.tableOf pid) (scanFuel (s.scanStart pid firstUserFd))
      (s.scanStart pid firstUserFd), r < i32Max) ∧ (s.pipes.get? s.nextPipeId).isNone)
    ⟨fun h => ⟨(free_iff_scanFd s pid).2 h.1, Option.isNone_iff_eq_none.1 h.2⟩,
      fun h => ⟨(free_iff_scanFd s pid).1 h.free, Option.isNone_iff_eq_none.2 h.fresh⟩⟩

instance (s : FsState) : (a : FdOp) → Decidable (PipeGuard s a)
  | .pipe2 pid _ => inferInstanceAs (Decidable (_ ∨ Pipe2Ok s pid))
  | .openFile .. | .dup .. | .dup2 .. | .fcntlDupfd .. | .close .. | .dropProcessFds .. =>
    .isTrue trivial

theorem toInt_le_i32Max (x : Int32) : x.toInt ≤ i32Max := by
  have := x.toInt_lt
  simp only [i32Max]
  omega

theorem call_inv {a : FdOp} (hs : PipeInv s) (hok : PipeGuard s a)
    (h : ofPartial call s a s') : PipeInv s' := by
  unfold ofPartial call at h
  cases a with
  | openFile pid path flags inode type =>
    obtain ⟨⟨r, s1⟩, hcall, rfl⟩ := Option.map_eq_some_iff.1 h
    exact openForPid_inv hs hcall
  | pipe2 pid flags =>
    obtain ⟨⟨r, s1⟩, hcall, rfl⟩ := Option.map_eq_some_iff.1 h
    exact pipe2ForPid_inv hs hok hcall
  | dup pid oldfd minNewfd cloexec =>
    obtain ⟨⟨r, s1⟩, hcall, rfl⟩ := Option.map_eq_some_iff.1 h
    exact dupForPid_inv hs (toInt_le_i32Max _) hcall
  | dup2 pid oldfd newfd cloexec =>
    cases h
    exact dup2ForPid_inv cloexec hs (toInt_le_i32Max _)
  | fcntlDupfd pid fd minFd cloexec =>
    obtain ⟨⟨r, s1⟩, hcall, rfl⟩ := Option.map_eq_some_iff.1 h
    exact fcntlDupfd_inv hs (toInt_le_i32Max _) hcall
  | close pid fd =>
    cases h
    exact closeForPid_inv pid _ hs
  | dropProcessFds pid =>
    cases h
    exact dropProcessFds_inv pid hs

theorem pipeInv_new : PipeInv .new where
  accounted := ⟨fun _ _ hp => (by cases hp), fun _ _ _ => rfl, fun _ _ hp => (by cases hp)⟩
  shape := ⟨fun _ _ _ hf => (by cases hf), fun _ _ hn => (by cases hn),
    fun _ _ _ _ _ _ _ _ _ hf => (by cases hf)⟩

/-- **Pipe accounting.** After any sequence of calls, each pipe's reader and
writer counts are the numbers of its read and write descriptors over all tables,
and it exists exactly while there is one. -/
theorem pipe_accounting {s : FsState} {as : List FdOp}
    (hrun : Run (Guarded PipeGuard (ofPartial call)) .new as s) (id : ℕ) :
    (∀ p, s.pipes.get? id = some p →
      p.readers = s.descriptors .read id ∧ p.writers = s.descriptors .write id) ∧
    ((s.pipes.get? id).isSome ↔ 0 < s.descriptors .read id + s.descriptors .write id) := by
  have hinv : PipeInv s :=
    Run.invariant PipeInv (fun _ _ _ hs h => call_inv hs h.1 h.2) hrun pipeInv_new
  have hcount : ∀ p, s.pipes.get? id = some p → ∀ e, p.count e = s.descriptors e id :=
    fun p hp e => by simpa using hinv.accounted.count id p hp e
  refine ⟨fun p hp => ⟨hcount p hp .read, hcount p hp .write⟩, ?_⟩
  cases hp : s.pipes.get? id with
  | none =>
    have hread := hinv.accounted.absent id hp .read
    have hwrite := hinv.accounted.absent id hp .write
    simp only [Option.isSome_none, Bool.false_eq_true, false_iff]
    omega
  | some p =>
    simp only [Option.isSome_some, true_iff]
    obtain ⟨e, he⟩ := hinv.accounted.used id p hp
    have := hcount p hp e
    cases e <;> omega

/-- Process 1 makes a pipe and duplicates its read end. -/
theorem pipe_accounting_dup :
    ∃ s, Run (Guarded PipeGuard (ofPartial call)) .new [.pipe2 1 0, .dup 1 3 0 false] s ∧
      (∃ p, s.pipes.get? 1 = some p ∧ p.readers = 2 ∧ s.descriptors .read 1 = 2) := by
  refine Run.exists_of_exec (Q := fun s => (s.pipes.get? 1).map (·.readers) = some 2) (by decide)
    fun s hrun hreaders => ?_
  obtain ⟨p, hp, hp2⟩ := Option.map_eq_some_iff.1 hreaders
  exact ⟨p, hp, hp2, by rw [← ((pipe_accounting hrun 1).1 p hp).1, hp2]⟩

/-- `dup2` to the number below `i32Max` makes `i32Max` the next one to try. The
following `pipe2` gets it for both ends: the write end overwrites the read end,
and the pipe counts a reader that no descriptor refers to. -/
theorem pipe2_at_i32Max_loses_reader :
    ∃ s, Run (Guarded (fun _ _ => True) (ofPartial call)) .new
        [.pipe2 1 0, .dup2 1 3 2147483646 false, .pipe2 1 0] s ∧
      (s.pipes.get? 2).map (·.readers) = some 1 ∧ s.descriptors .read 2 = 0 :=
  Run.exists_of_exec (by decide) fun _ _ h => h

/-! ### Descriptor numbers -/

/-- **Descriptor allocation.** The search for a number ends exactly when one
from its start up to `i32Max` is free, with a free number that is at least the
one asked for. The ends of a pipe get different numbers exactly when one below
`i32Max` is free. -/
theorem descriptor_numbers_iff (minFd : Int32)
    (hnext : ∀ n, s.nextFd.get? pid = some n → n ≤ i32Max) :
    ((∃ fuel fd, scanFd (s.tableOf pid) fuel (s.scanStart pid minFd.toInt) = some fd) ↔
      ∃ x, s.scanStart pid minFd.toInt ≤ x ∧ x ≤ i32Max ∧ s.lookup pid x = none) ∧
    (∀ x, s.scanStart pid minFd.toInt ≤ x → x ≤ i32Max → s.lookup pid x = none →
      ∃ fd s', s.allocFdFrom pid minFd.toInt = some (fd, s') ∧ minFd.toInt ≤ fd ∧
        s.lookup pid fd = none) ∧
    ∀ flags r w s', s.pipe2ForPid pid flags = some (.ok (r, w), s') →
      (r ≠ w ↔ ∃ x, s.scanStart pid firstUserFd ≤ x ∧ x < i32Max ∧ s.lookup pid x = none) := by
  have hmin := toInt_le_i32Max minFd
  refine ⟨⟨?_, ?_⟩, ?_, ?_⟩
  · rintro ⟨fuel, fd, hscan⟩
    obtain ⟨hle, hfree, hmax, -⟩ := scanFd_spec hscan
    exact ⟨fd, hle, hmax (scanStart_le hnext hmin), hfree⟩
  · rintro ⟨x, hx, hmax, hfree⟩
    obtain ⟨fd, hscan, -⟩ := scanFd_of_free hx hmax hfree
    exact ⟨_, fd, hscan⟩
  · intro x hx hmax hfree
    obtain ⟨fd, hscan, -⟩ := scanFd_of_free hx hmax hfree
    have hspec := scanFd_spec hscan
    have hstart : minFd.toInt ≤ s.scanStart pid minFd.toInt :=
      (le_max_left _ _).trans (le_max_right _ _)
    simp only [allocFdFrom, hscan]
    exact ⟨fd, _, rfl, hstart.trans hspec.1, hspec.2.1⟩
  · intro flags r w s' h
    unfold pipe2ForPid at h
    split at h
    · cases h
    simp only [] at h
    split at h
    · cases h
    rename_i readFd s2 hread
    split at h
    · cases h
    rename_i writeFd s3 hwrite
    cases h
    have htwice := allocFd_twice hread hwrite (scanStart_le hnext (by decide))
    exact htwice

/-- A process with a pipe under 3 and 4, and the hint 5: the next number from 3
on. -/
theorem descriptor_numbers_first :
    ∃ s, FsState.new.pipe2ForPid 1 0 = some (.ok (3, 4), s) ∧ s.nextFd.get? 1 = some 5 ∧
      ∃ fd s', s.allocFdFrom 1 3 = some (fd, s') ∧ 3 ≤ fd ∧ s.lookup 1 fd = none := by
  refine ⟨_, rfl, by decide, ?_⟩
  refine (descriptor_numbers_iff 3 fun n hn => ?_).2.1 5 (by decide) (by decide) (by decide)
  cases hn
  decide

/-- `dup2` to the number below `i32Max`, then a pipe: both its ends get
`i32Max`. After a `dup2` to `i32Max` itself the search for a number does not
end. -/
theorem dup2_exhausts_numbers :
    ((runGuarded (fun _ _ => True) call .new [.pipe2 1 0, .dup2 1 3 2147483646 false]).bind
      (·.pipe2ForPid 1 0)).map (·.1.toOption) = some (some (i32Max, i32Max)) ∧
    (runGuarded (fun _ _ => True) call .new [.pipe2 1 0, .dup2 1 3 2147483647 false]).map
      (fun s => (s.allocFdFrom 1 0).isNone) = some true := by
  decide

end JanuaryOs.Fs

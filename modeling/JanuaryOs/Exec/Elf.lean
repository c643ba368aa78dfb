import JanuaryOs.Virt.Flags

/-!
# The plan for loading an ELF image (`build_elf_load_plan` of `task/proc/exec.rs`)

An image is the list of its bytes. The plan lists the loadable segments in the
order of their addresses; `ExecLoadPlan.Ok` says what every plan guarantees to
the code that maps it: whole pages inside user space, no two segments on one
page, and every byte that is copied lies in the image.
-/

namespace JanuaryOs.Exec

open List

open Virt (PteFlags)

/-! ### Structures in an image -/

/-- A field of a structure in an image. -/
def field (image : List UInt8) (offset size : ℕ) : ℕ := leNat ((image.drop offset).take size)

/-- The part of `Elf64Header` that is read. -/
structure Elf64Header where
  ident : List UInt8
  machine : ℕ
  version : ℕ
  entry : ℕ
  phoff : ℕ
  phentsize : ℕ
  phnum : ℕ

/-- `size_of::<Elf64Header>()`. -/
def elfHeaderSize : ℕ := 64

/-- `read_struct_unaligned` for the file header. -/
def readElfHeader (image : List UInt8) : Option Elf64Header :=
  if image.length < elfHeaderSize then none
  else some {
    ident := image.take 16
    machine := field image 18 2
    version := field image 20 4
    entry := field image 24 8
    phoff := field image 32 8
    phentsize := field image 54 2
    phnum := field image 56 2 }

/-- The part of `Elf64ProgramHeader` that is read. -/
structure Elf64ProgramHeader where
  type : ℕ
  flags : ℕ
  offset : ℕ
  vaddr : ℕ
  filesz : ℕ
  memsz : ℕ
  align : ℕ

/-- `size_of::<Elf64ProgramHeader>()`. -/
def programHeaderSize : ℕ := 56

/-- `read_struct_unaligned` for a program header. -/
def readProgramHeader (image : List UInt8) (start : ℕ) : Option Elf64ProgramHeader :=
  if image.length < start + programHeaderSize then none
  else some {
    type := field image start 4
    flags := field image (start + 4) 4
    offset := field image (start + 8) 8
    vaddr := field image (start + 16) 8
    filesz := field image (start + 32) 8
    memsz := field image (start + 40) 8
    align := field image (start + 48) 8 }

/-! ### Plans -/

structure ExecLoadSegmentPlan where
  vaddr : ℕ
  memSize : ℕ
  fileOffset : ℕ
  fileSize : ℕ
  pageStart : ℕ
  pageEnd : ℕ
  pageCount : ℕ
  mapFlags : PteFlags
  executable : Bool
  writable : Bool
  deriving Repr, DecidableEq

/-- What is to be mapped for an image. -/
structure ExecLoadPlan where
  entry : ℕ
  phdrAddr : ℕ
  phentsize : ℕ
  phnum : ℕ
  segments : List ExecLoadSegmentPlan
  segmentPages : ℕ
  stackTop : ℕ
  stackPages : ℕ

def ptLoad : ℕ := 1

def supportedElfMachine : ℕ := 62

def isPowerOfTwo (value : ℕ) : Bool := value ≠ 0 && value &&& (value - 1) = 0

def checkHeader (header : Elf64Header) : Except Errno Unit :=
  if header.ident.take 4 ≠ [0x7f, 0x45, 0x4c, 0x46] then .error .EINVAL
  else if (header.ident.drop 4).take 3 ≠ [2, 1, 1] then .error .EINVAL
  else if header.version ≠ 1 then .error .EINVAL
  else if header.machine ≠ supportedElfMachine then .error .EINVAL
  else if header.phentsize ≠ programHeaderSize then .error .EINVAL
  else if header.phnum = 0 then .error .ENOENT
  else .ok ()

/-- What the loop over the program headers has gathered. -/
structure Loading where
  segments : List ExecLoadSegmentPlan
  segmentPages : ℕ
  phdrAddr : Option ℕ

def checkSegment (imageLen : ℕ) (ph : Elf64ProgramHeader) : Except Errno Unit :=
  if ph.memsz < ph.filesz then .error .EINVAL
  else if u64Max < ph.offset + ph.filesz then .error .E2BIG
  else if imageLen < ph.offset + ph.filesz then .error .EINVAL
  else if u64Max < ph.vaddr + ph.memsz then .error .E2BIG
  else if ph.vaddr < userSpaceStart then .error .EINVAL
  else if ph.vaddr + ph.memsz ≤ ph.vaddr then .error .EINVAL
  else if userSpaceEnd ≤ ph.vaddr ∨ userSpaceEnd ≤ ph.vaddr + ph.memsz - 1 then .error .EINVAL
  else if ph.align ≠ 0 ∧ !isPowerOfTwo ph.align then .error .EINVAL
  else .ok ()

def segmentOf (ph : Elf64ProgramHeader) : ExecLoadSegmentPlan :=
  let pageStart := pageAlignDown ph.vaddr
  let pageEnd := pageAlignUp (ph.vaddr + ph.memsz)
  let writable := ph.flags &&& 2 ≠ 0
  let executable := ph.flags &&& 1 ≠ 0
  { vaddr := ph.vaddr
    memSize := ph.memsz
    fileOffset := ph.offset
    fileSize := ph.filesz
    pageStart := pageStart
    pageEnd := pageEnd
    pageCount := (pageEnd - pageStart) / pageSize
    mapFlags := ⟨writable, !executable⟩
    executable := executable
    writable := writable }

/-- One round of the loop over the program headers. -/
def planProgramHeader (imageLen phoff : ℕ) (ph : Elf64ProgramHeader) (acc : Loading) :
    Except Errno Loading :=
  if ph.type ≠ ptLoad ∨ ph.memsz = 0 then .ok acc
  else
    match checkSegment imageLen ph with
    | .error e => .error e
    | .ok _ =>
      let segment := segmentOf ph
      let phdrAddr :=
        if ph.offset ≤ phoff ∧ phoff < ph.offset + ph.filesz then
          let addr := ph.vaddr + (phoff - ph.offset)
          if u64Max < addr then none else some addr
        else acc.phdrAddr
      if u64Max < acc.segmentPages + segment.pageCount then .error .E2BIG
      else .ok ⟨acc.segments ++ [segment], acc.segmentPages + segment.pageCount, phdrAddr⟩

def planProgramHeaders (image : List UInt8) (phoff : ℕ) : List ℕ → Loading → Except Errno Loading
  | [], acc => .ok acc
  | index :: rest, acc =>
    match readProgramHeader image (phoff + index * programHeaderSize) with
    | none => .error .EINVAL
    | some ph =>
      match planProgramHeader image.length phoff ph acc with
      | .error e => .error e
      | .ok acc => planProgramHeaders image phoff rest acc

def segmentsApart : List ExecLoadSegmentPlan → Bool
  | a :: b :: rest => a.pageEnd ≤ b.pageStart && segmentsApart (b :: rest)
  | _ => true

def segmentContainsEntry (segment : ExecLoadSegmentPlan) (entry : ℕ) : Bool :=
  segment.vaddr + segment.memSize ≤ u64Max && segment.vaddr ≤ entry &&
    entry < segment.vaddr + segment.memSize

/-- The order of the segments. -/
def ExecLoadSegmentPlan.Before (a b : ExecLoadSegmentPlan) : Prop := a.pageStart ≤ b.pageStart

instance : DecidableRel ExecLoadSegmentPlan.Before := fun a b =>
  inferInstanceAs (Decidable (a.pageStart ≤ b.pageStart))

/-- The end of `build_elf_load_plan`: sort the segments and test them together. -/
def finishPlan (header : Elf64Header) (acc : Loading) : Except Errno ExecLoadPlan :=
  if acc.segments = [] then .error .ENOENT
  else
    let segments := acc.segments.insertionSort ExecLoadSegmentPlan.Before
    if !segmentsApart segments then .error .EINVAL
    else if header.entry < userSpaceStart ∨ userSpaceEnd ≤ header.entry then .error .EINVAL
    else if !segments.any (segmentContainsEntry · header.entry) then .error .EINVAL
    else .ok {
      entry := header.entry
      phdrAddr := acc.phdrAddr.getD 0
      phentsize := header.phentsize
      phnum := header.phnum
      segments := segments
      segmentPages := acc.segmentPages
      stackTop := userStackTop
      stackPages := userStackInitPages }

def buildElfLoadPlan (image : List UInt8) : Except Errno ExecLoadPlan :=
  match readElfHeader image with
  | none => .error .EINVAL
  | some header =>
    match checkHeader header with
    | .error e => .error e
    | .ok _ =>
      let tableEnd := header.phoff + header.phentsize * header.phnum
      if u64Max < tableEnd then .error .E2BIG
      else if image.length < tableEnd then .error .EINVAL
      else
        match planProgramHeaders image header.phoff (List.range header.phnum) ⟨[], 0, none⟩ with
        | .error e => .error e
        | .ok acc => finishPlan header acc

/-! ### What a plan guarantees -/

/-- A segment that can be mapped and filled from an image of the given length. -/
structure ExecLoadSegmentPlan.Ok (imageLen : ℕ) (s : ExecLoadSegmentPlan) : Prop where
  start_aligned : pageSize ∣ s.pageStart
  end_aligned : pageSize ∣ s.pageEnd
  user_start : userSpaceStart ≤ s.pageStart
  user_end : s.pageEnd ≤ userSpaceEnd
  nonempty : s.pageStart < s.pageEnd
  pages : s.pageCount * pageSize = s.pageEnd - s.pageStart
  start_le : s.pageStart ≤ s.vaddr
  in_pages : s.vaddr + s.memSize ≤ s.pageEnd
  file_le : s.fileSize ≤ s.memSize
  in_image : s.fileOffset + s.fileSize ≤ imageLen
  in_file : s.fileOffset + s.fileSize ≤ u64Max
  flags : s.mapFlags = ⟨s.writable, !s.executable⟩

/-- A plan that can be mapped. -/
structure ExecLoadPlan.Ok (imageLen : ℕ) (plan : ExecLoadPlan) : Prop where
  segments_ne : plan.segments ≠ []
  segment : ∀ s ∈ plan.segments, s.Ok imageLen
  apart : plan.segments.Pairwise fun a b => a.pageEnd ≤ b.pageStart
  stackTop : plan.stackTop = userStackTop
  stackPages : plan.stackPages = userStackInitPages

variable {imageLen : ℕ} {ph : Elf64ProgramHeader} {acc : Loading}
  {plan : ExecLoadPlan} {image : List UInt8} {acc' : Loading} {phoff : ℕ}

theorem checkSegment_ok (h : checkSegment imageLen ph = .ok ()) :
    ph.filesz ≤ ph.memsz ∧ ph.offset + ph.filesz ≤ imageLen ∧
      ph.offset + ph.filesz ≤ u64Max ∧ userSpaceStart ≤ ph.vaddr ∧ 0 < ph.memsz ∧
      ph.vaddr + ph.memsz ≤ userSpaceEnd := by
  unfold checkSegment at h
  split_ifs at h
  omega

theorem pageAlignUp_user {addr : ℕ} (h : addr ≤ userSpaceEnd) :
    pageAlignUp addr = (addr + (pageSize - 1)) / pageSize * pageSize := by
  unfold pageAlignUp u64Add
  rw [Nat.mod_eq_of_lt]
  unfold userSpaceEnd pageSize at *
  omega

theorem segmentOf_ok (h : checkSegment imageLen ph = .ok ()) : (segmentOf ph).Ok imageLen := by
  obtain ⟨hfile, himage, hword, hstart, hpos, hend⟩ := checkSegment_ok h
  have hup := pageAlignUp_user hend
  constructor
  · exact pageSize_dvd_pageAlignDown _
  · exact pageSize_dvd_pageAlignUp _
  · show userSpaceStart ≤ pageAlignDown ph.vaddr
    unfold pageAlignDown userSpaceStart pageSize at *
    omega
  · show pageAlignUp (ph.vaddr + ph.memsz) ≤ userSpaceEnd
    rw [hup]
    unfold userSpaceEnd pageSize at *
    omega
  · show pageAlignDown ph.vaddr < pageAlignUp (ph.vaddr + ph.memsz)
    rw [hup]
    unfold pageAlignDown pageSize
    omega
  · show (pageAlignUp (ph.vaddr + ph.memsz) - pageAlignDown ph.vaddr) / pageSize * pageSize =
      pageAlignUp (ph.vaddr + ph.memsz) - pageAlignDown ph.vaddr
    rw [hup]
    unfold pageAlignDown pageSize
    omega
  · exact Nat.div_mul_le_self _ _
  · show ph.vaddr + ph.memsz ≤ pageAlignUp (ph.vaddr + ph.memsz)
    rw [hup]
    unfold pageSize
    omega
  · exact hfile
  · exact himage
  · exact hword
  · rfl

/-- The pages of a segment are those that hold its addresses. -/
structure ExecLoadSegmentPlan.Hull (s : ExecLoadSegmentPlan) : Prop where
  pageStart : IsGreatest {p | pageSize ∣ p ∧ p ≤ s.vaddr} s.pageStart
  pageEnd : IsLeast {p | pageSize ∣ p ∧ s.vaddr + s.memSize ≤ p} s.pageEnd

theorem segmentOf_hull (h : checkSegment imageLen ph = .ok ()) : (segmentOf ph).Hull := by
  have hok := segmentOf_ok h
  refine ⟨⟨⟨hok.start_aligned, hok.start_le⟩, ?_⟩, ⟨⟨hok.end_aligned, hok.in_pages⟩, ?_⟩⟩
  · rintro _ ⟨⟨q, rfl⟩, hq : pageSize * q ≤ ph.vaddr⟩
    show pageSize * q ≤ pageAlignDown ph.vaddr
    unfold pageAlignDown pageSize at *
    omega
  · rintro _ ⟨⟨q, rfl⟩, hq : ph.vaddr + ph.memsz ≤ pageSize * q⟩
    show pageAlignUp (ph.vaddr + ph.memsz) ≤ pageSize * q
    rw [pageAlignUp_user (checkSegment_ok h).2.2.2.2.2]
    unfold pageSize at *
    omega

/-- What holds of the segments that the loop has gathered. -/
structure Loading.Ok (imageLen : ℕ) (acc : Loading) : Prop where
  segment : ∀ s ∈ acc.segments, s.Ok imageLen ∧ s.Hull
  pages : acc.segmentPages = (acc.segments.map (·.pageCount)).sum

theorem planProgramHeader_ok (h : planProgramHeader imageLen phoff ph acc = .ok acc')
    (hacc : acc.Ok imageLen) : acc'.Ok imageLen := by
  unfold planProgramHeader at h
  split at h
  · cases h
    exact hacc
  cases hcheck : checkSegment imageLen ph with
  | error e =>
    rw [hcheck] at h
    cases h
  | ok u =>
    rw [hcheck] at h
    simp only at h
    split at h
    · cases h
    cases h
    refine ⟨fun s hs => ?_, by simp [hacc.pages]⟩
    rcases mem_append.1 hs with hs | hs
    · exact hacc.segment s hs
    · rw [mem_singleton.1 hs]
      exact ⟨segmentOf_ok hcheck, segmentOf_hull hcheck⟩

theorem planProgramHeaders_ok {indices : List ℕ}
    (h : planProgramHeaders image phoff indices acc = .ok acc')
    (hacc : acc.Ok image.length) : acc'.Ok image.length := by
  induction indices generalizing acc with
  | nil =>
    cases h
    exact hacc
  | cons index rest ih =>
    rw [planProgramHeaders] at h
    split at h
    · cases h
    split at h
    · cases h
    · rename_i hround
      exact ih h (planProgramHeader_ok hround hacc)

/-- Segments that do not meet their successor do not meet any later one either. -/
theorem pairwise_of_segmentsApart {segments : List ExecLoadSegmentPlan}
    (hok : ∀ s ∈ segments, s.Ok imageLen) (h : segmentsApart segments = true) :
    segments.Pairwise fun a b => a.pageEnd ≤ b.pageStart := by
  induction segments with
  | nil => exact .nil
  | cons a rest ih =>
    cases rest with
    | nil => exact pairwise_singleton _ _
    | cons b rest =>
      obtain ⟨hab, hrest⟩ := Bool.and_eq_true_iff.1 h
      have hab : a.pageEnd ≤ b.pageStart := of_decide_eq_true hab
      have htail := ih (fun s hs => hok s (.tail _ hs)) hrest
      refine .cons (fun c hc => ?_) htail
      rcases mem_cons.1 hc with rfl | hc
      · exact hab
      · have hb := (hok b (.tail _ (.head _))).nonempty
        have hbc := (pairwise_cons.1 htail).1 c hc
        omega

/-- A plan for the segments of an image and nothing else. -/
structure ExecLoadPlan.Exact (plan : ExecLoadPlan) : Prop where
  sorted : plan.segments.Pairwise fun a b => a.pageStart ≤ b.pageStart
  hull : ∀ s ∈ plan.segments, s.Hull
  pages : plan.segmentPages = (plan.segments.map (·.pageCount)).sum
  entry : ∃ s ∈ plan.segments, s.vaddr ≤ plan.entry ∧ plan.entry < s.vaddr + s.memSize

theorem finishPlan_ok {header : Elf64Header} (h : finishPlan header acc = .ok plan)
    (hacc : acc.Ok imageLen) : plan.Ok imageLen ∧ plan.Exact := by
  unfold finishPlan at h
  split at h
  · cases h
  rename_i hne
  have hperm := perm_insertionSort ExecLoadSegmentPlan.Before acc.segments
  simp only at h
  generalize acc.segments.insertionSort ExecLoadSegmentPlan.Before = segments at *
  have hsegment : ∀ s ∈ segments, s.Ok imageLen ∧ s.Hull :=
    fun s hs => hacc.segment s (hperm.mem_iff.1 hs)
  split at h
  · cases h
  rename_i happ
  split at h
  · cases h
  split at h
  · cases h
  rename_i hentry
  cases h
  have hok := fun s hs => (hsegment s hs).1
  have hapart := pairwise_of_segmentsApart hok (by simpa using happ)
  refine ⟨⟨fun hnil => hne ?_, hok, hapart, rfl, rfl⟩, ?_, fun s hs => (hsegment s hs).2, ?_, ?_⟩
  · exact nil_perm.1 (hnil ▸ hperm)
  · exact hapart.imp_of_mem fun ha _ hab => (hok _ ha).nonempty.le.trans hab
  · exact hacc.pages.trans (hperm.map _).sum_nat.symm
  · simp only [Bool.not_eq_true, Bool.not_eq_false', any_eq_true, segmentContainsEntry,
      Bool.and_eq_true, decide_eq_true_eq] at hentry
    obtain ⟨s, hs, ⟨-, hlow⟩, hhigh⟩ := hentry
    exact ⟨s, hs, hlow, hhigh⟩

theorem buildElfLoadPlan_exact (h : buildElfLoadPlan image = .ok plan) :
    plan.Ok image.length ∧ plan.Exact := by
  unfold buildElfLoadPlan at h
  split at h
  · cases h
  split at h
  · cases h
  simp only at h
  split at h
  · cases h
  split at h
  · cases h
  split at h
  · cases h
  · rename_i hloop
    exact finishPlan_ok h (planProgramHeaders_ok hloop ⟨nofun, rfl⟩)

theorem buildElfLoadPlan_ok (h : buildElfLoadPlan image = .ok plan) : plan.Ok image.length :=
  (buildElfLoadPlan_exact h).1

/-! ### Operations without a test -/

/-- An operation on words that is out of range if its result is not a word. -/
inductive WordOp where
  | add (a b : ℕ)
  | sub (a b : ℕ)

def WordOp.InRange : WordOp → Prop
  | .add a b => a + b ≤ u64Max
  | .sub a b => b ≤ a

/-- The sums and differences that a round of the loop over the program headers
computes without a test of their own, each behind the tests that come before it:
in `is_user_addr(seg_end - 1)`, `is_power_of_two`, `page_align_up`, the number
of pages, and the place of the headers. -/
def roundOps (imageLen phoff : ℕ) (ph : Elf64ProgramHeader) : List WordOp :=
  let segEnd := ph.vaddr + ph.memsz
  (if ph.vaddr < segEnd then [.sub segEnd 1] else []) ++
    (if ph.align ≠ 0 then [.sub ph.align 1] else []) ++
    match checkSegment imageLen ph with
    | .error _ => []
    | .ok _ =>
      [.add segEnd pageSize, .sub (segEnd + pageSize) 1,
        .sub (pageAlignUp segEnd) (pageAlignDown ph.vaddr)] ++
        if ph.offset ≤ phoff then [.sub phoff ph.offset] else []

theorem roundOps_inRange (imageLen phoff : ℕ) (ph : Elf64ProgramHeader) :
    ∀ op ∈ roundOps imageLen phoff ph, op.InRange := by
  intro op hop
  rcases mem_append.1 hop with hop | hop
  · rcases mem_append.1 hop with hop | hop <;>
      (split at hop <;> simp at hop; subst hop; unfold WordOp.InRange; omega)
  split at hop
  · cases hop
  rename_i hcheck
  have hend := (checkSegment_ok hcheck).2.2.2.2.2
  have hnonempty := (segmentOf_ok hcheck).nonempty
  simp only [cons_append, nil_append, mem_cons] at hop
  rcases hop with rfl | rfl | rfl | hop
  · unfold WordOp.InRange userSpaceEnd u64Max pageSize at *
    omega
  · unfold WordOp.InRange pageSize
    omega
  · exact hnonempty.le
  · split at hop
    · rw [mem_singleton.1 hop]
      assumption
    · cases hop

/-- An ELF file with one program header; its 120 bytes are mapped at `0x400000`,
for reading and executing. -/
def smallProgram : List UInt8 :=
  [0x7f, 0x45, 0x4c, 0x46, 2, 1, 1, 0] ++ leBytes 8 0 ++ leBytes 2 2 ++ leBytes 2 62 ++
    leBytes 4 1 ++ leBytes 8 0x400000 ++ leBytes 8 64 ++ leBytes 8 0 ++ leBytes 4 0 ++
    leBytes 2 64 ++ leBytes 2 56 ++ leBytes 2 1 ++ leBytes 6 0 ++
    (leBytes 4 1 ++ leBytes 4 5 ++ leBytes 8 0 ++ leBytes 8 0x400000 ++ leBytes 8 0 ++
      leBytes 8 120 ++ leBytes 8 120 ++ leBytes 8 4096)

/-- The plan of the program of one page. -/
def smallPlan : ExecLoadPlan :=
  match buildElfLoadPlan smallProgram with
  | .ok plan => plan
  | .error _ => ⟨0, 0, 0, 0, [], 0, 0, 0⟩

theorem buildElfLoadPlan_small : buildElfLoadPlan smallProgram = .ok smallPlan := by
  have haccepted : (buildElfLoadPlan smallProgram).toOption.isSome = true := by decide +kernel
  unfold smallPlan
  cases hplan : buildElfLoadPlan smallProgram with
  | ok plan => rfl
  | error e =>
    rw [hplan] at haccepted
    cases haccepted

end JanuaryOs.Exec

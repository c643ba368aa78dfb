import JanuaryOs.Exec.Image
import JanuaryOs.Virt.UserAccess

/-!
# `sys_execve` (`task/syscall/exec.rs`, `task/syscall/exec_args.rs`), its arguments and its stack

Strings are lists of bytes. The files answer through `ExecEnv`, and so does the
allocator of page tables once the old pages are mapped back after a failure. The
process that calls is in the process table for the whole call, so recording
pages for it does not fail.
-/

namespace JanuaryOs.Exec

open Lib Virt Proc

/-! ### Reading the arguments -/

/-- A continuation byte of UTF-8 between two bounds. -/
def utf8Between (lo hi b : UInt8) : Bool := lo ≤ b && b ≤ hi

/-- `from_utf8` accepts the bytes. -/
def validUtf8 : List UInt8 → Bool
  | [] => true
  | a :: l =>
    if a < 0x80 then validUtf8 l
    else
      match l with
      | [] => false
      | b :: l =>
        if utf8Between 0xC2 0xDF a then utf8Between 0x80 0xBF b && validUtf8 l
        else
          match l with
          | [] => false
          | c :: l =>
            if utf8Between 0xE0 0xEF a then
              utf8Between (if a = 0xE0 then 0xA0 else 0x80) (if a = 0xED then 0x9F else 0xBF) b &&
                utf8Between 0x80 0xBF c && validUtf8 l
            else
              match l with
              | [] => false
              | d :: l =>
                utf8Between 0xF0 0xF4 a &&
                  utf8Between (if a = 0xF0 then 0x90 else 0x80)
                    (if a = 0xF4 then 0x8F else 0xBF) b &&
                  utf8Between 0x80 0xBF c && utf8Between 0x80 0xBF d && validUtf8 l

/-- `EXEC_PATH_MAX`, and `EXEC_ARG_STR_MAX`. -/
def execStrMax : ℕ := 4096

/-- `EXEC_ARG_LIST_MAX`, and `EXEC_ENV_LIST_MAX`. -/
def execListMax : ℕ := 256

def execTotalBytesMax : ℕ := 131072

section Arguments

variable {σ : Type} (read : ℕ → Fallible σ Errno UInt8)

/-- The loop of `read_user_cstring`. -/
def readCstringLoop (ptr : ℕ) : ℕ → ℕ → List UInt8 → Fallible σ Errno (List UInt8)
  | 0, _, _ => Fallible.fail .ENAMETOOLONG
  | rounds + 1, offset, bytes =>
    if u64Max < ptr + offset then Fallible.fail .EFAULT
    else (readUserU8 read (ptr + offset)).andThen fun value =>
      if value = 0 then
        if validUtf8 bytes then Fallible.ret bytes else Fallible.fail .EINVAL
      else readCstringLoop ptr rounds (offset + 1) (bytes ++ [value])

def readUserCstring (ptr maxLen : ℕ) : Fallible σ Errno (List UInt8) :=
  if ptr = 0 then Fallible.fail .EFAULT else readCstringLoop read ptr maxLen 0 []

/-- The loop of `read_user_string_array`. -/
def readStringArrayLoop (listPtr itemLen : ℕ) :
    ℕ → ℕ → List (List UInt8) → ℕ → Fallible σ Errno (List (List UInt8) × ℕ)
  | 0, _, _, _ => Fallible.fail .E2BIG
  | rounds + 1, index, result, usedBytes =>
    if u64Max < listPtr + index * 8 then Fallible.fail .EFAULT
    else (readUserUsize read (listPtr + index * 8)).andThen fun valuePtr =>
      if valuePtr = 0 then Fallible.ret (result, usedBytes)
      else (readUserCstring read valuePtr itemLen).andThen fun value =>
        if execTotalBytesMax < usedBytes + (value.length + 1) then Fallible.fail .E2BIG
        else readStringArrayLoop listPtr itemLen rounds (index + 1) (result ++ [value])
          (usedBytes + (value.length + 1))

def readUserStringArray (listPtr maxItems itemLen : ℕ) : Fallible σ Errno (List (List UInt8) × ℕ) :=
  if listPtr = 0 then Fallible.ret ([], 0)
  else readStringArrayLoop read listPtr itemLen maxItems 0 [] 0

structure ExecPayload where
  path : List UInt8
  argv : List (List UInt8)
  envp : List (List UInt8)
  deriving Repr, DecidableEq

def parseExecvePayload (pathPtr argvPtr envpPtr : ℕ) : Fallible σ Errno ExecPayload :=
  (readUserCstring read pathPtr execStrMax).andThen fun path =>
    (readUserStringArray read argvPtr execListMax execStrMax).andThen fun argv =>
      (readUserStringArray read envpPtr execListMax execStrMax).andThen fun envp =>
        if execTotalBytesMax < path.length + 1 + argv.2 + envp.2 then Fallible.fail .E2BIG
        else Fallible.ret ⟨path, argv.1, envp.1⟩

end Arguments

/-! ### The stack of a new program -/

section Stack

variable (recorded : List ExecMappedPage) (id : MmId)

def writeUserBytes (dst : ℕ) (src : List UInt8) : UserM Unit :=
  if src = [] then Fallible.ret ()
  else if u64Max < dst + src.length then Fallible.fail .E2BIG
  else if userSpaceEnd ≤ dst ∨ userSpaceEnd ≤ dst + src.length - 1 then Fallible.fail .EFAULT
  else UserM.writeBytes recorded id src dst

def writeUserUsize (dst value : ℕ) : UserM Unit :=
  if u64Max < dst + 8 then Fallible.fail .E2BIG
  else if userSpaceEnd ≤ dst ∨ userSpaceEnd ≤ dst + 8 - 1 then Fallible.fail .EFAULT
  else UserM.writeBytes recorded id (leBytes 8 value) dst

/-- The loops that copy strings below the stack pointer; the answer is the new
stack pointer and where the strings lie. -/
def pushStrings (stackBottom : ℕ) : List (List UInt8) → ℕ → UserM (ℕ × List ℕ)
  | [], sp => Fallible.ret (sp, [])
  | value :: rest, sp =>
    if sp < value.length + 1 then Fallible.fail .E2BIG
    else
      let sp := sp - (value.length + 1)
      if sp < stackBottom then Fallible.fail .E2BIG
      else (writeUserBytes recorded id sp value).andThen fun _ =>
        (writeUserBytes recorded id (sp + value.length) [0]).andThen fun _ =>
          (pushStrings stackBottom rest sp).andThen fun below =>
            Fallible.ret (below.1, sp :: below.2)

def pushWords (stackBottom : ℕ) : List ℕ → ℕ → UserM ℕ
  | [], sp => Fallible.ret sp
  | value :: rest, sp =>
    if sp < 8 then Fallible.fail .E2BIG
    else if sp - 8 < stackBottom then Fallible.fail .E2BIG
    else (writeUserUsize recorded id (sp - 8) value).andThen fun _ =>
      pushWords stackBottom rest (sp - 8)

/-- The end of the last string. -/
def stringsEnd (ptrs : List ℕ) (values : List (List UInt8)) : ℕ :=
  ((ptrs.zip values).getLast?.map fun e => satAdd u64Max e.1 (e.2.length + 1)).getD 0

def recordArguments (argvPtrs envpPtrs : List ℕ) (argv envp : List (List UInt8)) : UserM Unit :=
  fun k => some (.ok (), { k with mms := k.mms.modify id fun mm => { mm with
    argStart := argvPtrs.head?.getD 0
    argEnd := stringsEnd argvPtrs argv
    envStart := envpPtrs.head?.getD 0
    envEnd := stringsEnd envpPtrs envp } })

/-- What lies above the first argument when a program starts. -/
def stackWords (argvPtrs envpPtrs : List ℕ) (auxv : List (ℕ × ℕ)) : List ℕ :=
  argvPtrs.length :: argvPtrs ++ 0 :: envpPtrs ++ 0 :: auxv.flatMap (fun e => [e.1, e.2]) ++ [0, 0]

/-- The end of `setup_initial_user_stack`: align the stack and push the words. -/
def pushArgumentBlock (stackBottom sp : ℕ) (words : List ℕ) : UserM ℕ :=
  let sp := sp / 16 * 16
  if words.length % 2 = 0 then
    if sp < 8 then Fallible.fail .E2BIG
    else if sp - 8 < stackBottom then Fallible.fail .E2BIG
    else pushWords recorded id stackBottom words.reverse (sp - 8)
  else pushWords recorded id stackBottom words.reverse sp

def setupInitialUserStack (stackTop stackPages : ℕ) (argv envp : List (List UInt8))
    (auxv : List (ℕ × ℕ)) : UserM ℕ :=
  if stackPages = 0 then Fallible.fail .EINVAL
  else if stackTop < stackPages * pageSize then Fallible.fail .E2BIG
  else
    let stackBottom := stackTop - stackPages * pageSize
    (pushStrings recorded id stackBottom envp.reverse stackTop).andThen fun env =>
      (pushStrings recorded id stackBottom argv.reverse env.1).andThen fun arg =>
        (pushArgumentBlock recorded id stackBottom arg.1
          (stackWords arg.2.reverse env.2.reverse auxv)).andThen fun sp =>
          (recordArguments id arg.2.reverse env.2.reverse argv envp).andThen fun _ =>
            Fallible.ret sp

end Stack

def minimalAuxv (plan : ExecLoadPlan) : List (ℕ × ℕ) :=
  [(6, pageSize), (3, plan.phdrAddr), (4, plan.phentsize), (5, plan.phnum), (9, plan.entry)]

/-! ### The call -/

/-- Answers to one `execve`. -/
structure ExecEnv where
  /-- `read_all_for_pid`. -/
  readAll : List UInt8 → Except Errno (List UInt8)
  /-- Whether the page tables for pages that are mapped back are found. -/
  restoreTables : List Bool := []

/-- Where a new program starts. -/
structure UserFrame where
  rip : ℕ
  rsp : ℕ
  deriving Repr, DecidableEq

/-- The answer, the memory and the recorded pages of the calling process after a
call. -/
abbrev ExecResult := Except Errno UserFrame × Kernel × List ExecMappedPage

variable (x : ExecEnv)

/-- A call that fails after the recorded pages were unmapped:
`restore_previous_exec_state`, and the error of the call unless that fails
itself. -/
def failExec (id : MmId) (previous : List ExecMappedPage)
    (restore : Option ExecVmaRestorePoint) (e : Errno) (k : Kernel) : ExecResult :=
  let k := match restore with
    | none => k
    | some r => { k with mms := k.mms.modify id fun mm => restoreCurrentExecVmas mm r }
  match remapExecMappings
    { k with env := { k.env with tables := x.restoreTables } } id previous with
  | (.error e, k) => (.error e, k, [])
  | (.ok _, k) => (.error e, k, previous)

/-- The call once the new pages are mapped. -/
def commitExec (id : MmId) (previous staged : List ExecMappedPage)
    (plan : ExecLoadPlan) (payload : ExecPayload) (k : Kernel) : Option ExecResult :=
  match k.mms.get? id with
  | none => some (failExec x id previous none .ESRCH (rollbackExecMappings k id staged))
  | some mm =>
    match installCurrentExecVmas mm plan with
    | (.error e, mm) =>
      some (failExec x id previous none e (rollbackExecMappings (k.setMm id mm) id staged))
    | (.ok restore, mm) =>
      let argv := if payload.argv = [] then [payload.path] else payload.argv
      match setupInitialUserStack staged id plan.stackTop plan.stackPages argv payload.envp
          (minimalAuxv plan) (k.setMm id mm) with
      | none => none
      | some (.error e, k) =>
        some (failExec x id previous (some restore) e (rollbackExecMappings k id staged))
      | some (.ok rsp, k) => some (.ok ⟨plan.entry, rsp⟩, k, staged)

/-- `sys_execve` for an image with a plan: the recorded pages make room for the
new ones. -/
def loadImage (id : MmId) (previous : List ExecMappedPage) (image : List UInt8)
    (plan : ExecLoadPlan) (payload : ExecPayload) (k : Kernel) : Option ExecResult :=
  match stagePtLoadMappings (unmapExecMappings k id previous) id image plan with
  | (.error e, k) => some (failExec x id previous none e k)
  | (.ok staged, k) => commitExec x id previous staged plan payload k

/-- `sys_execve` once the arguments are read. -/
def execvePayload (id : MmId) (recorded : List ExecMappedPage)
    (payload : ExecPayload) (k : Kernel) : Option ExecResult :=
  match x.readAll payload.path with
  | .error e => some (.error e, k, recorded)
  | .ok image =>
    match buildElfLoadPlan image with
    | .error e => some (.error e, k, recorded)
    | .ok plan => loadImage x id recorded image plan payload k

def sysExecve (id : MmId) (recorded : List ExecMappedPage)
    (pathPtr argvPtr envpPtr : ℕ) (k : Kernel) : Option ExecResult :=
  match parseExecvePayload (UserM.readByte recorded id) pathPtr argvPtr envpPtr k with
  | none => none
  | some (.error e, k) => some (.error e, k, recorded)
  | some (.ok payload, k) => execvePayload x id recorded payload k

end JanuaryOs.Exec

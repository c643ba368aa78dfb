import JanuaryOs.Lib.Fallible
import JanuaryOs.Virt.Fault

/-!
# Accesses to user memory (`common/uaccess.rs`), with the trap handler behind them

The kernel reads and writes user memory through the page table that is in force,
after a check of the bounds only. An access that the page table does not allow
raises a page fault, also in the kernel, and the handler of page faults either
resolves it, and the access is made again, or stops the machine. The processor
checks the writable bit in the kernel too.
-/

namespace JanuaryOs.Virt

open Lib
open Proc (ExecMappedPage)

/-! ### Accesses -/

/-- What an access does with the memory. -/
inductive Access
  | read
  | write
  | fetch
  deriving Repr, DecidableEq

def Pte.allows (pte : Pte) : Access → Bool
  | .read => true
  | .write => pte.flags.writable
  | .fetch => !pte.flags.noExecute

namespace Kernel

variable (k : Kernel)

/-- The entry through which an access goes, if it does not fault. -/
def accessible (id : MmId) (addr : ℕ) (kind : Access) : Option Pte :=
  (k.translate id addr).filter (·.allows kind)

def faultError (id : MmId) (addr : ℕ) (kind : Access) : PageFaultError where
  present := (k.translate id addr).isSome
  write := kind = .write
  instr := kind = .fetch

/-- `page_fault_handler`; nothing if it panics. -/
def pageFaultHandler (recorded : List ExecMappedPage) (id : MmId) (addr : ℕ)
    (error : PageFaultError) : Option Kernel :=
  match k.handlePageFault recorded id addr error with
  | (.retry, k) => some k
  | _ => none

/-- An access with the page fault it may raise; nothing if the machine stops. -/
def access (recorded : List ExecMappedPage) (id : MmId) (addr : ℕ) (kind : Access) (k : Kernel) :
    Option (Pte × Kernel) :=
  match k.accessible id addr kind with
  | some pte => some (pte, k)
  | none =>
    match k.pageFaultHandler recorded id addr (k.faultError id addr kind) with
    | none => none
    | some k => (k.accessible id addr kind).map fun pte => (pte, k)

/-- What a program reads at an address; nothing if that faults. -/
def load (id : MmId) (addr : ℕ) : Option UInt8 :=
  (k.translate id addr).map fun pte => k.memory pte.pfn (addr % pageSize)

def pokeByte (f : Pfn) (offset : ℕ) (byte : UInt8) : Kernel :=
  k.fillPage f (Function.update (k.memory f) offset byte)

/-- A store of a program. It faults unless the page is present and writable. -/
def store (id : MmId) (addr : ℕ) (byte : UInt8) : Kernel :=
  match k.accessible id addr .write with
  | none => k
  | some pte => k.pokeByte pte.pfn (addr % pageSize) byte

end Kernel

/-! ### System calls -/

/-- Kernel code that works for the process with address space `id`. -/
abbrev UserM (α : Type) := Fallible Kernel Errno α

def validateUserRange (ptr size : ℕ) : Except Errno Unit :=
  if size = 0 then .ok ()
  else if u64Max < ptr + (size - 1) then .error .EFAULT
  else if ptr < userSpaceStart ∨ ptr + (size - 1) < userSpaceStart then .error .EFAULT
  else if userSpaceEnd ≤ ptr ∨ userSpaceEnd ≤ ptr + (size - 1) then .error .EFAULT
  else .ok ()

namespace UserM

/-- One byte through the page table. -/
def readByte (recorded : List ExecMappedPage) (id : MmId) (addr : ℕ) : UserM UInt8 := fun k =>
  (k.access recorded id addr .read).map fun (pte, k) =>
    (.ok (k.memory pte.pfn (addr % pageSize)), k)

/-- One byte of a page that is present; nothing if reading it faults. -/
def peekByte (id : MmId) (addr : ℕ) : UserM UInt8 := fun k =>
  (k.load id addr).map fun byte => (.ok byte, k)

def writeByte (recorded : List ExecMappedPage) (id : MmId) (addr : ℕ) (byte : UInt8) :
    UserM Unit := fun k =>
  (k.access recorded id addr .write).map fun (pte, k) =>
    (.ok (), k.pokeByte pte.pfn (addr % pageSize) byte)

def writeBytes (recorded : List ExecMappedPage) (id : MmId) : List UInt8 → ℕ → UserM Unit
  | [], _ => Fallible.ret ()
  | b :: bs, addr =>
    (writeByte recorded id addr b).andThen fun _ => writeBytes recorded id bs (addr + 1)

end UserM

/-! ### Reading

The functions that read take the way a byte is read as an argument, so that the same code can be
run on memory in which nothing is faulted in. -/

section Reading

variable {σ : Type} (read : ℕ → Fallible σ Errno UInt8)

def readBytes : ℕ → ℕ → Fallible σ Errno (List UInt8)
  | 0, _ => Fallible.ret []
  | n + 1, addr =>
    (read addr).andThen fun b =>
      (readBytes n (addr + 1)).andThen fun bs => Fallible.ret (b :: bs)

def readUserU8 (ptr : ℕ) : Fallible σ Errno UInt8 :=
  match validateUserRange ptr 1 with
  | .error e => Fallible.fail e
  | .ok _ => read ptr

def readUserUsize (ptr : ℕ) : Fallible σ Errno ℕ :=
  match validateUserRange ptr 8 with
  | .error e => Fallible.fail e
  | .ok _ => (readBytes read 8 ptr).andThen fun bytes => Fallible.ret (leNat bytes)

end Reading

end JanuaryOs.Virt

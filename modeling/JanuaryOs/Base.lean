import Mathlib

/-!
# The build-time configuration of the kernel (`os_cfg.toml`), its identifiers and its error numbers
-/

namespace JanuaryOs

/-! ### Configuration -/

def pageSize : ℕ := 4096

/-- First user virtual address; everything below guards null pointers. -/
def userSpaceStart : ℕ := 0x400000

/-- First address above user space. -/
def userSpaceEnd : ℕ := 0x800000000000

def userStackTop : ℕ := 0x7FFFFFFFF000

/-- How far the user stack may grow, in bytes. -/
def userStackSize : ℕ := 8388608

/-- Stack pages mapped by `execve` before the program starts. -/
def userStackInitPages : ℕ := 8

/-- Where the search for free mapping areas starts. -/
def userMmapBase : ℕ := 0x7FFFF0000000

/-! ### Machine words -/

/-- Addition of two `u64` values, as the release build computes it. -/
def u64Add (a b : ℕ) : ℕ := (a + b) % 2 ^ 64

/-- Subtraction of two `u64` values, as the release build computes it. -/
def u64Sub (a b : ℕ) : ℕ := (a + (2 ^ 64 - b)) % 2 ^ 64

/-- Addition of two `u32` values, as the release build computes it. -/
def u32Add (a b : ℕ) : ℕ := (a + b) % 2 ^ 32

/-- Subtraction of two `u32` values, as the release build computes it. -/
def u32Sub (a b : ℕ) : ℕ := (a + (2 ^ 32 - b)) % 2 ^ 32

/-- `saturating_add` on an unsigned type whose largest value is `max`. -/
def satAdd (max a b : ℕ) : ℕ := min max (a + b)

/-- `saturating_mul` on an unsigned type whose largest value is `max`. -/
def satMul (max a b : ℕ) : ℕ := min max (a * b)

/-- `checked_add` on `u64` and `usize`. -/
def checkedAdd (a b : ℕ) : Option ℕ := if a + b < 2 ^ 64 then some (a + b) else none

theorem checkedAdd_eq_some {a b c : ℕ} : checkedAdd a b = some c ↔ a + b = c ∧ c < 2 ^ 64 := by
  unfold checkedAdd
  split
  · rename_i h
    exact ⟨fun hc => Option.some.inj hc ▸ ⟨rfl, h⟩, fun hc => congrArg some hc.1⟩
  · rename_i h
    exact ⟨nofun, fun hc => absurd (hc.1 ▸ hc.2) h⟩

/-- Largest `u32`. -/
def u32Max : ℕ := 4294967295

/-- Largest `u64`, also the largest `usize`. -/
def u64Max : ℕ := 18446744073709551615

/-- The number that bytes denote, the lowest byte first. -/
def leNat : List UInt8 → ℕ
  | [] => 0
  | b :: bs => b.toNat + 256 * leNat bs

/-- The bytes of a word, the lowest byte first. -/
def leBytes : ℕ → ℕ → List UInt8
  | 0, _ => []
  | n + 1, value => UInt8.ofNat value :: leBytes n (value / 256)

def pageAlignUp (addr : ℕ) : ℕ := u64Add addr (pageSize - 1) / pageSize * pageSize

def pageAlignDown (addr : ℕ) : ℕ := addr / pageSize * pageSize

theorem pageSize_dvd_pageAlignUp (addr : ℕ) : pageSize ∣ pageAlignUp addr := Nat.dvd_mul_left _ _

theorem pageSize_dvd_pageAlignDown (addr : ℕ) : pageSize ∣ pageAlignDown addr :=
  Nat.dvd_mul_left _ _

/-! ### Identifiers -/

abbrev ProcessId := ℕ

abbrev TaskId := ℕ

/-- Handle of an `Mm`, standing for the source's `*mut Mm`. -/
abbrev MmId := ℕ

/-- Page frame number: a physical address divided by the page size. -/
abbrev Pfn := ℕ

/-- The kernel's own address space, which is never released. -/
def initMm : MmId := 0

/-! ### Errors -/

inductive Errno
  | EPERM
  | ENOENT
  | ESRCH
  | E2BIG
  | EBADF
  | EAGAIN
  | ENOMEM
  | EACCES
  | EFAULT
  | EBUSY
  | ENOTDIR
  | EISDIR
  | EINVAL
  | ENOEXEC
  | ENODEV
  | EROFS
  | ESPIPE
  | EPIPE
  | ENAMETOOLONG
  | ENOSYS
  deriving Repr, DecidableEq

end JanuaryOs

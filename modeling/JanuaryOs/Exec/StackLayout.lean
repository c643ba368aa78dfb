import JanuaryOs.Exec.Execve
import JanuaryOs.Virt.CopyOnWrite

/-!
# Where `setup_initial_user_stack` leaves the stack pointer

For any stack and any arguments. A store may fault, so the results are about the
runs in which the machine goes on.

The block of words is padded the wrong way round. The stack pointer is rounded
down to sixteen bytes first, and the pad is added when the number of words is
even; so the stack pointer of a new program is eight bytes away from a multiple
of sixteen, whatever its arguments are.
-/

namespace JanuaryOs.Exec

open Lib Lib.Fallible Virt Virt.Kernel Proc

variable {k k' : Kernel} {id : MmId} {recorded : List ExecMappedPage}
  {sp sp' bottom stackTop stackPages : ℕ} {argv envp : List (List UInt8)} {auxv : List (ℕ × ℕ)}

theorem pushWords_sp {words : List ℕ}
    (hcall : pushWords recorded id bottom words sp k = some (.ok sp', k')) :
    sp' + 8 * words.length = sp := by
  induction words generalizing sp k with
  | nil =>
    cases hcall
    rfl
  | cons value rest ih =>
    rw [pushWords] at hcall
    split at hcall
    · cases hcall
    split at hcall
    · cases hcall
    obtain ⟨_, k1, -, hcall⟩ := andThen_ok hcall
    have hsp := ih hcall
    rw [List.length_cons]
    omega

/-- The pad is there for an even number of words, so what is pushed takes an odd
number of them. -/
theorem pushArgumentBlock_sp {words : List ℕ}
    (hcall : pushArgumentBlock recorded id bottom sp words k = some (.ok sp', k')) :
    sp' % 16 = 8 := by
  rw [pushArgumentBlock] at hcall
  split at hcall
  · split at hcall
    · cases hcall
    split at hcall
    · cases hcall
    · have hsp := pushWords_sp hcall
      rw [List.length_reverse] at hsp
      omega
  · have hsp := pushWords_sp hcall
    rw [List.length_reverse] at hsp
    omega

/-- Whatever is on a stack and wherever it is, its pointer is eight bytes away
from a multiple of sixteen. -/
theorem initial_stack_pointer_never_aligned
    (hcall : setupInitialUserStack recorded id stackTop stackPages argv envp auxv k =
      some (.ok sp, k')) : sp % 16 = 8 ∧ (16 ∣ sp ↔ False) := by
  rw [setupInitialUserStack] at hcall
  split at hcall
  · cases hcall
  split at hcall
  · cases hcall
  obtain ⟨env, k1, -, hcall⟩ := andThen_ok hcall
  obtain ⟨arg, k2, -, hcall⟩ := andThen_ok hcall
  obtain ⟨sp, k3, hblock, hcall⟩ := andThen_ok hcall
  obtain ⟨_, k4, -, hcall⟩ := andThen_ok hcall
  cases hcall
  have hsp := pushArgumentBlock_sp hblock
  exact ⟨hsp, iff_false_intro (by omega)⟩

/-- One page for a stack that is not present yet. -/
def stackArea : Kernel :=
  { oneMm.memStep ({}, mapAt userSpaceStart (protRead ||| protWrite)) with
    env := { frames := [some 5] } }

/-- Set up a stack on that page for a program with one argument. -/
def setupOneArgument : UserM ℕ :=
  setupInitialUserStack [] 1 (userSpaceStart + pageSize) 1 [[97]] [] [(6, pageSize)]

theorem initial_stack_pointer_never_aligned_oneArgument :
    ∃ sp k', setupOneArgument stackArea = some (.ok sp, k') ∧ sp % 16 = 8 ∧ (16 ∣ sp ↔ False) := by
  have hexec : ((setupOneArgument stackArea).bind fun r => r.1.toOption).isSome = true := by
    decide
  obtain ⟨sp, hsp⟩ := Option.isSome_iff_exists.1 hexec
  obtain ⟨⟨_ | sp, k'⟩, hcall, hr⟩ := Option.bind_eq_some_iff.1 hsp
  · cases hr
  · exact ⟨sp, k', hcall, initial_stack_pointer_never_aligned hcall⟩

/-- One argument, and a stack that ends at a page boundary. -/
theorem initial_stack_pointer_off_by_eight :
    (userSpaceStart + pageSize) % 16 = 0 ∧ ((setupOneArgument stackArea).map fun r =>
      r.1.toOption.map (· % 16)) = some (some 8) := by
  decide

end JanuaryOs.Exec

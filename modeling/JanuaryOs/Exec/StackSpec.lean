import JanuaryOs.Exec.AreaSpec
import JanuaryOs.Exec.Execve

/-!
# The initial stack of a new program

`setup_initial_user_stack` writes to pages that were mapped for it just before,
so its stores do not fault, and whether it succeeds is a matter of size only:
the strings, rounded up to sixteen bytes, and an odd number of words have to fit
into the pages of the stack. Each loop below is described by where it leaves the
stack pointer, or by how much it lacked.
-/

namespace JanuaryOs.Exec

open Lib Lib.Fallible Virt Virt.Kernel Proc List

variable {k0 : Kernel} {recorded : List ExecMappedPage} {id : MmId} {lo hi : ℕ}

/-! ### Stores that do not fault -/

/-- Stores between two addresses do not fault. -/
def Writable (k : Kernel) (id : MmId) (lo hi : ℕ) : Prop :=
  ∀ addr, lo ≤ addr → addr < hi → ∃ pte, k.accessible id addr .write = some pte

/-- The bytes are stored and the books are as before. -/
def Stored (k0 : Kernel) (r : Except Errno Unit) (k : Kernel) : Prop :=
  r = .ok () ∧ SameBooks k0 k

theorem accessible_sameBooks {k : Kernel} (h : SameBooks k0 k) (id : MmId) (addr : ℕ)
    (kind : Access) : k.accessible id addr kind = k0.accessible id addr kind := by
  rw [accessible, translate_eq_pte, h.pte, accessible, translate_eq_pte]

theorem writeByte_stored {addr : ℕ} (hw : Writable k0 id lo hi) (hlo : lo ≤ addr) (hhi : addr < hi)
    (byte : UInt8) : Triple (SameBooks k0) (UserM.writeByte recorded id addr byte) (Stored k0) := by
  intro k hk
  obtain ⟨pte, hpte⟩ := hw addr hlo hhi
  refine ⟨.ok (), k.pokeByte pte.pfn (addr % pageSize) byte, ?_, rfl, hk.frames, hk.mms, hk.fs⟩
  rw [UserM.writeByte, access, accessible_sameBooks hk, hpte]
  rfl

theorem writeBytes_stored (hw : Writable k0 id lo hi) (bytes : List UInt8) (addr : ℕ)
    (hlo : lo ≤ addr) (hhi : addr + bytes.length ≤ hi) :
    Triple (SameBooks k0) (UserM.writeBytes recorded id bytes addr) (Stored k0) := by
  induction bytes generalizing addr with
  | nil => exact .ret fun k hk => ⟨rfl, hk⟩
  | cons b bytes ih =>
    rw [length_cons] at hhi
    refine .andThen (writeByte_stored hw hlo (by omega) b) (fun e k h => nomatch h.1)
      fun _ => ?_
    exact (ih (addr + 1) (by omega) (by omega)).weaken (fun k hk => hk.2) fun _ _ h => h

theorem writeUserBytes_stored (hw : Writable k0 id lo hi) (hend : hi ≤ userSpaceEnd)
    (src : List UInt8) (dst : ℕ) (hlo : lo ≤ dst) (hhi : dst + src.length ≤ hi) :
    Triple (SameBooks k0) (writeUserBytes recorded id dst src) (Stored k0) := by
  have hmax : userSpaceEnd ≤ u64Max := by decide
  rw [writeUserBytes]
  split
  · exact .ret fun k hk => ⟨rfl, hk⟩
  rename_i hne
  have hpos := length_pos_iff.2 hne
  rw [if_neg (by omega), if_neg (by omega)]
  exact writeBytes_stored hw src dst hlo hhi

theorem writeUserUsize_stored (hw : Writable k0 id lo hi) (hend : hi ≤ userSpaceEnd)
    (dst value : ℕ) (hlo : lo ≤ dst) (hhi : dst + 8 ≤ hi) :
    Triple (SameBooks k0) (writeUserUsize recorded id dst value) (Stored k0) := by
  have hmax : userSpaceEnd ≤ u64Max := by decide
  rw [writeUserUsize, if_neg (by omega), if_neg (by omega)]
  exact writeBytes_stored hw _ dst hlo hhi

/-! ### Pushing -/

def stringBytes (values : List (List UInt8)) : ℕ := (values.map fun v => v.length + 1).sum

theorem stringBytes_reverse (values : List (List UInt8)) :
    stringBytes values.reverse = stringBytes values := by
  rw [stringBytes, map_reverse, sum_reverse, stringBytes]

/-- Where pushing strings leaves the stack pointer, or that there is no room for
them. -/
def StringsPushed (k0 : Kernel) (lo sp : ℕ) (values : List (List UInt8))
    (r : Except Errno (ℕ × List ℕ)) (k : Kernel) : Prop :=
  SameBooks k0 k ∧
    match r with
    | .ok (sp', ptrs) => sp' + stringBytes values = sp ∧ lo ≤ sp' ∧ ptrs.length = values.length
    | .error _ => sp < lo + stringBytes values

theorem pushStrings_pushed (hw : Writable k0 id lo hi) (hend : hi ≤ userSpaceEnd)
    (values : List (List UInt8)) (sp : ℕ) (hlo : lo ≤ sp) (hhi : sp ≤ hi) :
    Triple (SameBooks k0) (pushStrings recorded id lo values sp)
      (StringsPushed k0 lo sp values) := by
  induction values generalizing sp with
  | nil => exact .ret fun k hk => ⟨hk, rfl, hlo, rfl⟩
  | cons value rest ih =>
    have hbytes : stringBytes (value :: rest) = value.length + 1 + stringBytes rest := by
      simp [stringBytes]
    rw [pushStrings]
    split
    · exact .fail fun k hk => ⟨hk, by rw [hbytes]; omega⟩
    simp only
    split
    · exact .fail fun k hk => ⟨hk, by rw [hbytes]; omega⟩
    have hbelow := ih (sp - (value.length + 1)) (by omega) (by omega)
    refine .andThen (writeUserBytes_stored hw hend value _ (by omega) (by omega))
      (fun e k h => nomatch h.1) fun _ => ?_
    refine .andThen ((writeUserBytes_stored hw hend [0] _ (by omega)
      (by simp only [length_singleton]; omega)).weaken (fun k hk => hk.2) fun _ _ h => h)
      (fun e k h => nomatch h.1) fun _ => ?_
    refine .andThen (hbelow.weaken (fun k hk => hk.2) fun _ _ h => h) (fun e k h => ?_)
      fun below => .ret fun k h => ?_
    · exact ⟨h.1, by have := h.2; simp only at this ⊢; omega⟩
    · obtain ⟨hk, hsum, hle, hlen⟩ := h
      exact ⟨hk, by omega, hle, by rw [length_cons, hlen, length_cons]⟩

/-- Where pushing words leaves the stack pointer, or that there is no room for
them. -/
def WordsPushed (k0 : Kernel) (lo sp n : ℕ) (r : Except Errno ℕ) (k : Kernel) : Prop :=
  SameBooks k0 k ∧
    match r with
    | .ok sp' => sp' + 8 * n = sp ∧ lo ≤ sp'
    | .error _ => sp < lo + 8 * n

theorem pushWords_pushed (hw : Writable k0 id lo hi) (hend : hi ≤ userSpaceEnd)
    (words : List ℕ) (sp : ℕ) (hlo : lo ≤ sp) (hhi : sp ≤ hi) :
    Triple (SameBooks k0) (pushWords recorded id lo words sp)
      (WordsPushed k0 lo sp words.length) := by
  induction words generalizing sp with
  | nil => exact .ret fun k hk => ⟨hk, rfl, hlo⟩
  | cons value rest ih =>
    rw [pushWords, length_cons]
    split
    · exact .fail fun k hk => ⟨hk, by omega⟩
    split
    · exact .fail fun k hk => ⟨hk, by omega⟩
    refine .andThen (writeUserUsize_stored hw hend (sp - 8) value (by omega) (by omega))
      (fun e k h => nomatch h.1) fun _ => ?_
    refine (ih (sp - 8) (by omega) (by omega)).weaken (fun k hk => hk.2) fun r k h => ?_
    refine ⟨h.1, ?_⟩
    have h := h.2
    cases r with
    | error e => simp only at h ⊢; omega
    | ok sp' => exact ⟨by omega, h.2⟩

/-- Whether the stack has room for the words after aligning. -/
def BlockPushed (k0 : Kernel) (lo sp n : ℕ) (r : Except Errno ℕ) (k : Kernel) : Prop :=
  SameBooks k0 k ∧
    match r with
    | .ok _ => lo + 8 * (n / 2 * 2 + 1) ≤ sp / 16 * 16
    | .error _ => sp / 16 * 16 < lo + 8 * (n / 2 * 2 + 1)

theorem pushArgumentBlock_pushed (hw : Writable k0 id lo hi) (hend : hi ≤ userSpaceEnd)
    (haligned : lo % 16 = 0) (words : List ℕ) (sp : ℕ) (hlo : lo ≤ sp) (hhi : sp ≤ hi) :
    Triple (SameBooks k0) (pushArgumentBlock recorded id lo sp words)
      (BlockPushed k0 lo sp words.length) := by
  rw [pushArgumentBlock]
  split
  · split
    · exact .fail fun k hk => ⟨hk, by omega⟩
    split
    · exact .fail fun k hk => ⟨hk, by omega⟩
    refine (pushWords_pushed hw hend words.reverse _ (by omega) (by omega)).weaken
      (fun k hk => hk) fun r k h => ⟨h.1, ?_⟩
    have h := h.2
    rw [length_reverse] at h
    cases r <;> simp only at h ⊢ <;> omega
  · refine (pushWords_pushed hw hend words.reverse _ (by omega) (by omega)).weaken
      (fun k hk => hk) fun r k h => ⟨h.1, ?_⟩
    have h := h.2
    rw [length_reverse] at h
    cases r <;> simp only at h ⊢ <;> omega

/-! ### The whole stack -/

/-- The strings and the words above the first argument fit into the initial
stack. -/
def StackFits (argv envp : List (List UInt8)) : Prop :=
  (stringBytes argv + stringBytes envp + 15) / 16 * 16 +
    8 * ((argv.length + envp.length + 15) / 2 * 2 + 1) ≤ userStackInitPages * pageSize
deriving Decidable

/-- Only the argument fields of one address space are new. -/
def ArgumentsRecorded (k0 : Kernel) (id : MmId) (k : Kernel) : Prop :=
  ∃ argStart argEnd envStart envEnd, SameBooks { k0 with mms := k0.mms.modify id fun mm =>
    { mm with argStart := argStart, argEnd := argEnd, envStart := envStart, envEnd := envEnd } } k

theorem stackWords_length (argvPtrs envpPtrs : List ℕ) (plan : ExecLoadPlan) :
    (stackWords argvPtrs envpPtrs (minimalAuxv plan)).length =
      argvPtrs.length + envpPtrs.length + 15 := by
  simp [stackWords, minimalAuxv]
  omega

/-- The stack of a new program is set up if and only if the arguments fit. -/
theorem setupInitialUserStack_spec {imageLen : ℕ} {plan : ExecLoadPlan} (hplan : plan.Ok imageLen)
    (hw : Writable k0 id plan.stackBottom plan.stackTop) (argv envp : List (List UInt8)) :
    ∃ r k, setupInitialUserStack recorded id plan.stackTop plan.stackPages argv envp
        (minimalAuxv plan) k0 = some (r, k) ∧
      ((∃ sp, r = .ok sp) ∧ StackFits argv envp ∧ ArgumentsRecorded k0 id k ∨
        (∃ e, r = .error e) ∧ ¬ StackFits argv envp ∧ SameBooks k0 k) := by
  have htop : plan.stackTop = 0x7FFFFFFFF000 := hplan.stackTop
  have hbottom : plan.stackBottom = 0x7FFFFFFF7000 := stackBottom_eq hplan
  have hpages : plan.stackPages = 8 := hplan.stackPages
  have hroom : userStackInitPages * pageSize = 0x8000 := rfl
  have hsize : plan.stackPages * pageSize = 0x8000 := by rw [hpages]; rfl
  have hend : plan.stackTop ≤ userSpaceEnd := by rw [htop]; decide
  suffices h : Triple (SameBooks k0) (setupInitialUserStack recorded id plan.stackTop
      plan.stackPages argv envp (minimalAuxv plan)) fun r k =>
        (∃ sp, r = .ok sp) ∧ StackFits argv envp ∧ ArgumentsRecorded k0 id k ∨
          (∃ e, r = .error e) ∧ ¬ StackFits argv envp ∧ SameBooks k0 k from
    h k0 ⟨rfl, rfl, rfl⟩
  rw [setupInitialUserStack, if_neg (by omega), if_neg (by omega)]
  refine .andThen (pushStrings_pushed hw hend envp.reverse _ (by omega) le_rfl)
    (fun e k h => .inr ⟨⟨e, rfl⟩, ?_, h.1⟩) fun env => ?_
  · have h := h.2
    rw [stringBytes_reverse] at h
    simp only [StackFits] at h ⊢
    omega
  refine .assume fun ⟨hsp, hle, hlen⟩ => ?_
  rw [stringBytes_reverse] at hsp
  rw [length_reverse] at hlen
  refine .andThen (pushStrings_pushed hw hend argv.reverse _ hle (by omega))
    (fun e k h => .inr ⟨⟨e, rfl⟩, ?_, h.1⟩) fun arg => ?_
  · have h := h.2
    rw [stringBytes_reverse] at h
    simp only [StackFits] at h ⊢
    omega
  refine .assume fun ⟨hsp', hle', hlen'⟩ => ?_
  rw [stringBytes_reverse] at hsp'
  rw [length_reverse] at hlen'
  have hwords : (stackWords arg.2.reverse env.2.reverse (minimalAuxv plan)).length =
      argv.length + envp.length + 15 := by
    rw [stackWords_length, length_reverse, length_reverse, hlen, hlen']
  refine .andThen (pushArgumentBlock_pushed hw hend (by omega) _ _ hle' (by omega))
    (fun e k h => .inr ⟨⟨e, rfl⟩, ?_, h.1⟩) fun sp => ?_
  · have h := h.2
    rw [hwords] at h
    simp only [StackFits] at h ⊢
    omega
  refine .assume fun hfits => ?_
  rw [hwords] at hfits
  intro k hk
  refine ⟨.ok sp, _, rfl, .inl ⟨⟨sp, rfl⟩, ?_, arg.2.reverse.head?.getD 0,
    stringsEnd arg.2.reverse argv, env.2.reverse.head?.getD 0, stringsEnd env.2.reverse envp,
    hk.frames, ?_, hk.fs⟩⟩
  · simp only [StackFits]
    omega
  · simp only [hk.mms]

end JanuaryOs.Exec

import JanuaryOs.Exec.LoadSpec

/-!
# Reading the arguments of an `execve`

A byte on a page that is not present is faulted in, which changes the address
space before the call has done anything else. `peekPayload` reads the arguments
without that. Where it succeeds the call reads the same and touches nothing;
where it does not, some page has become present that was not.
-/

namespace JanuaryOs.Virt.Kernel

open Lib
open Proc (ExecMappedPage)

variable {k k' : Kernel} {id : MmId}

/-- The address space is there and its counters fit their words. -/
def WordsAt (k : Kernel) (id : MmId) : Prop := ∃ mm, k.mms.get? id = some mm ∧ mm.Words

theorem WordsAt.of_skeleton (h : k'.skeleton = k.skeleton) (hw : WordsAt k id) : WordsAt k' id := by
  obtain ⟨mm, hid, hwords⟩ := hw
  obtain ⟨mm', hid', hsk⟩ := exists_mm_of_skeleton hid h
  exact ⟨mm', hid', Mm.words_of_skeleton hsk hwords⟩

theorem handlePageFault_words (k : Kernel) (recorded : List ExecMappedPage) (addr : ℕ)
    (error : PageFaultError) (h : WordsAt k id) :
    WordsAt (k.handlePageFault recorded id addr error).2 id := by
  rcases (handlePageFault_enters k recorded id addr error).skeleton with hsk | ⟨mm, hid, hsk⟩
  · exact h.of_skeleton hsk
  obtain ⟨_, hid0, hwords⟩ := h
  cases hid.symm.trans hid0
  exact WordsAt.of_skeleton hsk
    ⟨_, OrdMap.get?_insert_self .., Mm.expandStackForFault_words hwords addr⟩

end JanuaryOs.Virt.Kernel

namespace JanuaryOs.Exec

open Lib Lib.Fallible Virt Virt.Kernel Proc

variable {id : MmId}

/-! ### Reading with and without faults -/

/-- Pages that are present stay. -/
structure Grows (id : MmId) (k k' : Kernel) : Prop where
  pte : ∀ n p, k.pte id n = some p → k'.pte id n = some p
  words : WordsAt k id → WordsAt k' id

/-- A page has become present. -/
def FaultedIn (id : MmId) (k k' : Kernel) : Prop :=
  Grows id k k' ∧ ∃ n, k.pte id n = none ∧ k'.pte id n ≠ none

theorem growth (id : MmId) : Growth (Grows id) (FaultedIn id) where
  refl _ := ⟨fun _ _ h => h, fun h => h⟩
  trans _ _ _ h1 h2 := ⟨fun n p hp => h2.pte n p (h1.pte n p hp), fun h => h2.words (h1.words h)⟩
  moved s t u h1 h2 := by
    obtain ⟨hgrows, n, habs, hpres⟩ := h1
    obtain ⟨p, hp⟩ := Option.ne_none_iff_exists'.1 hpres
    refine ⟨⟨fun n p hp => h2.pte n p (hgrows.pte n p hp), fun h => h2.words (hgrows.words h)⟩, n,
      habs, ?_⟩
    rw [h2.pte n p hp]
    nofun

theorem readByte_shadows (recorded : List ExecMappedPage) (addr : ℕ) :
    Shadows (Grows id) (FaultedIn id) (UserM.peekByte id addr)
      (UserM.readByte recorded id addr) := by
  have hcases : ∀ k, (∃ r, UserM.peekByte id addr k = some (r, k) ∧
      UserM.readByte recorded id addr k = some (r, k)) ∨ UserM.peekByte id addr k = none ∧
        ∀ r k', UserM.readByte recorded id addr k = some (r, k') → FaultedIn id k k' := by
    intro k
    unfold UserM.peekByte UserM.readByte access load
    cases hpte : k.translate id addr with
    | some p =>
      have hacc : k.accessible id addr .read = some p := by rw [accessible, hpte]; rfl
      exact .inl ⟨_, rfl, by simp only [hacc, Option.map_some]⟩
    | none =>
      have hacc : k.accessible id addr .read = none := by rw [accessible, hpte]; rfl
      refine .inr ⟨rfl, fun r k' h => ?_⟩
      have henters := handlePageFault_enters k recorded id addr (k.faultError id addr .read)
      have hwords := @handlePageFault_words id k recorded addr (k.faultError id addr .read)
      simp only [hacc, pageFaultHandler] at h
      generalize k.handlePageFault recorded id addr (k.faultError id addr .read) = handled
        at h henters hwords
      obtain ⟨result, k1⟩ := handled
      cases result <;> try cases h
      obtain ⟨⟨p, k2⟩, hp, heq⟩ := Option.map_eq_some_iff.1 h
      obtain ⟨q, hq, heq'⟩ := Option.map_eq_some_iff.1 hp
      cases heq
      cases heq'
      refine ⟨⟨fun n p hp => ?_, hwords⟩, pageNumber addr, hpte, fun hnone => ?_⟩
      · refine (henters.others id n ?_).trans hp
        rintro ⟨-, rfl⟩
        cases hp.symm.trans hpte
      · rw [accessible, translate_eq_pte, hnone] at hq
        cases hq
  refine ⟨fun k r k' h => ?_, hcases⟩
  rcases hcases k with ⟨r', -, hread⟩ | ⟨-, hmoved⟩
  · rw [hread] at h
    cases h
    exact (growth id).refl k
  · exact (hmoved r k' h).1

variable {σ : Type} {R M : σ → σ → Prop} {read read' : ℕ → Fallible σ Errno UInt8}

section Parse

variable (hg : Growth R M) (hread : ∀ addr, Shadows R M (read addr) (read' addr))
include hg hread

theorem readBytes_shadows (n addr : ℕ) :
    Shadows R M (readBytes read n addr) (readBytes read' n addr) := by
  induction n generalizing addr with
  | zero => exact .ret hg _
  | succ n ih =>
    exact .andThen hg (hread addr) fun b => .andThen hg (ih (addr + 1)) fun bs => .ret hg _

theorem readUserU8_shadows (ptr : ℕ) :
    Shadows R M (readUserU8 read ptr) (readUserU8 read' ptr) := by
  unfold readUserU8
  split
  · exact .fail hg _
  · exact hread ptr

theorem readUserUsize_shadows (ptr : ℕ) :
    Shadows R M (readUserUsize read ptr) (readUserUsize read' ptr) := by
  unfold readUserUsize
  split
  · exact .fail hg _
  · exact .andThen hg (readBytes_shadows hg hread 8 ptr) fun bytes => .ret hg _

theorem readCstringLoop_shadows (ptr rounds offset : ℕ) (bytes : List UInt8) :
    Shadows R M (readCstringLoop read ptr rounds offset bytes)
      (readCstringLoop read' ptr rounds offset bytes) := by
  induction rounds generalizing offset bytes with
  | zero => exact .fail hg _
  | succ rounds ih =>
    unfold readCstringLoop
    split
    · exact .fail hg _
    refine .andThen hg (readUserU8_shadows hg hread _) fun value => ?_
    split
    · split
      · exact .ret hg _
      · exact .fail hg _
    · exact ih (offset + 1) (bytes ++ [value])

theorem readUserCstring_shadows (ptr maxLen : ℕ) :
    Shadows R M (readUserCstring read ptr maxLen) (readUserCstring read' ptr maxLen) := by
  unfold readUserCstring
  split
  · exact .fail hg _
  · exact readCstringLoop_shadows hg hread ptr maxLen 0 []

theorem readStringArrayLoop_shadows (listPtr itemLen rounds index : ℕ)
    (result : List (List UInt8)) (usedBytes : ℕ) :
    Shadows R M (readStringArrayLoop read listPtr itemLen rounds index result usedBytes)
      (readStringArrayLoop read' listPtr itemLen rounds index result usedBytes) := by
  induction rounds generalizing index result usedBytes with
  | zero => exact .fail hg _
  | succ rounds ih =>
    unfold readStringArrayLoop
    split
    · exact .fail hg _
    refine .andThen hg (readUserUsize_shadows hg hread _) fun valuePtr => ?_
    split
    · exact .ret hg _
    refine .andThen hg (readUserCstring_shadows hg hread _ _) fun value => ?_
    split
    · exact .fail hg _
    · exact ih (index + 1) (result ++ [value]) (usedBytes + (value.length + 1))

theorem readUserStringArray_shadows (listPtr maxItems itemLen : ℕ) :
    Shadows R M (readUserStringArray read listPtr maxItems itemLen)
      (readUserStringArray read' listPtr maxItems itemLen) := by
  unfold readUserStringArray
  split
  · exact .ret hg _
  · exact readStringArrayLoop_shadows hg hread listPtr itemLen maxItems 0 [] 0

theorem parseExecvePayload_shadows (pathPtr argvPtr envpPtr : ℕ) :
    Shadows R M (parseExecvePayload read pathPtr argvPtr envpPtr)
      (parseExecvePayload read' pathPtr argvPtr envpPtr) := by
  refine .andThen hg (readUserCstring_shadows hg hread _ _) fun path => ?_
  refine .andThen hg (readUserStringArray_shadows hg hread _ _ _) fun argv => ?_
  refine .andThen hg (readUserStringArray_shadows hg hread _ _ _) fun envp => ?_
  split
  · exact .fail hg _
  · exact .ret hg _

end Parse

/-- The arguments of a call, if every page that they are read from is present. -/
def peekPayload (k : Kernel) (id : MmId) (pathPtr argvPtr envpPtr : ℕ) :
    Option (Except Errno ExecPayload) :=
  (parseExecvePayload (UserM.peekByte id) pathPtr argvPtr envpPtr k).map Prod.fst

/-- Arguments on present pages are read and nothing happens; otherwise a page is
faulted in. -/
theorem parseExecvePayload_resident {recorded : List ExecMappedPage} {pathPtr argvPtr envpPtr : ℕ}
    {k k' : Kernel} {r : Except Errno ExecPayload}
    (h : parseExecvePayload (UserM.readByte recorded id) pathPtr argvPtr envpPtr k = some (r, k')) :
    peekPayload k id pathPtr argvPtr envpPtr = some r ∧ k' = k ∨
      peekPayload k id pathPtr argvPtr envpPtr = none ∧ FaultedIn id k k' := by
  unfold peekPayload
  rcases (parseExecvePayload_shadows (growth id) (readByte_shadows recorded) pathPtr argvPtr
    envpPtr).cases k with ⟨r', hpeek, hread⟩ | ⟨hpeek, hmoved⟩
  · cases h.symm.trans hread
    exact .inl ⟨by rw [hpeek]; rfl, rfl⟩
  · exact .inr ⟨by rw [hpeek]; rfl, hmoved r k' h⟩

end JanuaryOs.Exec

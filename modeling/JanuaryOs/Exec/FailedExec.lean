import JanuaryOs.Exec.Resident
import JanuaryOs.Virt.CopyOnWrite

/-!
# Who notices an `execve`

A call that fails puts the recorded pages back as they were recorded. The caller
does not notice exactly if they still are as recorded, which a copy on write, an
`mprotect` or a `munmap` since the last `execve` prevents. A child that shares
the address space of its parent has no record at all, so it undoes its own
failures; but where it succeeds it has exchanged the image of the parent.
-/

namespace JanuaryOs.Exec

open Lib Virt Virt.Kernel Proc

variable {k k' : Kernel} {id : MmId} {mm : Mm} {recorded recorded' : List ExecMappedPage}
  {x : ExecEnv} {pathPtr argvPtr envpPtr : ℕ} {e : Errno}

/-! ### Failed calls -/

/-- The recorded pages are as a failed call leaves them: as recorded, or not
present if page tables for them are missing. -/
def RecordFaithful (x : ExecEnv) (k : Kernel) (id : MmId) (recorded : List ExecMappedPage) : Prop :=
  if RestoreTables x k id recorded then
    ∀ m ∈ recorded, k.pte id (page m) = some ⟨m.phys, m.flags⟩
  else ∀ m ∈ recorded, k.pte id (page m) = none

instance (x : ExecEnv) (k : Kernel) (id : MmId) (recorded : List ExecMappedPage) :
    Decidable (RecordFaithful x k id recorded) :=
  inferInstanceAs (Decidable (if RestoreTables x k id recorded then
    ∀ m ∈ recorded, k.pte id (page m) = some ⟨m.phys, m.flags⟩
  else ∀ m ∈ recorded, k.pte id (page m) = none))

theorem Restored.space_eq_iff (h : Restored x k id recorded recorded' k') :
    k'.mms.get? id = k.mms.get? id ↔ RecordFaithful x k id recorded := by
  have hpages : (∀ n, k'.pte id n = k.pte id n) ↔
      ∀ m ∈ recorded, k'.pte id (page m) = k.pte id (page m) := by
    refine ⟨fun h m _ => h (page m), fun hrec n => ?_⟩
    by_cases hn : n ∈ recorded.map page
    · obtain ⟨m, hm, rfl⟩ := List.mem_map.1 hn
      exact hrec m hm
    · exact h.others id n fun hin => hn hin.2
  rw [Kernel.space_eq_iff, h.skeleton, hpages, RecordFaithful]
  simp only [true_and]
  rcases h.outcome with ⟨htables, -, hpte⟩ | ⟨htables, -, hpte⟩
  · rw [if_pos htables]
    exact forall₂_congr fun m hm => by rw [hpte m hm, eq_comm]
  · rw [if_neg htables]
    exact forall₂_congr fun m hm => by rw [hpte m hm, eq_comm]

/-- If the page tables are found, a page that reading the arguments faulted in
stays. -/
theorem Restored.faultedIn {k1 : Kernel} (h : Restored x k1 id recorded recorded' k')
    (hfaulted : FaultedIn id k k1) (htables : ∀ b ∈ x.restoreTables, b = true) :
    k'.mms.get? id ≠ k.mms.get? id := by
  intro heq
  obtain ⟨-, n, habs, hpres⟩ := hfaulted
  have hsame := (Kernel.space_eq_iff.1 heq).2 n
  rw [habs] at hsame
  by_cases hn : n ∈ recorded.map page
  · obtain ⟨m, hm, rfl⟩ := List.mem_map.1 hn
    rcases h.outcome with ⟨-, -, hpte⟩ | ⟨hmissing, -, -⟩
    · rw [hpte m hm] at hsame
      cases hsame
    · exact hmissing fun b hb => htables b (List.mem_of_mem_take hb)
  · rw [h.others id n fun hin => hn hin.2] at hsame
    exact hpres hsame

theorem FaultedIn.space_ne (h : FaultedIn id k k') : k'.mms.get? id ≠ k.mms.get? id := by
  intro heq
  obtain ⟨-, n, habs, hpres⟩ := h
  exact hpres (((Kernel.space_eq_iff.1 heq).2 n).trans habs)

/-- A failed call can go unnoticed: its arguments are on present pages, and if
there is a plan for the program, the recorded pages still are as recorded. -/
def Unnoticed (x : ExecEnv) (k : Kernel) (id : MmId) (recorded : List ExecMappedPage)
    (pathPtr argvPtr envpPtr : ℕ) : Prop :=
  ∃ r, peekPayload k id pathPtr argvPtr envpPtr = some r ∧
    ∀ payload, r = .ok payload → x.plan? payload.path ≠ none → RecordFaithful x k id recorded

/-- How a call went: its arguments were on present pages, or pages were faulted
in; then there was no plan, or it was carried out, or undone. -/
theorem sysExecve_cases (hwords : WordsAt k id) (hnodup : (recorded.map page).Nodup)
    {r : Except Errno UserFrame}
    (h : sysExecve x id recorded pathPtr argvPtr envpPtr k = some (r, k', recorded')) :
    ∃ read k1, (peekPayload k id pathPtr argvPtr envpPtr = some read ∧ k1 = k ∨
        peekPayload k id pathPtr argvPtr envpPtr = none ∧ FaultedIn id k k1) ∧
      ((∀ payload, read = .ok payload → x.plan? payload.path = none) ∧ k' = k1 ∨
        ∃ payload plan imageLen, read = .ok payload ∧ x.plan? payload.path = some plan ∧
          plan.Ok imageLen ∧
          (Loads k1 id recorded plan payload ∧ (∀ e, r ≠ .error e) ∧
              Replaced k1 id recorded plan recorded' k' ∨
            ¬ Loads k1 id recorded plan payload ∧ Restored x k1 id recorded recorded' k')) := by
  rw [sysExecve] at h
  cases hparse : parseExecvePayload (UserM.readByte recorded id) pathPtr argvPtr envpPtr k with
  | none =>
    rw [hparse] at h
    cases h
  | some res =>
    obtain ⟨read, k1⟩ := res
    rw [hparse] at h
    have hread := parseExecvePayload_resident hparse
    obtain ⟨mm, hid, hmm⟩ : WordsAt k1 id := by
      rcases hread with ⟨-, rfl⟩ | ⟨-, hfaulted⟩
      · exact hwords
      · exact hfaulted.1.words hwords
    refine ⟨read, k1, hread, ?_⟩
    cases read with
    | error e =>
      cases h
      exact .inl ⟨nofun, rfl⟩
    | ok payload =>
      have h : execvePayload x id recorded payload k1 = some (r, k', recorded') := h
      rcases execvePayload_spec hid hmm hnodup x payload with ⟨hplan, _, hres⟩ |
        ⟨_, plan, -, hplan, hok, ⟨hloads, _, _, _, hres, hdone⟩ | ⟨hloads, _, _, _, hres, hback⟩⟩
      · cases h.symm.trans hres
        refine .inl ⟨fun q hq => ?_, rfl⟩
        cases hq
        exact hplan
      · cases h.symm.trans hres
        exact .inr ⟨payload, plan, _, rfl, hplan, hok, .inl ⟨hloads, nofun, hdone⟩⟩
      · cases h.symm.trans hres
        exact .inr ⟨payload, plan, _, rfl, hplan, hok, .inr ⟨hloads, hback⟩⟩

/-- A failed `execve` leaves the address space of the caller as it was, areas,
layout, counters and translations, exactly if `Unnoticed` holds before it. Only
where an argument page is missing and the page tables run out as well may the
two changes cancel out. -/
theorem failed_execve_unnoticed_iff (hwords : WordsAt k id) (hnodup : (recorded.map page).Nodup)
    {e : Errno}
    (hfail : sysExecve x id recorded pathPtr argvPtr envpPtr k = some (.error e, k', recorded')) :
    (k'.mms.get? id = k.mms.get? id ∧ (peekPayload k id pathPtr argvPtr envpPtr ≠ none ∨
        ∀ b ∈ x.restoreTables, b = true)) ↔
      Unnoticed x k id recorded pathPtr argvPtr envpPtr := by
  obtain ⟨read, k1, ⟨hpeek, rfl⟩ | ⟨hpeek, hfaulted⟩, hcase⟩ := sysExecve_cases hwords hnodup hfail
  · rw [Unnoticed, hpeek, and_iff_left (.inl nofun)]
    simp only [Option.some.injEq, exists_eq_left']
    rcases hcase with ⟨hplan, rfl⟩ | ⟨payload, plan, _, rfl, hplan, -, ⟨-, hok, -⟩ | ⟨-, hback⟩⟩
    · exact iff_of_true rfl fun q hq hne => (hne (hplan q hq)).elim
    · exact (hok e rfl).elim
    · rw [hback.space_eq_iff]
      refine ⟨fun h _ _ _ => h, fun h => h payload rfl ?_⟩
      rw [hplan]
      nofun
  · rw [Unnoticed, hpeek]
    refine iff_of_false ?_ ?_
    · rintro ⟨heq, hne | htables⟩
      · exact hne rfl
      rcases hcase with ⟨-, rfl⟩ | ⟨_, _, _, -, -, -, ⟨-, hok, -⟩ | ⟨-, hback⟩⟩
      · exact hfaulted.space_ne heq
      · exact hok e rfl
      · exact hback.faultedIn hfaulted htables heq
    · rintro ⟨_, hnone, -⟩
      cases hnone

/-! ### A program of one page -/

/-- Every path names this program. -/
def smallEnv : ExecEnv := { readAll := fun _ => .ok smallProgram }

/-- Nine frames, one for each page of the program and of its stack. -/
def nineFrames : Kernel := { oneMm with env := { frames := (List.range' 1 9).map some } }

/-- The program is started with its name `a` as the only argument, and no frame
is left. -/
def started : Kernel × List ExecMappedPage :=
  match execvePayload smallEnv 1 [] ⟨[0x61], [], []⟩ nineFrames with
  | some (.ok _, k, staged) => (k, staged)
  | _ => (nineFrames, [])

/-- Where the name lies on the stack of the started program. -/
def programName : ℕ := 0x7FFFFFFFEFFE

instance (mm : Mm) : Decidable mm.Words :=
  decidable_of_iff
    (mm.vmaCount < 2 ^ 32 ∧ mm.totalVm < 2 ^ 64 ∧ mm.execVm < 2 ^ 64 ∧ mm.stackVm < 2 ^ 64)
    ⟨fun h => ⟨h.1, h.2.1, h.2.2.1, h.2.2.2⟩, fun h => ⟨h.1, h.2, h.3, h.4⟩⟩

instance (k : Kernel) (id : MmId) : Decidable (WordsAt k id) :=
  decidable_of_iff (∃ mm ∈ (k.mms.get? id).toList, mm.Words) (by simp [WordsAt])

/-- Started once more, the program does not find the frames, and nothing has
happened. -/
theorem failed_execve_unnoticed_started : ∃ e k' recorded',
    sysExecve smallEnv 1 started.2 programName 0 0 started.1 = some (.error e, k', recorded') ∧
      k'.mms.get? 1 = started.1.mms.get? 1 := by
  have hcall : (sysExecve smallEnv 1 started.2 programName 0 0 started.1).map
      (fun r => r.1.toOption) = some none := by decide +kernel
  obtain ⟨⟨r, k', recorded'⟩, hfail, hr⟩ := Option.map_eq_some_iff.1 hcall
  cases r with
  | ok frame => cases hr
  | error e =>
    refine ⟨e, k', recorded', hfail, ?_⟩
    have hpeek : (peekPayload started.1 1 programName 0 0).isSome = true := by decide +kernel
    obtain ⟨r, hpeek⟩ := Option.isSome_iff_exists.1 hpeek
    refine ((failed_execve_unnoticed_iff (by decide +kernel) (by decide +kernel) hfail).2
      ⟨r, hpeek, fun _ _ _ => ?_⟩).1
    decide +kernel

/-- The started program has unmapped its own page. -/
def withoutText : Kernel := (started.1.sysMunmap 1 0x400000 4096).2

/-- A failed `execve` maps the page again that the program has unmapped, with
the frame that was given back. -/
theorem unmapped_page_returns :
    (withoutText.translate 1 0x400000 = none ∧ (withoutText.frames 1).Free) ∧
      (sysExecve smallEnv 1 started.2 programName 0 0 withoutText).map
        (fun r => (r.1.toOption, r.2.1.translate 1 0x400000)) =
          some (none, some ⟨1, ⟨false, false⟩⟩) := by
  decide +kernel

end JanuaryOs.Exec

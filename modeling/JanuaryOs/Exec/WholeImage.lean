import JanuaryOs.Exec.FailedExec

/-!
# Whether a new image replaces the whole old one

`execve` unmaps the pages of its own record and nothing else. A page that came
by a fault, with the heap or a mapping, or from the parent at a `fork` is not on
record. In the way of a page of the new image it makes staging fail, and
elsewhere it stays present behind the new image.
-/

namespace JanuaryOs.Virt.Kernel

open List

/-- The frames that are handed out next, looked at one by one. -/
theorem framesReady_iff {frames : Pfn → Frame} {answers : List (Option Pfn)} {n : ℕ} :
    FramesReady frames answers n ↔ (answers.take n).length = n ∧ (answers.take n).Nodup ∧
      ∀ a ∈ answers.take n, ∃ f ∈ a.toList, (frames f).Free := by
  constructor
  · rintro ⟨fs, hlen, ⟨rest, rfl⟩, hnodup, hfree⟩
    have htake : (fs.map some ++ rest).take n = fs.map some := by
      rw [← hlen, ← length_map (f := some), take_left]
    rw [htake, length_map]
    refine ⟨hlen, hnodup.map (Option.some_injective _), fun a ha => ?_⟩
    obtain ⟨f, hf, rfl⟩ := mem_map.1 ha
    exact ⟨f, by simp, hfree f hf⟩
  · rintro ⟨hlen, hnodup, hfree⟩
    have hsome : ∀ l : List (Option Pfn), (∀ a ∈ l, ∃ f ∈ a.toList, (frames f).Free) →
        (l.filterMap id).map some = l := by
      intro l hl
      induction l with
      | nil => rfl
      | cons a l ih =>
        obtain ⟨f, hf, -⟩ := hl a (.head _)
        rw [Option.mem_toList] at hf
        subst hf
        exact congrArg (some f :: ·) (ih fun b hb => hl b (.tail _ hb))
    have hmap := hsome _ hfree
    refine ⟨(answers.take n).filterMap id, ?_, ?_, ?_, fun f hf => ?_⟩
    · rw [← hmap, length_map] at hlen
      exact hlen
    · rw [hmap]
      exact take_prefix n answers
    · rw [← hmap] at hnodup
      exact hnodup.of_map some
    · obtain ⟨g, hg, hfree⟩ := hfree (some f) (hmap ▸ mem_map_of_mem hf)
      simp only [Option.toList_some, mem_singleton] at hg
      exact hg ▸ hfree

instance (frames : Pfn → Frame) (answers : List (Option Pfn)) (n : ℕ) :
    Decidable (FramesReady frames answers n) :=
  decidable_of_iff _ framesReady_iff.symm

end JanuaryOs.Virt.Kernel

namespace JanuaryOs.Exec

open Lib Virt Virt.Kernel Proc

variable {k k' : Kernel} {id : MmId} {mm : Mm} {recorded : List ExecMappedPage} {x : ExecEnv}
  {image : List UInt8} {plan : ExecLoadPlan} {payload : ExecPayload}

/-- The pages of a plan, by number. -/
def ExecLoadPlan.pages (plan : ExecLoadPlan) : List ℕ :=
  plan.stagePages.map fun p => pageNumber p.virt

/-- Frames and page tables for a new image are found. -/
def AllocationSucceeds (k : Kernel) (plan : ExecLoadPlan) : Prop :=
  FramesReady k.frames k.env.frames plan.stagePages.length ∧ ∀ b ∈ k.env.tables, b = true
deriving Decidable

/-- With enough memory, staging fails exactly if a target page is present and
not on record. -/
theorem staging_succeeds_iff (hid : k.mms.get? id = some mm) (hplan : plan.Ok image.length)
    (hstack : StackApart plan) (halloc : AllocationSucceeds k plan) :
    (∃ staged k1, stagePtLoadMappings (unmapExecMappings k id recorded) id image plan =
      (.ok staged, k1)) ↔ ∀ n ∈ plan.pages, k.pte id n ≠ none → n ∈ recorded.map page := by
  obtain ⟨hdropped, hframes⟩ := unmapExecMappings_spec k id recorded
  obtain ⟨mm1, hid1, -⟩ := exists_mm_of_skeleton hid hdropped.skeleton
  have hstages : Stages (unmapExecMappings k id recorded) id plan ↔ _ :=
    stages_iff hdropped hframes
  have htarget : (∀ n ∈ plan.pages, k.pte id n ≠ none → n ∈ recorded.map page) ↔
      ∀ p ∈ plan.stagePages, k.pte id (pageNumber p.virt) ≠ none →
        pageNumber p.virt ∈ recorded.map page := by
    simp only [ExecLoadPlan.pages, List.forall_mem_map]
  rw [htarget]
  rcases stagePtLoadMappings_spec hplan hid1 with
    ⟨hst, staged, k1, hstage, -⟩ | ⟨hst, e, k1, hstage, -⟩
  · exact ⟨fun _ => (hstages.1 hst).2.1, fun _ => ⟨staged, k1, hstage⟩⟩
  constructor
  · rintro ⟨_, _, hok⟩
    cases hok.symm.trans hstage
  · intro h
    exact (hst (hstages.2 ⟨hstack, h, halloc.1, fun b hb =>
      halloc.2 b (List.mem_of_mem_take hb)⟩)).elim

/-- The pages that are present after a call that succeeded: those of the plan,
and what was present and not on record. -/
theorem Replaced.present_iff {staged : List ExecMappedPage}
    (h : Replaced k id recorded plan staged k') (n : ℕ) :
    k'.pte id n ≠ none ↔ n ∈ plan.pages ∨ n ∉ recorded.map page ∧ k.pte id n ≠ none := by
  obtain ⟨k1, k2, hdropped, -, hstaged, hinstalled⟩ := h.staged
  have hpages : staged.map page = plan.pages := map_page_of_records h.records
  rw [hinstalled.pte, ← hpages]
  by_cases hn : n ∈ staged.map page
  · obtain ⟨m, hm, rfl⟩ := List.mem_map.1 hn
    simp [hstaged.entered m hm, hn]
  rw [hstaged.others id n fun hin => hn hin.2, hdropped.pte]
  by_cases hr : n ∈ recorded.map page
  · simp [hn, hr]
  · simp [hn, hr]

/-- With enough memory an accepted image replaces all that was present, without
fail, exactly if all of it is on record; what is not on record can only stay
unnoticed if it is in the way of no page of the image and the call fails for the
size of its arguments. -/
theorem whole_image_replaced_iff (hid : k.mms.get? id = some mm) (hwords : mm.Words)
    (hnodup : (recorded.map page).Nodup) (hread : x.readAll payload.path = .ok image)
    (hplan : buildElfLoadPlan image = .ok plan) (hstack : StackApart plan)
    (halloc : AllocationSucceeds k plan) :
    ((∃ staged k1, stagePtLoadMappings (unmapExecMappings k id recorded) id image plan =
        (.ok staged, k1)) ∧
      ∀ frame k' staged, execvePayload x id recorded payload k = some (.ok frame, k', staged) →
        ∀ n, k'.pte id n ≠ none ↔ n ∈ plan.pages) ↔
    ∀ n, k.pte id n ≠ none → n ∉ recorded.map page →
      n ∉ plan.pages ∧ ¬ StackFits payload.args payload.envp := by
  have hok := buildElfLoadPlan_ok hplan
  rw [staging_succeeds_iff hid hok hstack halloc]
  have hx : x.plan? payload.path = some plan := by
    simp only [ExecEnv.plan?, hread, hplan, Except.toOption]
  rcases execvePayload_spec hid hwords hnodup x payload with
    ⟨hnone, -⟩ | ⟨_, plan', -, hx', -, hcase⟩
  · cases hx.symm.trans hnone
  cases hx.symm.trans hx'
  have hloads : Loads k id recorded plan payload ↔
      (∀ n ∈ plan.pages, k.pte id n ≠ none → n ∈ recorded.map page) ∧
        StackFits payload.args payload.envp := by
    constructor
    · intro h
      refine ⟨?_, h.fits⟩
      simpa only [ExecLoadPlan.pages, List.forall_mem_map] using h.target
    · rintro ⟨htarget, hfits⟩
      refine ⟨hstack, ?_, halloc.1, fun b hb => halloc.2 b (List.mem_of_mem_take hb), hfits⟩
      simpa only [ExecLoadPlan.pages, List.forall_mem_map] using htarget
  rcases hcase with ⟨hl, frame, k', staged, hres, hdone⟩ | ⟨hl, e, k', recorded', hres, -⟩
  · obtain ⟨htarget, hfits⟩ := hloads.1 hl
    constructor
    · rintro ⟨-, hafter⟩ n hn hrec
      have hin := (hafter frame k' staged hres n).1 ((hdone.present_iff n).2 (.inr ⟨hrec, hn⟩))
      exact (hrec (htarget n hin hn)).elim
    · intro hall
      refine ⟨htarget, fun frame' k'' staged' hres' n => ?_⟩
      cases hres.symm.trans hres'
      rw [hdone.present_iff]
      refine ⟨fun h => h.elim (fun h => h) fun h => ?_, .inl⟩
      exact ((hall n h.2 h.1).2 hfits).elim
  · constructor
    · rintro ⟨htarget, -⟩ n hn hrec
      refine ⟨fun hin => hrec (htarget n hin hn), fun hfits => hl (hloads.2 ⟨htarget, hfits⟩)⟩
    · intro hall
      refine ⟨fun n hin hn => ?_, fun frame' k'' staged' hres' => ?_⟩
      · by_contra hrec
        exact (hall n hn hrec).1 hin
      · cases hres.symm.trans hres'

/-- The started program, with frames for a second one. -/
def restarted : Kernel := { started.1 with env := { frames := (List.range' 10 9).map some } }

/-- The second program takes the place of the first, whose pages are all on
record. -/
theorem whole_image_replaced_second :
    started.2.length = 9 ∧
      (∃ staged k1, stagePtLoadMappings (unmapExecMappings restarted 1 started.2) 1 smallProgram
        smallPlan = (.ok staged, k1)) ∧
      ∀ frame k' staged, execvePayload smallEnv 1 started.2 ⟨[0x61], [], []⟩ restarted =
        some (.ok frame, k', staged) → ∀ n, k'.pte 1 n ≠ none ↔ n ∈ smallPlan.pages := by
  obtain ⟨mm, hid, hwords⟩ : WordsAt restarted 1 := by decide +kernel
  have hrecorded : ∀ mm ∈ (restarted.mms.get? 1).toList, ∀ e ∈ mm.pageTable.entries,
      e.1 ∈ started.2.map page := by decide +kernel
  refine ⟨by decide +kernel, (whole_image_replaced_iff hid hwords (by decide +kernel) rfl
    buildElfLoadPlan_small (by decide +kernel) (by decide +kernel)).2 fun n hn hrec => ?_⟩
  rw [pte, hid] at hn
  obtain ⟨p, hp⟩ := Option.ne_none_iff_exists'.1 hn
  exact absurd (hrecorded mm (by rw [hid]; simp) (n, p) (OrdMap.mem_entries_iff.2 hp)) hrec

/-- The child of the started program, with frames for a program of its own. -/
def forked : Kernel :=
  ({ started.1 with
    env := { frames := (List.range' 10 9).map some, mmAddr := some 2 } }.mmClone 1).2

/-- A child has the pages of its parent and no record of them, so it cannot
start a program at the same addresses, although memory is there. -/
theorem forked_child_cannot_stage :
    (StackApart smallPlan ∧ AllocationSucceeds forked smallPlan) ∧
      (stagePtLoadMappings (unmapExecMappings forked 2 []) 2 smallProgram smallPlan).1.toOption =
        none := by
  decide +kernel

end JanuaryOs.Exec

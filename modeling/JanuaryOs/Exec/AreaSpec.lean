import JanuaryOs.Exec.Image
import JanuaryOs.Virt.Counters

/-!
# Exchanging the areas of a process and putting them back

`install_current_exec_vmas` takes the areas of user space out and inserts those
of the plan; `restore_current_exec_vmas` goes the other way. Neither can fail,
and after both the address space is as it was, its counters included.
-/

namespace JanuaryOs.Exec

open Lib Virt Virt.Mm IntervalMap List

variable {mm mm' : Mm} {a : Vma} {vmas : List Vma}

theorem removeVmas_moved (hmem : ∀ a ∈ vmas, a ∈ mm.vmaTree) (hnodup : vmas.Nodup)
    (hwords : mm.Words) : Moved mm (removeVmas mm vmas) vmas [] := by
  induction vmas generalizing mm with
  | nil => exact .refl hwords
  | cons a rest ih =>
    obtain ⟨hnot, hnodup⟩ := nodup_cons.1 hnodup
    obtain ⟨mm', hrem, hex, hw, hc⟩ := removeVma_ok (hmem a (.head _)) hwords
    have h1 : Moved mm (mm.removeVma a.start).2 [a] [] := hrem ▸ ⟨hex, hw, by simp [hc]⟩
    refine h1.trans (ih (fun b hb => ?_) hnodup h1.words) (.inl rfl)
    refine (h1.exchanged.mem b).2 (.inr ⟨hmem b (.tail _ hb), fun heq => ?_⟩)
    exact hnot (mem_singleton.1 heq ▸ hb)

theorem insertVmas_moved (h : Insertable mm vmas) (hwords : mm.Words) :
    Moved mm (insertVmas mm vmas) [] vmas := by
  induction vmas generalizing mm with
  | nil => exact .refl hwords
  | cons a rest ih =>
    obtain ⟨mm1, hins, h1⟩ := insertVma_moved (h.proper a (.head _)) (h.free a (.head _)) hwords
    have hstep : insertVmas mm (a :: rest) = insertVmas mm1 rest := by
      rw [insertVmas, foldl_cons, hins]
      rfl
    rw [hstep]
    exact h1.trans (ih (h.tail h1) h1.words) (.inr rfl)

theorem installLoop_ok (done : List Vma) (h : Insertable mm vmas) (hwords : mm.Words) :
    ∃ mm', installLoop vmas done mm = (.ok (), mm') ∧ Moved mm mm' [] vmas := by
  induction vmas generalizing mm done with
  | nil => exact ⟨mm, rfl, .refl hwords⟩
  | cons a rest ih =>
    obtain ⟨mm1, hins, h1⟩ := insertVma_moved (h.proper a (.head _)) (h.free a (.head _)) hwords
    obtain ⟨mm2, hloop, h2⟩ := ih (a :: done) (h.tail h1) h1.words
    exact ⟨mm2, by rw [installLoop, hins]; exact hloop, h1.trans h2 (.inr rfl)⟩

/-! ### The areas of user space -/

def InUser (a : Vma) : Prop := userSpaceStart < a.stop ∧ a.start < userSpaceEnd

theorem mem_userVmas : a ∈ userVmas mm ↔ a ∈ mm.vmaTree ∧ InUser a := by
  simp [userVmas, mem_toList, InUser]

theorem userVmas_sorted (mm : Mm) : (userVmas mm).Pairwise fun a b => a.stop ≤ b.start :=
  (toList_sorted mm.vmaTree).filter _

theorem userVmas_nodup (mm : Mm) : (userVmas mm).Nodup := by
  refine (userVmas_sorted mm).imp_of_mem fun {a b} ha _ hle heq => ?_
  have := start_lt_stop (mem_userVmas.1 ha).1
  rw [heq] at hle this
  omega

theorem userVmas_congr (h : mm'.vmaTree = mm.vmaTree) : userVmas mm' = userVmas mm := by
  rw [userVmas, h, userVmas]

theorem userVmas_insertable (hmem : ∀ a, a ∈ mm'.vmaTree → a ∈ mm.vmaTree ∧ ¬ InUser a) :
    Insertable mm' (userVmas mm) := by
  refine ⟨fun a ha => start_lt_stop (mem_userVmas.1 ha).1,
    (userVmas_sorted mm).imp fun h => .inl h, fun a ha b hb => ?_⟩
  obtain ⟨ha, huser⟩ := mem_userVmas.1 ha
  obtain ⟨hb, hnot⟩ := hmem b hb
  exact apart_of_ne ha hb fun heq => hnot (heq ▸ huser)

/-! ### The areas of a plan -/

variable {plan : ExecLoadPlan} {imageLen : ℕ}

/-- No segment reaches into the initial stack. -/
def StackApart (plan : ExecLoadPlan) : Prop :=
  ∀ s ∈ plan.segments, rangesOverlap s.pageStart s.pageEnd plan.stackBottom plan.stackTop = false
deriving Decidable

section

variable (hplan : plan.Ok imageLen)

include hplan

theorem stackBottom_eq : plan.stackBottom = 0x7FFFFFFF7000 := by
  rw [ExecLoadPlan.stackBottom, hplan.stackTop, hplan.stackPages]
  rfl

theorem buildExecVmaPlan_user (ha : a ∈ buildExecVmaPlan plan) :
    userSpaceStart ≤ a.start ∧ a.start < a.stop ∧ a.stop ≤ userSpaceEnd := by
  rcases mem_append.1 ha with ha | ha
  · obtain ⟨s, hs, rfl⟩ := mem_map.1 ha
    have hseg := hplan.segment s hs
    exact ⟨hseg.user_start, hseg.nonempty, hseg.user_end⟩
  · rw [mem_singleton.1 ha]
    simp only [stackBottom_eq hplan, hplan.stackTop]
    decide

theorem buildExecVmaPlan_inUser (ha : a ∈ buildExecVmaPlan plan) : InUser a := by
  obtain ⟨hstart, hlt, hend⟩ := buildExecVmaPlan_user hplan ha
  exact ⟨by omega, by omega⟩

theorem buildExecVmaPlan_apart (hstack : StackApart plan) :
    (buildExecVmaPlan plan).Pairwise Interval.Apart := by
  rw [buildExecVmaPlan, pairwise_append]
  refine ⟨pairwise_map.2 (hplan.apart.imp fun h => .inl h), pairwise_singleton _ _,
    fun a ha b hb => ?_⟩
  obtain ⟨s, hs, rfl⟩ := mem_map.1 ha
  have hs := hstack s hs
  rw [mem_singleton.1 hb]
  simp only [rangesOverlap, Bool.and_eq_false_iff, decide_eq_false_iff_not, not_lt] at hs
  exact hs.symm.imp id id

theorem buildExecVmaPlan_nodup (hstack : StackApart plan) : (buildExecVmaPlan plan).Nodup := by
  refine (buildExecVmaPlan_apart hplan hstack).imp_of_mem fun {a b} ha _ hapart heq => ?_
  obtain ⟨-, hlt, -⟩ := buildExecVmaPlan_user hplan ha
  rw [← heq] at hapart
  rcases hapart with h | h <;> omega

theorem buildExecVmaPlan_insertable (hstack : StackApart plan)
    (hmem : ∀ a ∈ mm.vmaTree, ¬ InUser a) : Insertable mm (buildExecVmaPlan plan) := by
  refine ⟨fun a ha => (buildExecVmaPlan_user hplan ha).2.1, buildExecVmaPlan_apart hplan hstack,
    fun a ha b hb => ?_⟩
  obtain ⟨hstart, hlt, hend⟩ := buildExecVmaPlan_user hplan ha
  have hb := hmem b hb
  simp only [InUser, not_and, not_lt] at hb
  by_cases hle : b.stop ≤ userSpaceStart
  · exact .inr (hle.trans hstart)
  · exact .inl (hend.trans (hb (by omega)))

end

/-! ### Exchange and restoration -/

/-- The areas of a plan take the place of all areas of user space. -/
theorem installCurrentExecVmas_ok (hplan : plan.Ok imageLen) (hstack : StackApart plan)
    (hwords : mm.Words) :
    ∃ mm', installCurrentExecVmas mm plan =
        (.ok ⟨snapshotMmLayout mm, userVmas mm⟩, restoreMmLayout mm' plan.layout) ∧
      Moved mm mm' (userVmas mm) (buildExecVmaPlan plan) := by
  have hrem := removeVmas_moved (fun a ha => (mem_userVmas.1 ha).1) (userVmas_nodup mm) hwords
  have hnone : ∀ a ∈ (removeVmas mm (userVmas mm)).vmaTree, ¬ InUser a := by
    intro a ha huser
    rcases (hrem.exchanged.mem a).1 ha with ha | ⟨ha, hnot⟩
    · cases ha
    · exact hnot (mem_userVmas.2 ⟨ha, huser⟩)
  obtain ⟨mm', hloop, hins⟩ := installLoop_ok [] (buildExecVmaPlan_insertable hplan hstack hnone)
    hrem.words
  exact ⟨mm', by simp only [installCurrentExecVmas, hloop], by
    simpa using hrem.trans hins (.inl rfl)⟩

/-- After the exchange user space holds the areas of the plan and no others. -/
theorem mem_userVmas_of_moved (hplan : plan.Ok imageLen)
    (h : Moved mm mm' (userVmas mm) (buildExecVmaPlan plan)) :
    a ∈ userVmas mm' ↔ a ∈ buildExecVmaPlan plan := by
  rw [mem_userVmas, h.exchanged.mem]
  constructor
  · rintro ⟨ha | ⟨ha, hnot⟩, huser⟩
    · exact ha
    · exact (hnot (mem_userVmas.2 ⟨ha, huser⟩)).elim
  · exact fun ha => ⟨.inl ha, buildExecVmaPlan_inUser hplan ha⟩

/-- Putting the old areas back undoes the exchange: whatever became of the page
table and of the layout fields meanwhile, areas, layout and counters are the old
ones. -/
theorem restoreCurrentExecVmas_moved (hplan : plan.Ok imageLen) (hstack : StackApart plan)
    (hwords : mm.Words) {mm1 mm2 : Mm} (h : Moved mm mm1 (userVmas mm) (buildExecVmaPlan plan))
    (htree : mm2.vmaTree = mm1.vmaTree) (hcounters : mm2.counters = mm1.counters)
    (hwords2 : mm2.Words) (hcount : mm2.mmCount = mm1.mmCount) :
    restoreCurrentExecVmas mm2 ⟨snapshotMmLayout mm, userVmas mm⟩ =
      { mm with pageTable := mm2.pageTable } := by
  have hrem := removeVmas_moved (fun a ha => (mem_userVmas.1 ha).1) (userVmas_nodup mm2) hwords2
  have hmem : ∀ a, a ∈ (removeVmas mm2 (userVmas mm2)).vmaTree ↔ a ∈ mm.vmaTree ∧ ¬ InUser a := by
    intro a
    rw [hrem.exchanged.mem, htree, h.exchanged.mem, userVmas_congr htree,
      mem_userVmas_of_moved hplan h, mem_userVmas]
    have : a ∈ buildExecVmaPlan plan → InUser a := buildExecVmaPlan_inUser hplan
    simp only [not_mem_nil, false_or]
    tauto
  have hins := insertVmas_moved (userVmas_insertable fun a ha => (hmem a).1 ha) hrem.words
  have hback := hrem.trans hins (.inl rfl)
  rw [append_nil, nil_append] at hback
  rw [restoreCurrentExecVmas]
  generalize insertVmas (removeVmas mm2 (userVmas mm2)) (userVmas mm) = mm3 at hins hback ⊢
  -- the tree is the old one
  have htree3 : mm3.vmaTree = mm.vmaTree := by
    refine ext_mem fun a => ?_
    rw [hins.exchanged.mem, hmem, mem_userVmas]
    simp only [not_mem_nil, not_false_eq_true, and_true]
    tauto
  -- what was added to the counters is taken away again
  have hperm : (userVmas mm2).Perm (buildExecVmaPlan plan) := by
    refine (perm_ext_iff_of_nodup (userVmas_nodup mm2) (buildExecVmaPlan_nodup hplan hstack)).2
      fun a => ?_
    rw [userVmas_congr htree, mem_userVmas_of_moved hplan h]
  have hcounters3 : mm3.counters = mm.counters := by
    have h1 := h.counters
    have h3 := hback.counters
    rw [hcounters, (hperm.map Vma.counters).sum_eq, h1] at h3
    exact add_right_cancel h3
  obtain ⟨hvmas, htotal, hexec, hstack⟩ := counters_inj hback.words hwords hcounters3
  have hmms : mm3.mmCount = mm.mmCount :=
    hback.exchanged.mmCount.trans (hcount.trans h.exchanged.mmCount)
  simp only [restoreMmLayout, snapshotMmLayout, htree3, hvmas, htotal, hexec, hstack, hmms,
    hback.exchanged.pageTable]

end JanuaryOs.Exec

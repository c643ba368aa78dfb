import JanuaryOs.Exec.LoadSpec
import JanuaryOs.Virt.Books

/-!
# The books of the frames under `execve` and `rollback_exec_mappings`

Both work from the record of the pages that an earlier `execve` mapped. `execve`
takes these pages out of the page table without touching their frames. If it
succeeds, the frames of these pages keep a reference that nothing accounts for;
if it fails, the pages come back with the frames on record.
`rollback_exec_mappings` drops one reference of each frame on record, whatever
the page has now. So the books stay in order exactly if the frames that the
pages have agree with the record in the right way, which is what the conditions
here say.
-/

namespace JanuaryOs.Exec

open Lib Virt Virt.Kernel Virt.Mm Proc List Function

variable {K : Pfn → Prop} {k k' k1 k2 : Kernel} {id : MmId} {mm : Mm}
  {recorded recorded' staged ms : List ExecMappedPage} {plan : ExecLoadPlan} {imageLen : ℕ}
  {payload : ExecPayload} {x : ExecEnv}

/-- The frames that the pages on record have now. -/
def liveFrames (k : Kernel) (id : MmId) (ms : List ExecMappedPage) : List Pfn :=
  k.framesAt id (ms.map page)

theorem framesAt_of_none (h : ∀ m ∈ ms, k.pte id (page m) = none) :
    k.framesAt id (ms.map page) = [] := by
  refine filterMap_eq_nil_iff.2 fun n hn => ?_
  obtain ⟨m, hm, rfl⟩ := mem_map.1 hn
  rw [h m hm]
  rfl

theorem framesAt_of_entered (h : ∀ m ∈ ms, k.pte id (page m) = some ⟨m.phys, m.flags⟩) :
    k.framesAt id (ms.map page) = ms.map ExecMappedPage.phys := by
  rw [framesAt, filterMap_map, ← filterMap_eq_map]
  refine filterMap_congr fun m hm => ?_
  rw [comp_apply, h m hm]
  rfl

/-! ### A new program -/

theorem buildExecVmaPlan_vmaOk (hplan : plan.Ok imageLen) {a : Vma}
    (ha : a ∈ buildExecVmaPlan plan) : VmaOk a := by
  obtain ⟨hstart, hstop⟩ := buildExecVmaPlan_aligned hplan ha
  rcases mem_append.1 ha with ha | ha
  · obtain ⟨s, -, rfl⟩ := mem_map.1 ha
    exact ⟨hstart, hstop, id, fun _ => rfl, nofun⟩
  · cases mem_singleton.1 ha
    exact ⟨hstart, hstop, fun _ => rfl, fun _ => rfl, nofun⟩

theorem brkBase_aligned (hplan : plan.Ok imageLen) : pageSize ∣ plan.bounds.brkBase := by
  suffices h : ∀ (segments : List ExecLoadSegmentPlan) (b : ImageBounds),
      (∀ s ∈ segments, pageSize ∣ s.pageEnd) → pageSize ∣ b.brkBase →
      pageSize ∣ (segments.foldl ImageBounds.add b).brkBase from
    h plan.segments _ (fun s hs => (hplan.segment s hs).end_aligned) (dvd_zero _)
  intro segments
  induction segments with
  | nil => exact fun b _ hb => hb
  | cons s rest ih =>
    intro b hs hb
    refine ih _ (fun s' hs' => hs s' (.tail _ hs')) ?_
    have hmax : pageSize ∣ max b.brkBase s.pageEnd := by
      rcases max_choice b.brkBase s.pageEnd with h | h
      · rw [h]
        exact hb
      · rw [h]
        exact hs s (.head _)
    unfold ImageBounds.add
    simp only
    split <;> split
    · exact hmax
    · exact hmax
    · exact hb
    · exact hb

theorem Installed.books (h : Installed k id plan k') (hbooks : k.Books K)
    (hplan : plan.Ok imageLen) : k'.Books K := by
  obtain ⟨mm, mm', a, b, c, d, hid, hmoved, hspace⟩ := h.space
  have hwf := hbooks.wf_mm hid
  refine hbooks.of_skeleton_at (hbooks.accounted.congr h.frames h.maps) h.others hspace
    ⟨fun v hv => ?_, brkBase_aligned hplan⟩
    ⟨hmoved.words.1, hmoved.words.2, hmoved.words.3, hmoved.words.4⟩
  rcases (hmoved.exchanged.mem v).1 hv with hv | ⟨hv, -⟩
  · exact buildExecVmaPlan_vmaOk hplan hv
  · exact hwf.areas v hv

theorem Staged.maps_eq (h : Staged k id staged k') (hnodup : (staged.map page).Nodup)
    (habs : ∀ m ∈ staged, k.pte id (page m) = none) (f : Pfn) :
    k'.maps f = k.maps f + (staged.map ExecMappedPage.phys).count f := by
  have hmaps := maps_exchange h.skeleton hnodup h.others f
  rw [framesAt_of_none habs, framesAt_of_entered h.entered] at hmaps
  exact hmaps

theorem incMapcount_setCountOne_mapped : (Frame.mapped 0).setCountOne.incMapcount = .mapped 1 := rfl

theorem Staged.books (h : Staged k id staged k') (hbooks : k.Books K)
    (hnodup : (staged.map page).Nodup) (habs : ∀ m ∈ staged, k.pte id (page m) = none) :
    k'.Books K ∧ ∀ m ∈ staged, ¬ K m.phys := by
  have hfree : ∀ m ∈ staged, _ := fun m hm => (hbooks.accounted m.phys).of_free (h.free m hm)
  refine ⟨hbooks.of_skeleton (fun f => ?_) h.skeleton, fun m hm => (hfree m hm).1⟩
  have hmaps := h.maps_eq hnodup habs f
  have hframe := h.frames f
  by_cases hf : f ∈ staged.map ExecMappedPage.phys
  · obtain ⟨m, hm, rfl⟩ := mem_map.1 hf
    obtain ⟨hK, hmapped, hzero⟩ := hfree m hm
    rw [if_pos hf, hmapped, incMapcount_setCountOne_mapped] at hframe
    rw [hzero, count_eq_one_of_mem h.nodup hf] at hmaps
    exact ⟨fun h => (hK h).elim, fun _ => by rw [hframe, hmaps]⟩
  · rw [if_neg hf] at hframe
    rw [count_eq_zero_of_not_mem hf] at hmaps
    exact (hbooks.accounted f).congr hframe hmaps

/-! ### Pages on record -/

theorem Dropped.maps_eq (h : Dropped k id ms k') (hnodup : (ms.map page).Nodup) (f : Pfn) :
    k'.maps f + (liveFrames k id ms).count f = k.maps f := by
  have hgone : ∀ m ∈ ms, k'.pte id (page m) = none := fun m hm => by
    rw [h.pte, if_pos ⟨rfl, mem_map_of_mem hm⟩]
  have hmaps := maps_exchange h.skeleton hnodup (fun i n hn => by rw [h.pte, if_neg hn]) f
  rw [framesAt_of_none hgone] at hmaps
  exact hmaps

/-- A call that succeeds keeps the books if no page on record is there any more. -/
theorem Replaced.books (h : Replaced k id recorded plan staged k') (hbooks : k.Books K)
    (hplan : plan.Ok imageLen) (hnodup : (recorded.map page).Nodup)
    (hloads : Loads k id recorded plan payload) (hlive : liveFrames k id recorded = []) :
    k'.Books K ∧ (staged.map page).Nodup ∧ ∀ m ∈ staged, ¬ K m.phys := by
  obtain ⟨k1, k2, hdropped, hframes, hstaged, hinst⟩ := h.staged
  have hpages := map_page_of_records h.records
  have hmaps : k1.maps = k.maps := funext fun f => by
    have := hdropped.maps_eq hnodup f
    rw [hlive] at this
    exact this
  have hbooks1 := hbooks.of_skeleton (hbooks.accounted.congr hframes hmaps) hdropped.skeleton
  have habs : ∀ m ∈ staged, k1.pte id (page m) = none := by
    intro m hm
    rw [hdropped.pte]
    split
    · rfl
    rename_i hnot
    have hm := mem_map_of_mem (f := page) hm
    rw [hpages] at hm
    obtain ⟨p, hp, heq⟩ := mem_map.1 hm
    by_contra hpres
    rw [← heq] at hpres hnot
    exact hnot ⟨rfl, hloads.target p hp hpres⟩
  have hnew : (staged.map page).Nodup := hpages ▸ stagePages_nodup hplan hloads.stack
  obtain ⟨hbooks2, hfresh⟩ := hstaged.books hbooks1 hnew habs
  exact ⟨hinst.books hbooks2 hplan, hnew, hfresh⟩

/-- A call that fails keeps the books if the pages it brings back have the
frames on record. -/
theorem Restored.books (h : Restored x k id recorded recorded' k') (hbooks : k.Books K)
    (hnodup : (recorded.map page).Nodup)
    (hlive : (liveFrames k id recorded).Perm (recorded'.map ExecMappedPage.phys)) : k'.Books K := by
  have hback : k'.framesAt id (recorded.map page) = recorded'.map ExecMappedPage.phys := by
    rcases h.outcome with ⟨-, rfl, hpte⟩ | ⟨-, rfl, hpte⟩
    · exact framesAt_of_entered hpte
    · exact framesAt_of_none hpte
  have hmaps : k'.maps = k.maps := funext fun f => by
    have := maps_exchange h.skeleton hnodup h.others f
    rw [hback, ← hlive.count_eq f] at this
    exact Nat.add_right_cancel this
  have hframes := h.frames hbooks.accounted.free_mapcount
  exact hbooks.of_skeleton (hbooks.accounted.congr hframes hmaps) h.skeleton

/-! ### `rollback_exec_mappings` -/

theorem releaseMapped_mapped (n : ℕ) : (Frame.mapped n).releaseMapped = .mapped (n - 1) := by
  cases n with
  | zero => rfl
  | succ n =>
    rw [Frame.releaseMapped, Frame.decMapcount_mapped]
    rfl

theorem iterate_releaseMapped (c n : ℕ) :
    Frame.releaseMapped^[c] (Frame.mapped n) = .mapped (n - c) := by
  induction c generalizing n with
  | zero => rfl
  | succ c ih => rw [iterate_succ_apply, releaseMapped_mapped, ih, Nat.sub_sub, add_comm]

/-- As many mappings of each frame go as references to it are dropped; `live`
are the mappings that go, `maps` those that there are. -/
def Balanced (live : List Pfn) (maps : Pfn → ℕ) (ms : List ExecMappedPage) : Prop :=
  ∀ f, live.count f = min (maps f) ((ms.map ExecMappedPage.phys).count f)

instance (live : List Pfn) (maps : Pfn → ℕ) (ms : List ExecMappedPage) :
    Decidable (Balanced live maps ms) :=
  decidable_of_iff (∀ f ∈ live ++ ms.map ExecMappedPage.phys,
      live.count f = min (maps f) ((ms.map ExecMappedPage.phys).count f)) <| by
    refine ⟨fun h f => ?_, fun h f _ => h f⟩
    by_cases hf : f ∈ live ++ ms.map ExecMappedPage.phys
    · exact h f hf
    · rw [mem_append, not_or] at hf
      rw [count_eq_zero_of_not_mem hf.1, count_eq_zero_of_not_mem hf.2, Nat.min_zero]

theorem rollbackExecMappings_books (hbooks : k.Books K) (hnodup : (ms.map page).Nodup)
    (huser : ∀ m ∈ ms, ¬ K m.phys) (hbalanced : Balanced (liveFrames k id ms) k.maps ms) :
    (rollbackExecMappings k id ms).Books K := by
  obtain ⟨hdropped, hframes⟩ := rollbackExecMappings_spec k id ms
  refine hbooks.of_skeleton (fun f => ?_) hdropped.skeleton
  have hmaps := hdropped.maps_eq hnodup f
  have hlive := hbalanced f
  constructor
  · intro hK
    have hnone : (ms.map ExecMappedPage.phys).count f = 0 := count_eq_zero_of_not_mem
      fun hf => by
        obtain ⟨m, hm, rfl⟩ := mem_map.1 hf
        exact huser m hm hK
    obtain ⟨hzero, hused⟩ := (hbooks.accounted f).kernel hK
    rw [hframes, hnone]
    exact ⟨by omega, hused⟩
  · intro hK
    rw [hframes, (hbooks.accounted f).user hK, iterate_releaseMapped]
    exact congrArg Frame.mapped (by omega)

/-! ### `execve` -/

theorem execvePayload_missing (hid : k.mms.get? id = none) (x : ExecEnv)
    (recorded : List ExecMappedPage) (payload : ExecPayload) :
    ∃ e k' recorded', execvePayload x id recorded payload k = some (.error e, k', recorded') ∧
      SameBooks k k' ∧ (recorded' = recorded ∨ recorded' = []) := by
  unfold execvePayload
  cases x.readAll payload.path with
  | error e => exact ⟨e, k, recorded, rfl, ⟨rfl, rfl, rfl⟩, .inl rfl⟩
  | ok image =>
    simp only
    cases buildElfLoadPlan image with
    | error e => exact ⟨e, k, recorded, rfl, ⟨rfl, rfl, rfl⟩, .inl rfl⟩
    | ok plan =>
      obtain ⟨hdropped, hframes⟩ := unmapExecMappings_spec k id recorded
      have hsk : (unmapExecMappings k id recorded).skeleton = k.skeleton := hdropped.skeleton
      have hmms : (unmapExecMappings k id recorded).mms = k.mms := OrdMap.ext_get? fun i => by
        refine space_eq_iff.2 ⟨congrFun hsk i, fun n => ?_⟩
        rw [hdropped.pte]
        split
        · rename_i hi
          rw [hi.1, pte, hid]
          rfl
        · rfl
      have hsame : SameBooks k (unmapExecMappings k id recorded) :=
        ⟨hframes, hmms, hdropped.fs⟩
      have hid1 : (unmapExecMappings k id recorded).mms.get? id = none := hmms ▸ hid
      simp only [loadImage, stagePtLoadMappings, hid1, failExec, remapExecMappings]
      cases recorded with
      | nil => exact ⟨_, _, [], rfl, ⟨hsame.frames, hsame.mms, hsame.fs⟩, .inl rfl⟩
      | cons m rest =>
        simp only [remapLoop, mapPage, hid1]
        exact ⟨_, _, [], rfl, ⟨hsame.frames, hsame.mms, hsame.fs⟩, .inr rfl⟩

/-- The record a failed call leaves behind. -/
def recordAfterFailure (x : ExecEnv) (k : Kernel) (id : MmId) (recorded : List ExecMappedPage) :
    List ExecMappedPage :=
  if RestoreTables x k id recorded then recorded else []

/-- The frames of the pages on record are those that the record of the call
accounts for. -/
def ExecBalanced (x : ExecEnv) (k : Kernel) (id : MmId) (recorded : List ExecMappedPage)
    (payload : ExecPayload) : Prop :=
  ∀ plan, x.plan? payload.path = some plan →
    (Loads k id recorded plan payload → liveFrames k id recorded = []) ∧
    (¬ Loads k id recorded plan payload →
      (liveFrames k id recorded).Perm
        ((recordAfterFailure x k id recorded).map ExecMappedPage.phys))

theorem execvePayload_books (hbooks : k.Books K) (hnodup : (recorded.map page).Nodup)
    (huser : ∀ m ∈ recorded, ¬ K m.phys) (hbalanced : ExecBalanced x k id recorded payload)
    {r : Except Errno UserFrame}
    (h : execvePayload x id recorded payload k = some (r, k', recorded')) :
    k'.Books K ∧ (recorded'.map page).Nodup ∧ ∀ m ∈ recorded', ¬ K m.phys := by
  cases hid : k.mms.get? id with
  | none =>
    obtain ⟨e, k1, recorded1, hres, hsame, hrec⟩ := execvePayload_missing hid x recorded payload
    cases h.symm.trans hres
    refine ⟨hbooks.congr hsame.frames hsame.mms, ?_⟩
    rcases hrec with rfl | rfl
    · exact ⟨hnodup, huser⟩
    · exact ⟨.nil, nofun⟩
  | some mm =>
    rcases execvePayload_spec hid (hbooks.words_mm hid) hnodup x payload with
      ⟨-, _, hres⟩ | ⟨_, plan, -, hsome, hplan,
        ⟨hloads, _, _, _, hres, hdone⟩ | ⟨hloads, _, _, _, hres, hback⟩⟩
    · cases h.symm.trans hres
      exact ⟨hbooks, hnodup, huser⟩
    · cases h.symm.trans hres
      exact hdone.books hbooks hplan hnodup hloads ((hbalanced plan hsome).1 hloads)
    · cases h.symm.trans hres
      have hperm := (hbalanced plan hsome).2 hloads
      have hrec : recordAfterFailure x k id recorded = recorded' := by
        rcases hback.outcome with ⟨htables, rfl, -⟩ | ⟨htables, rfl, -⟩
        · exact if_pos htables
        · exact if_neg htables
      rw [hrec] at hperm
      refine ⟨hback.books hbooks hnodup hperm, ?_⟩
      rcases hback.outcome with ⟨-, rfl, -⟩ | ⟨-, rfl, -⟩
      · exact ⟨hnodup, huser⟩
      · exact ⟨.nil, nofun⟩

end JanuaryOs.Exec

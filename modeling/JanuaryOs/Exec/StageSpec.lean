import JanuaryOs.Exec.Image
import JanuaryOs.Virt.Accounts

/-!
# What mapping, recording and unmapping the pages of an image does, and when it succeeds

Pages are mapped where none is present. Each takes one free frame, and one page
table if the address space has no page in the same leaf table yet. Both come
from outside, so whether a list of pages can be mapped is a condition on the two
lists of answers, `FramesReady` and `TablesReady`.
-/

namespace JanuaryOs.Virt.Kernel

open Lib List Function

variable {k k' : Kernel} {id : MmId} {mm : Mm} {addr : ℕ}

/-! ### Leaf tables -/

def tableOf (addr : ℕ) : ℕ := pageNumber addr / tableEntries

def leafTables (k : Kernel) (id : MmId) : List ℕ :=
  ((k.mms.get? id).map fun mm => mm.pageTable.entries.map fun e => e.1 / tableEntries).getD []

theorem mem_leafTables {t : ℕ} :
    t ∈ k.leafTables id ↔ ∃ n p, k.pte id n = some p ∧ n / tableEntries = t := by
  unfold leafTables pte
  cases k.mms.get? id with
  | none => simp
  | some mm => simp [OrdMap.mem_entries_iff]

/-- How many leaf tables are missing for a list of pages, if those of `covered`
are there. -/
def newTables : List ℕ → List ℕ → ℕ
  | _, [] => 0
  | covered, t :: rest =>
    if t ∈ covered then newTables covered rest else newTables (t :: covered) rest + 1

theorem newTables_congr {covered covered' : List ℕ} (h : ∀ t, t ∈ covered ↔ t ∈ covered')
    (ts : List ℕ) : newTables covered ts = newTables covered' ts := by
  induction ts generalizing covered covered' with
  | nil => rfl
  | cons t ts ih =>
    simp only [newTables, h t]
    split
    · exact ih h
    · rw [ih fun s => ?_]
      simp only [mem_cons, h s]

/-- The first `n` page tables that are asked for are found. -/
def TablesReady (answers : List Bool) (n : ℕ) : Prop := ∀ b ∈ answers.take n, b = true
deriving Decidable

/-- There is a free frame for each of `n` pages. -/
def FramesReady (frames : Pfn → Frame) (answers : List (Option Pfn)) (n : ℕ) : Prop :=
  ∃ fs : List Pfn, fs.length = n ∧ fs.map some <+: answers ∧ fs.Nodup ∧ ∀ f ∈ fs, (frames f).Free

theorem framesReady_succ {frames : Pfn → Frame} {answers : List (Option Pfn)} {n : ℕ} :
    FramesReady frames answers (n + 1) ↔ ∃ f rest, answers = some f :: rest ∧ (frames f).Free ∧
      FramesReady (update frames f (frames f).setCountOne) rest n := by
  constructor
  · rintro ⟨fs, hlen, hpre, hnodup, hfree⟩
    obtain _ | ⟨f, fs⟩ := fs
    · cases hlen
    obtain ⟨rest, rfl⟩ := hpre
    obtain ⟨hf, hnodup⟩ := nodup_cons.1 hnodup
    refine ⟨f, fs.map some ++ rest, rfl, hfree f (.head _), fs, Nat.succ.inj hlen,
      prefix_append _ _, hnodup, fun g hg => ?_⟩
    rw [update_of_ne fun h : g = f => hf (h ▸ hg)]
    exact hfree g (.tail _ hg)
  · rintro ⟨f, rest, rfl, hf, fs, hlen, hpre, hnodup, hfree⟩
    have hne : ∀ g ∈ fs, g ≠ f := by
      rintro g hg rfl
      have hg := hfree g hg
      rw [update_self] at hg
      cases hg.1
    refine ⟨f :: fs, congrArg (· + 1) hlen, ?_,
      nodup_cons.2 ⟨fun h => hne f h rfl, hnodup⟩, fun g hg => ?_⟩
    · exact cons_prefix_cons.2 ⟨rfl, hpre⟩
    · rcases mem_cons.1 hg with rfl | hg
      · exact hf
      · have := hfree g hg
        rwa [update_of_ne (hne g hg)] at this

/-! ### One page -/

/-- The leaf table of an address is there, or the next one that is asked for is
found. -/
def TableReady (k : Kernel) (id : MmId) (addr : ℕ) : Prop :=
  tableOf addr ∈ k.leafTables id ∨ k.env.tables.head? ≠ some false

/-- `map_page` on a page that is not present asks for a table unless the leaf
table is there. -/
theorem mapPage_fresh (hid : k.mms.get? id = some mm) (habs : k.pte id (pageNumber addr) = none)
    (f : Pfn) (flags : PteFlags) :
    (¬ k.TableReady id addr ∧ ∃ k', k.mapPage id addr f flags = (false, k') ∧ SameBooks k k') ∨
    (k.TableReady id addr ∧ ∃ k1, k.mapPage id addr f flags = (true, k1.setPte id addr ⟨f, flags⟩) ∧
      SameBooks k k1 ∧ k1.env.frames = k.env.frames ∧ k1.env.tables =
        if tableOf addr ∈ k.leafTables id then k.env.tables else k.env.tables.tail) := by
  have habs : mm.translate addr = none := by
    rw [pte, hid] at habs
    exact habs
  have hany : (mm.pageTable.entries.any
    fun e => e.1 / tableEntries == pageNumber addr / tableEntries)
      = decide (tableOf addr ∈ k.leafTables id) := by
    rw [leafTables, hid, Bool.eq_iff_iff]
    simp only [Option.map_some, Option.getD_some, any_eq_true, beq_iff_eq, decide_eq_true_eq,
      mem_map]
    rfl
  unfold mapPage reachLeafTable TableReady
  simp only [hid, habs, hany, decide_eq_true_eq]
  by_cases htable : tableOf addr ∈ k.leafTables id
  · simp only [if_pos htable]
    exact .inr ⟨.inl htable, k, rfl, ⟨rfl, rfl, rfl⟩, rfl, rfl⟩
  simp only [if_neg htable]
  rcases htables : k.env.tables with _ | ⟨_ | _, rest⟩
  · exact .inr ⟨.inr (by simp), k, rfl, ⟨rfl, rfl, rfl⟩, rfl, htables⟩
  · exact .inl ⟨by simp [htable], _, rfl, rfl, rfl, rfl⟩
  · exact .inr ⟨.inr (by simp), { k with env := { k.env with tables := rest } }, rfl,
      ⟨rfl, rfl, rfl⟩, rfl, rfl⟩

theorem mem_leafTables_enter (habs : k.pte id (pageNumber addr) = none)
    (hself : (k'.pte id (pageNumber addr)).isSome)
    (hothers : ∀ n, n ≠ pageNumber addr → k'.pte id n = k.pte id n) (t : ℕ) :
    t ∈ k'.leafTables id ↔ t ∈ tableOf addr :: k.leafTables id := by
  rw [mem_leafTables, mem_cons, mem_leafTables]
  constructor
  · rintro ⟨n, p, hp, rfl⟩
    by_cases hn : n = pageNumber addr
    · exact .inl (by rw [hn]; rfl)
    · exact .inr ⟨n, p, hothers n hn ▸ hp, rfl⟩
  · rintro (rfl | ⟨n, p, hp, rfl⟩)
    · obtain ⟨p, hp⟩ := Option.isSome_iff_exists.1 hself
      exact ⟨_, p, hp, rfl⟩
    · have hn : n ≠ pageNumber addr := by
        rintro rfl
        rw [habs] at hp
        cases hp
      exact ⟨n, p, (hothers n hn).trans hp, rfl⟩

theorem tablesReady_cons (hleaf : ∀ t, t ∈ k'.leafTables id ↔ t ∈ tableOf addr :: k.leafTables id)
    (htables : k'.env.tables =
      if tableOf addr ∈ k.leafTables id then k.env.tables else k.env.tables.tail)
    (hready : k.TableReady id addr) (ts : List ℕ) :
    TablesReady k.env.tables (newTables (k.leafTables id) (tableOf addr :: ts)) ↔
      TablesReady k'.env.tables (newTables (k'.leafTables id) ts) := by
  rw [htables, newTables, newTables_congr hleaf]
  by_cases hin : tableOf addr ∈ k.leafTables id
  · rw [if_pos hin, if_pos hin, newTables_congr fun t => ?_]
    rw [mem_cons, or_iff_right_of_imp]
    rintro rfl
    exact hin
  rw [if_neg hin, if_neg hin]
  have hhead := hready.resolve_left hin
  rcases hanswers : k.env.tables with _ | ⟨_ | _, rest⟩
  · simp [TablesReady]
  · simp [hanswers] at hhead
  · simp [TablesReady]

theorem TablesReady.head {ts : List ℕ}
    (h : TablesReady k.env.tables (newTables (k.leafTables id) (tableOf addr :: ts))) :
    k.TableReady id addr := by
  by_cases hin : tableOf addr ∈ k.leafTables id
  · exact .inl hin
  rw [newTables, if_neg hin] at h
  refine .inr fun hfalse => ?_
  obtain ⟨rest, hanswers⟩ := head?_eq_some_iff.1 hfalse
  rw [hanswers] at h
  cases h false (by simp)

end JanuaryOs.Virt.Kernel

namespace JanuaryOs.Exec

open Lib Virt Virt.Kernel Proc List

variable {k k1 k2 : Kernel} {id : MmId} {mm : Mm}

def page (m : ExecMappedPage) : ℕ := pageNumber m.virt

/-- Pages were mapped to free frames; everything else is as before. -/
structure Staged (k : Kernel) (id : MmId) (new : List ExecMappedPage) (k' : Kernel) : Prop where
  fs : k'.fs = k.fs
  skeleton : k'.skeleton = k.skeleton
  entered : ∀ m ∈ new, k'.pte id (page m) = some ⟨m.phys, m.flags⟩
  others : ∀ i n, ¬ (i = id ∧ n ∈ new.map page) → k'.pte i n = k.pte i n
  frames : ∀ f, k'.frames f =
    if f ∈ new.map ExecMappedPage.phys then (k.frames f).setCountOne.incMapcount else k.frames f
  free : ∀ m ∈ new, (k.frames m.phys).Free
  nodup : (new.map ExecMappedPage.phys).Nodup

theorem Staged.refl (k : Kernel) (id : MmId) : Staged k id [] k :=
  ⟨rfl, rfl, nofun, fun _ _ _ => rfl, fun _ => rfl, nofun, .nil⟩

variable {ms new : List ExecMappedPage} {m : ExecMappedPage} {virt : ℕ}

theorem Staged.sameBooks (h : Staged k id new k1) (hsame : SameBooks k1 k2) :
    Staged k id new k2 where
  fs := hsame.fs.trans h.fs
  skeleton := hsame.skeleton.trans h.skeleton
  entered m hm := by rw [hsame.pte]; exact h.entered m hm
  others i n hn := by rw [hsame.pte]; exact h.others i n hn
  frames f := by rw [hsame.frames]; exact h.frames f
  free := h.free
  nodup := h.nodup

theorem Staged.snoc (h : Staged k id new k1) (hm : Staged k1 id [m] k2)
    (hpage : page m ∉ new.map page) : Staged k id (new ++ [m]) k2 := by
  have hfree := hm.free m (.head _)
  have hnew : m.phys ∉ new.map ExecMappedPage.phys := by
    intro hin
    rw [h.frames, if_pos hin] at hfree
    cases hfree.1
  have hfree0 : (k.frames m.phys).Free := by
    rwa [h.frames, if_neg hnew] at hfree
  constructor
  · exact hm.fs.trans h.fs
  · exact hm.skeleton.trans h.skeleton
  · intro x hx
    rcases mem_append.1 hx with hx | hx
    · rw [hm.others id (page x)]
      · exact h.entered x hx
      · rintro ⟨-, heq⟩
        have heq : page x = page m := by simpa using heq
        exact hpage (heq ▸ mem_map_of_mem hx)
    · exact hm.entered x hx
  · intro i n hn
    simp only [map_append, mem_append, not_and, not_or] at hn
    rw [hm.others i n fun hin => (hn hin.1).2 hin.2, h.others i n fun hin => (hn hin.1).1 hin.2]
  · intro f
    rw [hm.frames]
    by_cases hf : f = m.phys
    · subst hf
      simp only [map_cons, map_nil, mem_singleton, if_true, map_append,
        mem_append, or_true]
      rw [h.frames, if_neg hnew]
    · have hf' : f ∉ [m].map ExecMappedPage.phys := by simpa using hf
      rw [if_neg hf', h.frames]
      simp only [map_append, mem_append, hf', or_false]
  · intro x hx
    rcases mem_append.1 hx with hx | hx
    · exact h.free x hx
    · rw [mem_singleton.1 hx]
      exact hfree0
  · rw [map_append]
    refine nodup_append.2 ⟨h.nodup, nodup_singleton _, ?_⟩
    rintro a ha b hb rfl
    exact hnew (mem_singleton.1 hb ▸ ha)

/-- The answers that mapping one page of a plan consumes. -/
structure Consumed (k : Kernel) (id : MmId) (addr : ℕ) (k' : Kernel) : Prop where
  frames : k'.env.frames = k.env.frames.tail
  tables : k'.env.tables =
    if tableOf addr ∈ k.leafTables id then k.env.tables else k.env.tables.tail

/-- A page that is not present can be mapped if the first answers are a free
frame and, where one is missing, a page table. -/
def CanMap (k : Kernel) (id : MmId) (addr : ℕ) : Prop :=
  (∃ f rest, k.env.frames = some f :: rest ∧ (k.frames f).Free) ∧
    (tableOf addr ∈ k.leafTables id ∨ k.env.tables.head? ≠ some false)

theorem setCountOne_put {f : Frame} (h : f.Free) : f.setCountOne.put = f := by
  obtain ⟨refcount, mapcount, reserved⟩ := f
  cases h.1
  rfl

theorem mapZeroPage_fresh (hid : k.mms.get? id = some mm) (habs : k.pte id (pageNumber virt) = none)
    (flags : PteFlags) (kind : ExecMappedPageKind) :
    (¬ CanMap k id virt ∧ ∃ e k', mapZeroPage k id virt flags = (.error e, k') ∧ SameBooks k k') ∨
    (CanMap k id virt ∧ ∃ f k', mapZeroPage k id virt flags = (.ok f, k') ∧
      k.env.frames.head? = some (some f) ∧ Staged k id [⟨virt, f, flags, kind⟩] k' ∧
      Consumed k id virt k') := by
  unfold mapZeroPage allocPage CanMap
  rcases hframes : k.env.frames with _ | ⟨_ | f, rest⟩
  · refine .inl ⟨by simp, .ENOMEM, k, rfl, rfl, rfl, rfl⟩
  · refine .inl ⟨by simp, .ENOMEM, _, rfl, rfl, rfl, rfl⟩
  · simp only
    by_cases hfree : (k.frames f).Free
    · rw [if_pos hfree]
      simp only
      set k1 : Kernel := (({ k with env := { k.env with frames := rest } } : Kernel).modifyFrame f
        .setCountOne).fillPage f fun _ => 0 with hk1
      have hframe : k1.frames f = (k.frames f).setCountOne := by
        rw [hk1]
        exact (frames_modifyFrame _ _ _ _).trans (if_pos rfl)
      have hother : ∀ g, g ≠ f → k1.frames g = k.frames g := fun g hg => by
        rw [hk1]
        exact (frames_modifyFrame _ _ _ _).trans (if_neg hg)
      -- the page is entered and counted
      have hdone : ∀ k2 : Kernel, SameBooks k1 k2 →
          Staged k id [⟨virt, f, flags, kind⟩]
            ((k2.setPte id virt ⟨f, flags⟩).modifyFrame f .incMapcount) := by
        intro k2 hsame
        have hid2 : k2.mms.get? id = some mm := by rw [hsame.mms]; exact hid
        have hpte : ((k2.setPte id virt ⟨f, flags⟩).modifyFrame f .incMapcount).pte =
            setEntry k.pte id (pageNumber virt) (some ⟨f, flags⟩) := by
          refine (pte_setPte hid2 _).trans ?_
          rw [hsame.pte]
          rfl
        refine ⟨hsame.fs, (skeleton_setPte _ _ _ _).trans hsame.skeleton, fun m hm => ?_,
          fun i n hn => ?_, fun g => ?_, fun m hm => ?_, nodup_singleton _⟩
        · rw [mem_singleton.1 hm, hpte]
          exact setEntry_self _ _ _ _
        · rw [hpte]
          exact setEntry_of_ne fun hin => hn ⟨hin.1, by simpa [page] using hin.2⟩
        · rw [frames_modifyFrame, frames_setPte, hsame.frames]
          by_cases hg : g = f
          · subst hg
            simp [hframe]
          · simp [hg, hother g hg]
        · rw [mem_singleton.1 hm]
          exact hfree
      have hrest : rest = k.env.frames.tail := by rw [hframes, tail_cons]
      unfold mapNewPage
      rcases mapPage_fresh (k := k1) hid habs f flags with
        ⟨hno, k2, hmap, hsame⟩ | ⟨htable, k2, hmap, hsame, henv, htables⟩
      · rw [hmap]
        refine .inl ⟨fun h => hno h.2, .ENOMEM, _, rfl, ?_, hsame.mms, hsame.fs⟩
        funext g
        refine (frames_modifyFrame _ _ _ _).trans ?_
        rw [hsame.frames]
        by_cases hg : g = f
        · rw [if_pos hg, hg, hframe, setCountOne_put hfree]
        · rw [if_neg hg, hother g hg]
      · rw [hmap]
        exact .inr ⟨⟨⟨f, rest, rfl, hfree⟩, htable⟩, f, _, rfl, rfl, hdone k2 hsame,
          henv.trans hrest, htables⟩
    · rw [if_neg hfree]
      refine .inl ⟨?_, .ENOMEM, _, rfl, rfl, rfl, rfl⟩
      rintro ⟨⟨g, _, heq, hg⟩, -⟩
      cases heq
      exact hfree hg

/-! ### A list of pages -/

/-- Frames and page tables for a list of pages. -/
def Ready (k : Kernel) (id : MmId) (virts : List ℕ) : Prop :=
  FramesReady k.frames k.env.frames virts.length ∧
    TablesReady k.env.tables (newTables (k.leafTables id) (virts.map tableOf))

theorem framesReady_congr {frames frames' : Pfn → Frame} {answers : List (Option Pfn)} {n : ℕ}
    (h : ∀ f, (frames f).Free ↔ (frames' f).Free) :
    FramesReady frames answers n ↔ FramesReady frames' answers n := by
  simp only [FramesReady, h]

theorem Staged.mem_leafTables (h : Staged k id [m] k1) (habs : k.pte id (page m) = none) (t : ℕ) :
    t ∈ k1.leafTables id ↔ t ∈ tableOf m.virt :: k.leafTables id :=
  mem_leafTables_enter habs (Option.isSome_iff_exists.2 ⟨_, h.entered m (.head _)⟩)
    (fun n hn => h.others id n (by simpa [page] using hn)) t

theorem ready_cons (virts : List ℕ) (habs : k.pte id (page m) = none)
    (hhead : k.env.frames.head? = some (some m.phys)) (h : Staged k id [m] k1)
    (hc : Consumed k id m.virt k1) (hcan : CanMap k id m.virt) :
    Ready k id (m.virt :: virts) ↔ Ready k1 id virts := by
  obtain ⟨⟨f, rest, hframes, hfree⟩, htable⟩ := hcan
  rw [hframes] at hhead
  cases hhead
  have hfree1 : ∀ g, (Function.update k.frames m.phys (k.frames m.phys).setCountOne g).Free ↔
      (k1.frames g).Free := by
    intro g
    rw [h.frames]
    by_cases hg : g = m.phys
    · subst hg
      simp [Frame.Free, Frame.setCountOne, Frame.incMapcount]
    · rw [Function.update_of_ne hg, if_neg (by simpa using hg)]
  have hleft : FramesReady k.frames k.env.frames (m.virt :: virts).length ↔
      FramesReady k1.frames k1.env.frames virts.length := by
    rw [length_cons, framesReady_succ, hframes, hc.frames, hframes, tail_cons,
      ← framesReady_congr hfree1]
    constructor
    · rintro ⟨g, rest', heq, -, hready⟩
      cases heq
      exact hready
    · exact fun hready => ⟨m.phys, rest, rfl, hfree, hready⟩
  exact and_congr hleft (tablesReady_cons (h.mem_leafTables habs) hc.tables htable _)

theorem CanMap.of_ready {virts : List ℕ} (h : Ready k id (virt :: virts)) : CanMap k id virt := by
  obtain ⟨hframes, htables⟩ := h
  obtain ⟨f, rest, hframes, hfree, -⟩ := framesReady_succ.1 hframes
  exact ⟨⟨f, rest, hframes, hfree⟩, htables.head⟩

/-- The page that was recorded is the one of the plan. -/
def Records (m : ExecMappedPage) (p : StagePage) : Prop :=
  m.virt = p.virt ∧ m.flags = p.flags ∧ m.kind = p.kind

/-- The loop maps the pages one after the other until frames or page tables run
out. -/
theorem stageLoop_spec {image : List UInt8} {pages : List StagePage}
    {mapped : List ExecMappedPage} {k0 : Kernel} (hid : k.mms.get? id = some mm)
    (hfill : ∀ p ∈ pages, ∀ data, ∃ data', p.fill image data = .ok data')
    (hnodup : (pages.map fun p => pageNumber p.virt).Nodup)
    (hnew : ∀ p ∈ pages, pageNumber p.virt ∉ mapped.map page)
    (habs : ∀ p ∈ pages, k.pte id (pageNumber p.virt) = none) (hstaged : Staged k0 id mapped k) :
    ∃ r new k', stageLoop image id pages mapped k = (r, mapped ++ new, k') ∧
      Staged k0 id (mapped ++ new) k' ∧
      new.map page <+: pages.map (fun p => pageNumber p.virt) ∧
      (r = .ok () ∧ List.Forall₂ Records new pages ∧ Ready k id (pages.map StagePage.virt) ∨
        (∃ e, r = .error e) ∧ ¬ Ready k id (pages.map StagePage.virt)) := by
  induction pages generalizing mapped k mm with
  | nil =>
    refine ⟨.ok (), [], k, by rw [stageLoop, append_nil], by rwa [append_nil],
      nil_prefix, .inl ⟨rfl, .nil, ⟨[], rfl, nil_prefix, .nil, nofun⟩, ?_⟩⟩
    simp [newTables, TablesReady]
  | cons p rest ih =>
    have habsp := habs p (.head _)
    rw [stageLoop]
    rcases mapZeroPage_fresh hid habsp p.flags p.kind with
      ⟨hcan, e, k1, hmap, hsame⟩ | ⟨hcan, f, k1, hmap, hhead, hpage, hc⟩
    · rw [hmap]
      exact ⟨.error e, [], k1, by rw [append_nil], by
        rw [append_nil]
        exact hstaged.sameBooks hsame, nil_prefix,
        .inr ⟨⟨e, rfl⟩, fun hready => hcan (.of_ready hready)⟩⟩
    · rw [hmap]
      obtain ⟨data, hdata⟩ := hfill p (.head _) (k1.memory f)
      simp only [hdata]
      have hsame : SameBooks k1 (k1.fillPage f data) := ⟨rfl, rfl, rfl⟩
      have hsnoc := (hstaged.snoc hpage (hnew p (.head _))).sameBooks hsame
      obtain ⟨hpnot, hnodup⟩ := nodup_cons.1 hnodup
      have hready := ready_cons (rest.map StagePage.virt) habsp hhead hpage hc hcan
      have hne : ∀ q ∈ rest, pageNumber q.virt ≠ pageNumber p.virt := fun q hq heq =>
        hpnot (mem_map.2 ⟨q, hq, heq⟩)
      obtain ⟨mm1, hid1, -⟩ := exists_mm_of_skeleton hid hpage.skeleton
      have hnew' : ∀ q ∈ rest,
          pageNumber q.virt ∉
            (mapped ++ [(⟨p.virt, f, p.flags, p.kind⟩ : ExecMappedPage)]).map page := by
        intro q hq hin
        rcases mem_append.1 (map_append ▸ hin) with hin | hin
        · exact hnew q (.tail _ hq) hin
        · exact hne q hq (by simpa [page] using hin)
      have habs' : ∀ q ∈ rest, (k1.fillPage f data).pte id (pageNumber q.virt) = none := by
        intro q hq
        refine (hpage.others id _ ?_).trans (habs q (.tail _ hq))
        rintro ⟨-, hin⟩
        exact hne q hq (by simpa [page] using hin)
      obtain ⟨r, new, k', hloop, hstaged', hinit, hcase⟩ :=
        ih (k := k1.fillPage f data) hid1 (fun q hq => hfill q (.tail _ hq)) hnodup hnew' habs'
          hsnoc
      refine ⟨r, ⟨p.virt, f, p.flags, p.kind⟩ :: new, k', ?_, ?_, ?_, ?_⟩
      · rw [hloop, append_assoc]
        rfl
      · rwa [append_assoc] at hstaged'
      · exact cons_prefix_cons.2 ⟨rfl, hinit⟩
      · rcases hcase with ⟨hr, hrec, hrest⟩ | ⟨hr, hrest⟩
        · exact .inl ⟨hr, .cons ⟨rfl, rfl, rfl⟩ hrec, hready.2 hrest⟩
        · exact .inr ⟨hr, fun h => hrest (hready.1 h)⟩

/-! ### Unmapping by the record -/

/-- The recorded pages are gone from the page table. -/
structure Dropped (k : Kernel) (id : MmId) (ms : List ExecMappedPage) (k' : Kernel) : Prop where
  fs : k'.fs = k.fs
  skeleton : k'.skeleton = k.skeleton
  env : k'.env = k.env
  pte : ∀ i n, k'.pte i n = if i = id ∧ n ∈ ms.map page then none else k.pte i n

theorem Dropped.refl (k : Kernel) (id : MmId) : Dropped k id [] k :=
  ⟨rfl, rfl, rfl, fun i n => by simp⟩

theorem Dropped.cons (h1 : Dropped k id [m] k1) (h : Dropped k1 id ms k2) :
    Dropped k id (m :: ms) k2 := by
  refine ⟨h.fs.trans h1.fs, h.skeleton.trans h1.skeleton, h.env.trans h1.env, fun i n => ?_⟩
  rw [h.pte, h1.pte]
  simp only [map_cons, map_nil, mem_cons]
  by_cases hi : i = id
  · by_cases hn : n = page m <;> simp [hi, hn]
  · simp [hi]

theorem dropped_unmapPage (k : Kernel) (id : MmId) (m : ExecMappedPage)
    (hmms : k1.mms = (k.unmapPage id m.virt).mms) (hfs : k1.fs = k.fs) (henv : k1.env = k.env) :
    Dropped k id [m] k1 := by
  refine ⟨hfs, ?_, henv, fun i n => ?_⟩
  · unfold Kernel.skeleton
    rw [hmms]
    exact skeleton_unmapPage k id m.virt
  · have hpte : k1.pte = (k.unmapPage id m.virt).pte := by
      unfold Kernel.pte
      rw [hmms]
    rw [hpte, pte_unmapPage]
    simp [setEntry, page]

theorem foldl_unmapPage_dropped (k : Kernel) (id : MmId) (ms : List ExecMappedPage) :
    Dropped k id ms (ms.foldl (fun k m => k.unmapPage id m.virt) k) ∧
      (ms.foldl (fun k m => k.unmapPage id m.virt) k).frames = k.frames := by
  induction ms generalizing k with
  | nil => exact ⟨.refl k id, rfl⟩
  | cons m ms ih =>
    obtain ⟨hdropped, hframes⟩ := ih (k.unmapPage id m.virt)
    exact ⟨(dropped_unmapPage k id m rfl rfl rfl).cons hdropped, hframes⟩

theorem Dropped.of_mem_iff {ms' : List ExecMappedPage} (h : Dropped k id ms k1)
    (hmem : ∀ m, m ∈ ms ↔ m ∈ ms') : Dropped k id ms' k1 := by
  refine ⟨h.fs, h.skeleton, h.env, fun i n => ?_⟩
  rw [h.pte]
  simp only [mem_map, hmem]

/-- `unmap_exec_mappings` leaves the frames alone. -/
theorem unmapExecMappings_spec (k : Kernel) (id : MmId) (ms : List ExecMappedPage) :
    Dropped k id ms (unmapExecMappings k id ms) ∧
      (unmapExecMappings k id ms).frames = k.frames := by
  obtain ⟨hdropped, hframes⟩ := foldl_unmapPage_dropped k id ms.reverse
  exact ⟨hdropped.of_mem_iff fun _ => mem_reverse, hframes⟩

/-- `rollback_exec_mappings` takes one reference for each record of a frame. -/
theorem rollbackExecMappings_spec (k : Kernel) (id : MmId) (ms : List ExecMappedPage) :
    Dropped k id ms (rollbackExecMappings k id ms) ∧
      ∀ f, (rollbackExecMappings k id ms).frames f =
        Frame.releaseMapped^[(ms.map ExecMappedPage.phys).count f] (k.frames f) := by
  suffices h : ∀ (ms : List ExecMappedPage) (k : Kernel),
      let k' := ms.foldl (fun k m => (k.unmapPage id m.virt).modifyFrame m.phys .releaseMapped) k
      Dropped k id ms k' ∧ ∀ f, k'.frames f =
        Frame.releaseMapped^[(ms.map ExecMappedPage.phys).count f] (k.frames f) by
    obtain ⟨hdropped, hframes⟩ := h ms.reverse k
    refine ⟨hdropped.of_mem_iff fun _ => mem_reverse, fun f => ?_⟩
    rw [rollbackExecMappings, hframes, map_reverse, count_reverse]
  intro ms
  induction ms with
  | nil => exact fun k => ⟨.refl k id, fun _ => rfl⟩
  | cons m ms ih =>
    intro k
    obtain ⟨hdropped, hframes⟩ := ih ((k.unmapPage id m.virt).modifyFrame m.phys .releaseMapped)
    have hm : Dropped k id [m] ((k.unmapPage id m.virt).modifyFrame m.phys .releaseMapped) :=
      dropped_unmapPage k id m rfl rfl rfl
    refine ⟨hm.cons hdropped, fun f => ?_⟩
    rw [foldl_cons, hframes, frames_modifyFrame, frames_unmapPage, map_cons,
      List.count_cons]
    by_cases hf : f = m.phys
    · subst hf
      rw [if_pos rfl, if_pos (beq_self_eq_true _), Function.iterate_succ_apply]
    · rw [if_neg hf, if_neg (by simpa using Ne.symm hf), Nat.add_zero]

/-! ### Mapping back -/

/-- The recorded pages are in the page table again. -/
structure Remapped (k : Kernel) (id : MmId) (ms : List ExecMappedPage) (k' : Kernel) : Prop where
  fs : k'.fs = k.fs
  skeleton : k'.skeleton = k.skeleton
  frames : k'.frames = k.frames
  entered : ∀ m ∈ ms, k'.pte id (page m) = some ⟨m.phys, m.flags⟩
  others : ∀ i n, ¬ (i = id ∧ n ∈ ms.map page) → k'.pte i n = k.pte i n

theorem Remapped.refl (k : Kernel) (id : MmId) : Remapped k id [] k :=
  ⟨rfl, rfl, rfl, nofun, fun _ _ _ => rfl⟩

theorem Remapped.cons (h1 : Remapped k id [m] k1) (h : Remapped k1 id ms k2)
    (hm : page m ∉ ms.map page) : Remapped k id (m :: ms) k2 := by
  refine ⟨h.fs.trans h1.fs, h.skeleton.trans h1.skeleton, h.frames.trans h1.frames, ?_, ?_⟩
  · intro x hx
    rcases mem_cons.1 hx with rfl | hx
    · rw [h.others id _ fun hin => hm hin.2]
      exact h1.entered x (.head _)
    · exact h.entered x hx
  · intro i n hn
    simp only [map_cons, mem_cons, not_and, not_or] at hn
    rw [h.others i n fun hin => (hn hin.1).2 hin.2,
      h1.others i n fun hin => (hn hin.1).1 (by simpa using hin.2)]

/-- The page tables for a list of pages. -/
def TablesFor (k : Kernel) (id : MmId) (ms : List ExecMappedPage) : Prop :=
  TablesReady k.env.tables (newTables (k.leafTables id) (ms.map fun m => tableOf m.virt))
deriving Decidable

theorem mapPage_remapped (hid : k.mms.get? id = some mm) (habs : k.pte id (page m) = none)
    (ms : List ExecMappedPage) :
    (¬ TablesFor k id (m :: ms) ∧ ∃ k', k.mapPage id m.virt m.phys m.flags = (false, k') ∧
      SameBooks k k') ∨
    ∃ k', k.mapPage id m.virt m.phys m.flags = (true, k') ∧ Remapped k id [m] k' ∧
      (TablesFor k id (m :: ms) ↔ TablesFor k' id ms) := by
  rcases mapPage_fresh hid habs m.phys m.flags with
    ⟨hno, k1, hmap, hsame⟩ | ⟨htable, k1, hmap, hsame, -, htables⟩
  · exact .inl ⟨fun h => hno h.head, k1, hmap, hsame⟩
  have hid1 : k1.mms.get? id = some mm := by rw [hsame.mms]; exact hid
  have hpte : (k1.setPte id m.virt ⟨m.phys, m.flags⟩).pte =
      setEntry k.pte id (page m) (some ⟨m.phys, m.flags⟩) :=
    (pte_setPte hid1 _).trans (by rw [hsame.pte]; rfl)
  have hself : (k1.setPte id m.virt ⟨m.phys, m.flags⟩).pte id (page m)
      = some ⟨m.phys, m.flags⟩ := by
    rw [hpte]
    exact setEntry_self _ _ _ _
  have hothers : ∀ i n, ¬ (i = id ∧ n = page m) →
      (k1.setPte id m.virt ⟨m.phys, m.flags⟩).pte i n = k.pte i n := fun i n hn => by
    rw [hpte]
    exact setEntry_of_ne hn
  refine .inr ⟨_, hmap, ⟨hsame.fs, (skeleton_setPte _ _ _ _).trans hsame.skeleton, hsame.frames,
    fun x hx => ?_, fun i n hn => hothers i n (by simpa using hn)⟩,
    tablesReady_cons (mem_leafTables_enter habs (Option.isSome_iff_exists.2 ⟨_, hself⟩)
      fun n hn => hothers id n fun h => hn h.2) htables htable _⟩
  rw [mem_singleton.1 hx]
  exact hself

theorem remapLoop_spec (done : List ExecMappedPage) (hid : k.mms.get? id = some mm)
    (hnodup : (ms.map page).Nodup) (habs : ∀ m ∈ ms, k.pte id (page m) = none) :
    (TablesFor k id ms ∧ ∃ k', remapLoop id ms done k = (.ok (), k') ∧ Remapped k id ms k') ∨
    (¬ TablesFor k id ms ∧ ∃ k', remapLoop id ms done k = (.error .ENOMEM, k') ∧
      k'.fs = k.fs ∧ k'.skeleton = k.skeleton ∧ k'.frames = k.frames ∧
      ∀ i n, k'.pte i n = if i = id ∧ n ∈ done.map page then none else k.pte i n) := by
  induction ms generalizing k mm done with
  | nil =>
    refine .inl ⟨?_, k, rfl, .refl k id⟩
    simp [TablesFor, TablesReady, newTables]
  | cons m ms ih =>
    obtain ⟨hm, hnodup⟩ := nodup_cons.1 hnodup
    have habsm := habs m (.head _)
    rw [remapLoop]
    rcases mapPage_remapped hid habsm ms with
      ⟨htables, k1, hmap, hsame⟩ | ⟨k1, hmap, hpage, htables⟩
    · rw [hmap]
      obtain ⟨hdropped, hframes⟩ := foldl_unmapPage_dropped k1 id done
      refine .inr ⟨htables, _, rfl, hdropped.fs.trans hsame.fs,
        hdropped.skeleton.trans hsame.skeleton, hframes.trans hsame.frames, fun i n => ?_⟩
      rw [hdropped.pte, hsame.pte]
    · rw [hmap]
      obtain ⟨mm1, hid1, -⟩ := exists_mm_of_skeleton hid hpage.skeleton
      have hne : ∀ x ∈ ms, page x ≠ page m := fun x hx heq =>
        hm (mem_map.2 ⟨x, hx, heq⟩)
      have habs1 : ∀ x ∈ ms, k1.pte id (page x) = none := fun x hx => by
        rw [hpage.others id _ (by simpa using hne x hx)]
        exact habs x (.tail _ hx)
      rcases ih (m :: done) hid1 hnodup habs1 with
        ⟨hready, k', hloop, hrest⟩ | ⟨hready, k', hloop, hfs, hsk, hframes, hpte⟩
      · exact .inl ⟨htables.2 hready, k', hloop, hpage.cons hrest hm⟩
      refine .inr ⟨fun h => hready (htables.1 h), k', hloop, hfs.trans hpage.fs,
        hsk.trans hpage.skeleton, hframes.trans hpage.frames, fun i n => ?_⟩
      rw [hpte]
      by_cases hin : i = id ∧ n = page m
      · obtain ⟨rfl, rfl⟩ := hin
        simp [habsm]
      rw [hpage.others i n (by simpa using fun hi => hin hi)]
      simp only [map_cons, mem_cons]
      by_cases hi : i = id
      · have hn : n ≠ page m := fun hn => hin ⟨hi, hn⟩
        simp [hi, hn]
      · simp [hi]

/-- `remap_exec_mappings` enters all recorded pages, or none if a page table is
missing. -/
theorem remapExecMappings_spec (hid : k.mms.get? id = some mm) (hnodup : (ms.map page).Nodup)
    (habs : ∀ m ∈ ms, k.pte id (page m) = none) :
    (TablesFor k id ms ∧ ∃ k', remapExecMappings k id ms = (.ok (), k') ∧ Remapped k id ms k') ∨
    (¬ TablesFor k id ms ∧ ∃ k', remapExecMappings k id ms = (.error .ENOMEM, k') ∧
      k'.fs = k.fs ∧ k'.skeleton = k.skeleton ∧ k'.frames = k.frames ∧ k'.pte = k.pte) := by
  rcases remapLoop_spec [] hid hnodup habs with
    h | ⟨hready, k', hloop, hfs, hsk, hframes, hpte⟩
  · exact .inl h
  · exact .inr ⟨hready, k', hloop, hfs, hsk, hframes,
      funext fun i => funext fun n => by simp [hpte]⟩

end JanuaryOs.Exec

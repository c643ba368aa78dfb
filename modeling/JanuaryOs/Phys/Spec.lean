import JanuaryOs.Lib.Tiling
import JanuaryOs.Phys.Holding

/-!
# What the functions of the allocators do to the holders of the frames

Each function is a sequence of the moves of `Holding`, so each has one
specification here: what was in hand at the start goes to the lists or to the
caller.
-/

namespace JanuaryOs.Phys

open Lib Finset PhysState List Function

variable {m : ℕ} {s s' : PhysState} {hand live : List (Pfn × ℕ)} {M : Pfn → ℕ} {p o : ℕ}
  {z : ZoneType} {cpu : ℕ}

/-! ### Changes nobody looks at -/

namespace Holding

variable {f : Page → Page}

section

variable (h : Holding m s hand live M)

include h

theorem modifySame (hrole : (f (s.pages p)).SameRole (s.pages p)) :
    Holding m (s.modifyPage p f) hand live M := by
  refine h.sameRole fun q => ?_
  by_cases hq : q = p
  · subst hq
    rwa [update_self]
  · rw [update_of_ne hq]
    exact ⟨rfl, rfl, rfl, rfl, rfl⟩

theorem modifyRangeSame {lo hi : ℕ}
    (hrole : ∀ page, (f page).SameRole page) : Holding m (s.modifyRange lo hi f) hand live M := by
  refine h.sameRole fun q => ?_
  split
  · exact hrole _
  · exact ⟨rfl, rfl, rfl, rfl, rfl⟩

/-- The zone that is asked for a block is the one the block lies in. -/
theorem contains (hb : HasBlock m z p o) :
    (s.zones z).initialized = true ∧ (s.zones z).containsPfn p = true ∧ p < m := by
  have hlayout := h.books.layout z
  have hpos := Nat.two_pow_pos o
  have hstart := hb.start
  have hstop := hb.stop
  obtain ⟨hinit, -, hlt⟩ := hb.contains le_rfl (Nat.lt_add_of_pos_right hpos)
  refine ⟨hlayout.initialized.trans hinit, ?_, hlt⟩
  rw [Zone.containsPfn, decide_eq_true_eq, Zone.endPfn, hlayout.start, hlayout.spanned]
  exact ⟨hstart, (Nat.lt_add_of_pos_right hpos).trans_le hstop⟩

theorem validPfn (hb : HasBlock m z p o) : s.validPfn p = true := by
  have := (h.contains hb).2.2
  simpa [PhysState.validPfn, h.books.maxPfn] using this

theorem pfnToZone (hb : HasBlock m z p o) :
    s.pfnToZone p = some z := by
  obtain ⟨hinit, hcontains, -⟩ := h.contains hb
  simp only [PhysState.pfnToZone, hb.zone, hinit, hcontains, Bool.and_self, if_true]

end

end Holding

/-! ### Allocation -/

/-- What a call that allocates a block of order `o` does: the block is handed
out, or nothing is. -/
def Allocates (m : ℕ) (live : List (Pfn × ℕ)) (M : Pfn → ℕ) (o : ℕ) :
    Option Pfn × PhysState → Prop
  | (none, s) => Holding m s [] live M
  | (some p, s) => Holding m s [] ((p, o) :: live) M

/-- A property of the lists that allocating keeps: blocks are taken off the
lists, and a half is put on one while its buddy is in hand. -/
structure Stable (Q : PhysState → Prop) : Prop where
  congr {s s' : PhysState} : Q s → s'.nrCpus = s.nrCpus → s'.lists = s.lists → Q s'
  remove {s s' : PhysState} {z : ZoneType} {p o : ℕ} :
    Q s → s.removeFromBuddy z p o = some s' → Q s'
  add {s : PhysState} {z : ZoneType} {p o : ℕ} :
    Q s → p ^^^ 2 ^ o ∉ s.lists (.area z o) → Q (s.addToBuddy z p o)

/-- The same for a call that uses the caches of a CPU. -/
structure StableCached (cpu : ℕ) (Q : PhysState → Prop) : Prop extends Stable Q where
  cache {s s' : PhysState} {z : ZoneType} {l : List Pfn} : Q s → s'.nrCpus = s.nrCpus →
    s'.lists = update s.lists (.pcp cpu z) l → Q s'

theorem Stable.trivial : Stable fun _ => True :=
  ⟨fun _ _ _ => .intro, fun _ _ => .intro, fun _ _ => .intro⟩

theorem StableCached.trivial : StableCached cpu fun _ => True := ⟨.trivial, fun _ _ _ => .intro⟩

section Stable

variable {Q : PhysState → Prop} (hQ : Stable Q)
include hQ

/-- The halves that are split off go to the free lists. -/
theorem splitDown_spec (k : ℕ) (h : Holding m s ((p, o + k) :: hand) live M)
    (hb : HasBlock m z p (o + k)) (hq : Q s) :
    Holding m (splitDown z p o k s) ((p, o) :: hand) live M ∧ Q (splitDown z p o k s) := by
  induction k generalizing s with
  | zero => exact ⟨h, hq⟩
  | succ k ih =>
    refine ih (h.split.addToBuddy hb.split.2) hb.split.1 (hQ.add hq ?_)
    have hbuddy : p ^^^ 2 ^ (o + k) = p + 2 ^ (o + k) := xor_two_pow_of_dvd hb.aligned
    rw [← hbuddy, Nat.xor_xor_cancel_right]
    exact h.not_listed _

omit hQ in
theorem mem_lists_of_cons {k : ℕ} {rest : List Pfn}
    (h : ((s.zones z).freeArea k).freeList = p :: rest) : p ∈ s.lists (.area z k) := by
  show p ∈ ((s.zones z).freeArea k).freeList
  rw [h]
  exact mem_cons_self

theorem expandAndAlloc_spec (h : Holding m s [] live M) (hq : Q s) {high low : ℕ} (hle : low ≤ high)
    (gfp : GfpFlags) :
    Allocates m live M low (s.expandAndAlloc z high low gfp) ∧
      Q (s.expandAndAlloc z high low gfp).2 := by
  unfold expandAndAlloc
  cases hlist : ((s.zones z).freeArea high).freeList with
  | nil => exact ⟨h, hq⟩
  | cons p rest =>
    have hp := mem_lists_of_cons hlist
    have hb : HasBlock m z p high := h.block _ p hp
    obtain ⟨s1, hs1, h1, -⟩ := h.removeFromBuddy hp
    simp only [hs1]
    obtain ⟨k, rfl⟩ := Nat.exists_eq_add_of_le hle
    rw [Nat.add_sub_cancel_left]
    obtain ⟨h2, hq2⟩ := splitDown_spec hQ k h1 hb (hQ.remove hq hs1)
    set s2 := splitDown z p low k s1
    have h3 : Holding m (s2.modifyPage p fun page => (page.setCountOne.clearBuddy).sanitize low)
        [] ((p, low) :: live) M := by
      refine (h2.modifyHand rfl rfl).handOut ?_ ?_
      all_goals simp [modifyPage, Page.sanitize]
    by_cases hcomp : gfp.comp && decide (0 < low)
    · rw [if_pos hcomp]
      exact ⟨(h3.modifySame ⟨rfl, rfl, rfl, rfl, rfl⟩).modifyRangeSame
        fun _ => ⟨rfl, rfl, rfl, rfl, rfl⟩, hQ.congr hq2 rfl rfl⟩
    · rw [if_neg hcomp]
      exact ⟨h3, hQ.congr hq2 rfl rfl⟩

theorem zoneAllocPages_spec (h : Holding m s [] live M) (hq : Q s) (gfp : GfpFlags) :
    Allocates m live M o (s.zoneAllocPages z o gfp) ∧ Q (s.zoneAllocPages z o gfp).2 := by
  unfold zoneAllocPages
  cases hfind : findOrder (s.zones z) o with
  | none => exact ⟨h, hq⟩
  | some high =>
    have hle := (mem_range'_1.1 (mem_of_find?_eq_some hfind)).1
    exact expandAndAlloc_spec hQ h hq hle gfp

theorem allocFrom_spec (gfp : GfpFlags) (zs : List ZoneType) (h : Holding m s [] live M)
    (hq : Q s) :
    Allocates m live M o (allocFrom o gfp zs s) ∧
      Q (allocFrom o gfp zs s).2 := by
  induction zs generalizing s with
  | nil => exact ⟨h, hq⟩
  | cons z zs ih =>
    rw [allocFrom]
    split
    · exact ih h hq
    obtain ⟨hzone, hq'⟩ := zoneAllocPages_spec (z := z) (o := o) hQ h hq gfp
    generalize s.zoneAllocPages z o gfp = res at hzone hq'
    obtain ⟨_ | p, s'⟩ := res
    · exact ih hzone hq'
    · obtain ⟨z', hb⟩ := Holding.liveBlock hzone _ mem_cons_self
      simp only [Holding.validPfn hzone hb, if_true]
      exact ⟨hzone, hq'⟩

theorem allocPages_spec (h : Holding m s [] live M) (hq : Q s) (gfp : GfpFlags) :
    Allocates m live M o (s.allocPages o gfp) ∧ Q (s.allocPages o gfp).2 := by
  unfold allocPages
  split
  · exact ⟨h, hq⟩
  split
  · exact ⟨h, hq⟩
  · exact allocFrom_spec hQ gfp _ h hq

end Stable

/-! ### Per-CPU caches -/

section Stable

variable {Q : PhysState → Prop} (hQ : StableCached cpu Q)
include hQ

theorem refillFromBuddy_spec (batch : ℕ) (hcpu : cpu < maxCpus) (h : Holding m s hand live M)
    (hq : Q s) (hinit : s.pcpInitialized = true) :
    Holding m (refillFromBuddy cpu z batch s) hand live M ∧
      Q (refillFromBuddy cpu z batch s) ∧
      (refillFromBuddy cpu z batch s).pcpInitialized = true := by
  induction batch generalizing s with
  | zero => exact ⟨h, hq, hinit⟩
  | succ batch ih =>
    rw [refillFromBuddy]
    split
    · exact ⟨h, hq, hinit⟩
    cases hlist : ((s.zones z).freeArea 0).freeList with
    | nil => exact ⟨h, hq, hinit⟩
    | cons p rest =>
      have hp : p ∈ s.lists (.area z 0) := by
        show p ∈ ((s.zones z).freeArea 0).freeList
        simp [hlist]
      obtain ⟨s1, hs1, h1, hsame⟩ := h.removeFromBuddy hp
      simp only [hs1]
      have hinit1 : s1.pcpInitialized = true := hsame.trans hinit
      have h2 : Holding m (s1.modifyPage p (·.setOwner .pcp)) ((p, 0) :: hand) live M :=
        h1.modifyHand rfl h1.not_buddy
      have hq2 : Q (s1.modifyPage p (·.setOwner .pcp)) := hQ.congr (hQ.remove hq hs1) rfl rfl
      refine ih (h2.pcpFree (h.block _ p hp) hcpu hinit1 ?_)
        (hQ.cache hq2 rfl ((s1.modifyPage p (·.setOwner .pcp)).lists_setPcp cpu z _)) hinit1
      simp [modifyPage, Page.setOwner]

theorem pcpAlloc_check (h : Holding m s [] live M) (hq : Q s)
    (hs : s.pcpAlloc cpu z = some (p, s')) :
    ∃ s'', s'.checkCached z p = (true, s'') ∧ Holding m s'' [] ((p, 0) :: live) M ∧ Q s'' := by
  obtain ⟨h1, hb, howner, hlinked, -⟩ := h.pcpAlloc hs
  have hzone : (s'.pages p).zoneId = z := (h1.zoneId p).trans hb.zone
  have hcheck : s'.checkCached z p = (true, s'.modifyPage p (·.setOwner .allocated)) := by
    simp [checkCached, h1.validPfn hb, hzone, howner]
  have hand1 := h1.modifyHand (f := (·.setOwner .allocated)) rfl h1.not_buddy
  refine ⟨_, hcheck, hand1.handOut ?_ ?_, ?_⟩
  · simp [modifyPage, Page.setOwner]
  · simpa [modifyPage, Page.setOwner] using hlinked
  · obtain ⟨rest, -, rfl⟩ := Holding.pcpAlloc_some hs
    exact hQ.cache hq rfl (s.lists_setPcp cpu z _)

theorem pcpAllocFrom_spec (hcpu : cpu < maxCpus) (zs : List ZoneType) (h : Holding m s [] live M)
    (hq : Q s) (hinit : s.pcpInitialized = true) :
    Allocates m live M 0 (pcpAllocFrom cpu zs s) ∧ Q (pcpAllocFrom cpu zs s).2 := by
  induction zs generalizing s with
  | nil => exact ⟨h, hq⟩
  | cons z zs ih =>
    rw [pcpAllocFrom]
    rcases hpcp : s.pcpAlloc cpu z with _ | ⟨p, s1⟩
    · simp only
      split
      · obtain ⟨h1, hq1, hinit1⟩ := refillFromBuddy_spec (z := z) hQ pcpBatch hcpu h hq hinit
        rcases hpcp1 : (refillFromBuddy cpu z pcpBatch s).pcpAlloc cpu z
          with _ | ⟨p, s2⟩
        · exact ih h1 hq1 hinit1
        · obtain ⟨s3, hs3, h3⟩ := pcpAlloc_check hQ h1 hq1 hpcp1
          simp only [hs3]
          exact h3
      · exact ih h hq hinit
    · obtain ⟨s2, hs2, h2⟩ := pcpAlloc_check hQ h hq hpcp
      simp only [hs2]
      exact h2

theorem pcpAllocPage_spec (hcpu : cpu < maxCpus) (h : Holding m s [] live M) (hq : Q s)
    (gfp : GfpFlags) :
    Allocates m live M 0 (s.pcpAllocPage cpu gfp) ∧ Q (s.pcpAllocPage cpu gfp).2 := by
  unfold pcpAllocPage
  by_cases hinit : s.pcpInitialized = true
  · simp only [hinit, Bool.not_true, Bool.false_eq_true, if_false]
    exact pcpAllocFrom_spec hQ hcpu _ h hq hinit
  · simp only [hinit, Bool.not_false, if_true]
    exact ⟨h, hq⟩

theorem allocPage_spec (hcpu : cpu < maxCpus) (h : Holding m s [] live M) (hq : Q s)
    (gfp : GfpFlags) : Allocates m live M 0 (s.allocPage cpu gfp) ∧ Q (s.allocPage cpu gfp).2 := by
  unfold allocPage
  split
  · exact ⟨h, hq⟩
  split
  · obtain ⟨hpcp, hq'⟩ := pcpAllocPage_spec hQ hcpu h hq gfp
    generalize s.pcpAllocPage cpu gfp = res at hpcp hq'
    obtain ⟨_ | p, s1⟩ := res
    · exact allocPages_spec hQ.toStable hpcp hq' gfp
    obtain ⟨z, hb⟩ := Holding.liveBlock hpcp _ mem_cons_self
    simp only [Holding.validPfn hpcp hb, Bool.not_true, Bool.false_eq_true, if_false]
    have hback := Holding.takeBack hpcp mem_cons_self
    rw [erase_cons_head] at hback
    refine ⟨(hback.modifyHand rfl rfl).handOut ?_ ?_, hQ.congr hq' rfl rfl⟩
    all_goals simp [modifyPage, Page.sanitize]
  · exact allocPages_spec hQ.toStable h hq gfp

end Stable

theorem drainToBuddy_spec (batch : ℕ) (h : Holding m s hand live M) :
    Holding m (drainToBuddy cpu z batch s) hand live M := by
  induction batch generalizing s with
  | zero => exact h
  | succ batch ih =>
    rw [drainToBuddy]
    rcases hpcp : s.pcpAlloc cpu z with _ | ⟨p, s1⟩
    · exact h
    · obtain ⟨h1, hb, -⟩ := h.pcpAlloc hpcp
      exact ih (h1.addToBuddy hb)

theorem drainPcp_spec (fuel : ℕ) (h : Holding m s hand live M) :
    Holding m (drainPcp cpu z fuel s) hand live M := by
  induction fuel generalizing s with
  | zero => exact h
  | succ fuel ih =>
    rw [drainPcp]
    split
    · exact ih (drainToBuddy_spec _ h)
    · exact h

theorem drainAllPcps_spec (h : Holding m s hand live M) : Holding m s.drainAllPcps hand live M := by
  unfold drainAllPcps
  split
  · exact h
  rename_i hinit
  clear hinit
  induction allPcps s.nrCpus generalizing s with
  | nil => exact h
  | cons c cs ih =>
    rw [foldl_cons]
    refine ih ?_
    split
    · exact drainPcp_spec _ h
    · exact h

/-! ### Release -/

/-- A buddy that the flags call free is on the free list of its order in the
zone. -/
theorem mem_area_of_buddy (h : Holding m s hand live M) (hcontains : (s.zones z).containsPfn p)
    (hbuddy : (s.pages p).buddy = true) (horder : (s.pages p).order = o) :
    p ∈ s.lists (.area z o) := by
  obtain ⟨z', o', hp⟩ := h.buddy p hbuddy
  have hlayout := h.books.layout z
  rw [Zone.containsPfn, decide_eq_true_eq, Zone.endPfn, hlayout.start, hlayout.spanned]
    at hcontains
  have hz : ZoneType.fromPhysAddr (p * pageSize) = z :=
    (bootZone_contains hcontains.1 hcontains.2).2.1
  have hz' : ZoneType.fromPhysAddr (p * pageSize) = z' := (h.block _ p hp).zone
  have ho : (s.pages p).order = o' := (h.fits _ p hp).2
  rwa [← hz, hz', ← horder, ho]

/-- The block that is left at the end has no free buddy. -/
theorem mergeUp_spec {Q : PhysState → Prop} (hQ : Stable Q) (fuel : ℕ)
    (h : Holding m s ((p, o) :: hand) live M) (hb : HasBlock m z p o) (hq : Q s)
    (hfuel : o + fuel + 1 = maxOrder) {p' o' : ℕ} (hres : mergeUp z fuel p o s = (p', o', s')) :
    Holding m s' ((p', o') :: hand) live M ∧ HasBlock m z p' o' ∧ Q s' ∧
      (o' + 1 < maxOrder → p' ^^^ 2 ^ o' ∉ s'.lists (.area z o')) := by
  induction fuel generalizing s p o with
  | zero =>
    cases hres
    exact ⟨h, hb, hq, fun ho => by omega⟩
  | succ fuel ih =>
    rw [mergeUp] at hres
    split at hres
    · rename_i hcontains
      cases hres
      refine ⟨h, hb, hq, fun _ hin => ?_⟩
      have hzone : (s'.zones z).containsPfn (p' ^^^ 2 ^ o') = true :=
        (h.contains (h.block (.area z o') _ hin)).2.1
      rw [Bool.not_eq_true', hzone] at hcontains
      cases hcontains
    split at hres
    · rename_i hflags
      cases hres
      refine ⟨h, hb, hq, fun _ hin => ?_⟩
      obtain ⟨hbuddy, horder⟩ : (s'.pages (p' ^^^ 2 ^ o')).buddy = true ∧
        (s'.pages (p' ^^^ 2 ^ o')).order = o' := h.fits (.area z o') _ hin
      simp [hbuddy, horder] at hflags
    · rename_i hcontains hbuddy
      simp only [Bool.not_eq_true, Bool.not_eq_false', Bool.or_eq_true, not_or,
        decide_eq_true_eq, ne_eq, not_not] at hcontains hbuddy
      have hp' := mem_area_of_buddy h hcontains hbuddy.1 hbuddy.2
      obtain ⟨s1, hs1, h1, -⟩ := h.removeFromBuddy hp'
      have hb' : HasBlock m z (p ^^^ 2 ^ o) o := h.block _ _ hp'
      have ho : o + 1 < maxOrder := by omega
      simp only [hs1] at hres
      exact ih (h1.join hb hb' ho) (hb.merge hb' ho) (hQ.remove hq hs1) (by omega) hres

theorem pcpFreePage_eq (hcpu : cpu < maxCpus) (h : Holding m s [(p, 0)] live M)
    (hb : HasBlock m z p 0) (hinit : s.pcpInitialized = true)
    (howner : (s.pages p).owner = .allocated) (hlinked : (s.pages p).linked = false) :
    let s' := (s.modifyPage p (·.setOwner .pcp)).pcpFree cpu z p
    Holding m s' [] live M ∧ s.pcpFreePage cpu p =
      if pcpHigh < (s'.pcps cpu z).count ∧ (s'.zones z).initialized then
        drainToBuddy cpu z pcpBatch s'
      else s' := by
  have hzone : (s.pages p).zoneId = z := (h.zoneId p).trans hb.zone
  have h1 : Holding m (s.modifyPage p (·.setOwner .pcp)) [(p, 0)] live M :=
    h.modifyHand rfl h.not_buddy
  refine ⟨h1.pcpFree hb hcpu hinit (by simp [modifyPage, Page.setOwner]), ?_⟩
  simp only [pcpFreePage, hinit, h.validPfn hb, hlinked, howner, hzone]
  simp only [Bool.not_true, Bool.false_eq_true, if_false, ne_eq, not_true_eq_false, false_and]

/-- The cache may be drained. -/
theorem pcpFreePage_spec (hcpu : cpu < maxCpus) (h : Holding m s [(p, 0)] live M)
    (hinit : s.pcpInitialized = true) (howner : (s.pages p).owner = .allocated)
    (hlinked : (s.pages p).linked = false) : Holding m (s.pcpFreePage cpu p) [] live M := by
  obtain ⟨z, hb⟩ := h.handBlock _ mem_cons_self
  obtain ⟨h', heq⟩ := pcpFreePage_eq hcpu h hb hinit howner hlinked
  rw [heq]
  split
  · exact drainToBuddy_spec _ h'
  · exact h'

/-- The end of `free_pages`, for a block without references. -/
def PhysState.release (s : PhysState) (cpu : ℕ) (p : Pfn) (o : ℕ) : PhysState :=
  if o = 0 ∧ s.pcpInitialized then s.pcpFreePage cpu p
  else
    match s.pfnToZone p with
    | none => s
    | some z =>
      let (p, o, s) := mergeUp z (maxOrder - 1 - o) p o s
      s.addToBuddy z p o

/-- The last reference to a block in hand is gone: it goes to a cache or, joined
with what is free around it, to a free list. -/
theorem release_spec (hcpu : cpu < maxCpus) (h : Holding m s [(p, o)] live M)
    (howner : (s.pages p).owner = .allocated) (hlinked : (s.pages p).linked = false) :
    Holding m (s.release cpu p o) [] live M := by
  unfold release
  split
  · rename_i hpcp
    obtain ⟨rfl, hinit⟩ := hpcp
    exact pcpFreePage_spec hcpu h hinit howner hlinked
  obtain ⟨z, hb⟩ := h.handBlock _ mem_cons_self
  have horder : o < maxOrder := hb.order
  rcases hmerge : mergeUp z (maxOrder - 1 - o) p o s with ⟨p', o', s'⟩
  obtain ⟨h', hb', -⟩ := mergeUp_spec .trivial _ h hb .intro (by omega) hmerge
  simp only [h.pfnToZone hb, hmerge]
  exact h'.addToBuddy hb'

/-- `free_pages` of an allocation drops a reference, which changes descriptors
only, and releases the block if that was the last one. -/
theorem freePages_cases (h : Holding m s [] live M) (hp : (p, o) ∈ live) (cpu : ℕ) :
    ((s.pages p).refcount ≠ 1 ∧ ∃ pages, s.freePages cpu p o = { s with pages := pages } ∧
      Holding m { s with pages := pages } [] live M) ∨
    (s.pages p).refcount = 1 ∧ ∃ pages,
      s.freePages cpu p o = ({ s with pages := pages } : PhysState).release cpu p o ∧
      (pages p).owner = .allocated ∧ (pages p).linked = false ∧
      Holding m { s with pages := pages } [(p, o)] (live.erase (p, o)) M := by
  obtain ⟨z, hb⟩ := h.liveBlock _ hp
  have horder : ¬ maxOrder ≤ o := Nat.not_le.2 hb.order
  unfold freePages
  rw [if_neg horder]
  by_cases hzero : (s.pages p).refcount = 0
  · have hput : (s.pages p).tryPut = none := if_pos hzero
    simp only [hput]
    exact .inl ⟨by omega, _, rfl, h⟩
  have hput : (s.pages p).tryPut = some ((s.pages p).refcount - 1,
      { s.pages p with refcount := (s.pages p).refcount - 1 }) := if_neg hzero
  have h1 : Holding m (s.modifyPage p fun _ =>
      { s.pages p with refcount := (s.pages p).refcount - 1 }) [] live M :=
    h.modifySame ⟨rfl, rfl, rfl, rfl, rfl⟩
  simp only [hput]
  by_cases hone : (s.pages p).refcount = 1
  · have h2 := h1.takeBack hp
    rw [if_neg (by omega)]
    refine .inr ⟨hone, ?_⟩
    split
    · have h3 : Holding m (modifyRange _ p (p + 2 ^ o) (·.clearCompound)) _ _ M :=
        h2.modifyRangeSame fun _ => ⟨rfl, rfl, rfl, rfl, rfl⟩
      refine ⟨_, rfl, ?_, ?_, h3.modifyHand (f := (·.sanitize o)) rfl h3.not_buddy⟩
      all_goals simp [Page.sanitize]
    · refine ⟨_, rfl, ?_, ?_, h2.modifyHand (f := (·.sanitize o)) rfl h2.not_buddy⟩
      all_goals simp [Page.sanitize]
  · rw [if_pos (by omega)]
    exact .inl ⟨hone, _, rfl, h1⟩

theorem freePages_spec (hcpu : cpu < maxCpus) (h : Holding m s [] live M) (hp : (p, o) ∈ live) :
    Holding m (s.freePages cpu p o) []
      (if (s.pages p).refcount = 1 then live.erase (p, o) else live) M := by
  rcases freePages_cases h hp cpu with ⟨hone, pages, heq, h'⟩ | ⟨hone, pages, heq, ho, hl, h'⟩
  · rwa [heq, if_neg hone]
  · rw [heq, if_pos hone]
    exact release_spec hcpu h' ho hl

/-! ### Initialisation -/

namespace Holding

theorem adopt (h : Holding m s hand live M) (hb : HasBlock m z p o)
    (hnew : ∀ f, p ≤ f → f < p + 2 ^ o → M f = 0) :
    Holding m s ((p, o) :: hand) live fun f => M f + cover p o f where
  __ := h
  coverage f := by
    have := h.coverage f
    rw [coverAll_cons]
    omega
  single f := by
    have := h.single f
    simp only [cover]
    split
    · rename_i hf
      rw [hnew f hf.1 hf.2]
    · exact this
  handBlock b hb' := by
    rcases mem_cons.1 hb' with rfl | hb'
    · exact ⟨z, hb⟩
    · exact h.handBlock b hb'

/-- The same number of holders, written in another way. -/
theorem recount {N : Pfn → ℕ} (h : Holding m s hand live M) (hM : ∀ f, M f = N f) :
    Holding m s hand live N :=
  funext hM ▸ h

theorem sameLists (h : Holding m s hand live M) (hbooks : Books m s') (hlists : s'.lists = s.lists)
    (hpages : s'.pages = s.pages) : Holding m s' hand live M := by
  have hheld : ∀ f, s'.held f = s.held f := fun f => by rw [PhysState.held, PhysState.held, hlists]
  refine ⟨hbooks, ?_, fun f => hheld f ▸ h.coverage f, h.single, ?_, ?_, ?_, ?_, h.handBlock,
    h.liveBlock, ?_⟩
  · rw [hpages]
    exact h.zoneId
  · rw [hlists]
    exact h.place
  · rw [hlists, hpages]
    exact h.fits
  · rw [hlists]
    exact h.block
  · rw [hlists, hpages]
    exact h.buddy
  · rw [hpages]
    exact h.livePage

end Holding

/-- The chosen block is aligned and does not leave the range. -/
theorem fitOrder_spec (pfn endPfn k : ℕ) :
    fitOrder pfn endPfn k ≤ k ∧ 2 ^ fitOrder pfn endPfn k ∣ pfn ∧
      (pfn < endPfn → pfn + 2 ^ fitOrder pfn endPfn k ≤ endPfn) := by
  induction k with
  | zero => exact ⟨le_rfl, one_dvd pfn, fun h => h⟩
  | succ k ih =>
    rw [fitOrder]
    split
    · rename_i hfit
      exact ⟨le_rfl, Nat.dvd_of_mod_eq_zero hfit.1, fun _ => hfit.2⟩
    · exact ⟨by omega, ih.2⟩

theorem initLoop_frame (fuel pfn : ℕ) {endPfn : ℕ} (s : PhysState) :
    (initLoop z endPfn fuel pfn s).pcpInitialized = s.pcpInitialized ∧
      (∀ f : ℕ, ¬ (pfn ≤ f ∧ f < endPfn) → (initLoop z endPfn fuel pfn s).pages f = s.pages f) ∧
      ∀ pl, (∀ o, pl ≠ .area z o) → (initLoop z endPfn fuel pfn s).lists pl = s.lists pl := by
  induction fuel generalizing pfn s with
  | zero => exact ⟨rfl, fun _ _ => rfl, fun _ _ => rfl⟩
  | succ fuel ih =>
    simp only [initLoop]
    split
    · rename_i hlt
      generalize fitOrder pfn endPfn (maxOrder - 1) = o
      have hpos := Nat.two_pow_pos o
      obtain ⟨hpcp, hpages, hlists⟩ := ih (pfn + 2 ^ o) (s.addToBuddy z pfn o)
      refine ⟨hpcp, fun f hf => ?_, fun pl hpl => ?_⟩
      · rw [hpages f (by omega)]
        refine update_of_ne ?_ _ _
        rintro rfl
        exact hf ⟨le_rfl, hlt⟩
      · rw [hlists pl hpl, lists_addToBuddy, update_of_ne (hpl o)]
    · exact ⟨rfl, fun _ _ => rfl, fun _ _ => rfl⟩

theorem initLoop_spec (fuel : ℕ) {pfn endPfn : ℕ} (h : Holding m s [] live M)
    (hstart : (bootZone m z).startPfn ≤ pfn) (hstop : endPfn ≤ (bootZone m z).endPfn)
    (hfuel : endPfn - pfn ≤ fuel) (hnew : ∀ f, pfn ≤ f → f < endPfn → M f = 0) :
    Holding m (initLoop z endPfn fuel pfn s) [] live
      fun f : ℕ => M f + if pfn ≤ f ∧ f < endPfn then 1 else 0 := by
  induction fuel generalizing s pfn M with
  | zero =>
    have hnone : ∀ f, ¬ (pfn ≤ f ∧ f < endPfn) := fun f hf => by omega
    simpa only [initLoop, hnone, if_false, Nat.add_zero] using h
  | succ fuel ih =>
    rw [initLoop]
    by_cases hlt : pfn < endPfn
    · obtain ⟨hle, hdvd, hend⟩ := fitOrder_spec pfn endPfn (maxOrder - 1)
      have hend := hend hlt
      rw [if_pos hlt]
      set o := fitOrder pfn endPfn (maxOrder - 1)
      have hb : HasBlock m z pfn o :=
        ⟨by simp only [maxOrder] at hle ⊢; omega, hdvd, hstart, hend.trans hstop⟩
      have h1 := (h.adopt hb fun f h1 h2 => hnew f h1 (by omega)).addToBuddy hb
      have h2 := ih h1 (show _ ≤ pfn + 2 ^ o by omega) (by omega) fun f hf1 hf2 => by
        rw [hnew f (by omega) hf2, cover, if_neg (by omega)]
      refine h2.recount fun f => ?_
      simp only [cover]
      split <;> split <;> split <;> omega
    · have hnone : ∀ f, ¬ (pfn ≤ f ∧ f < endPfn) := fun f hf => by omega
      simpa only [if_neg hlt, hnone, if_false, Nat.add_zero] using h

theorem initPcp_spec (h : Holding m s hand live M) (hinit : s.pcpInitialized = false) (n : ℕ) :
    Holding m (s.initPcp n) hand live M := by
  have hempty : ∀ c z, (s.pcps c z).list = [] := fun c z => h.books.cached c z hinit
  have hlists : (s.initPcp n).lists = s.lists := by
    funext pl
    cases pl with
    | area z o => rfl
    | pcp c z =>
      simp only [lists, initPcp, hempty]
      split <;> simp [hempty]
  refine h.sameLists ?_ hlists rfl
  refine ⟨h.books.maxPfn, ?_, h.books.layout, h.books.counted, fun c z => ?_, fun c z hno => ?_⟩
  · simp only [initPcp, maxCpus]
    omega
  · rw [hlists, show s.lists (.pcp c z) = [] from hempty c z]
    have := h.books.count c z
    rw [show s.lists (.pcp c z) = [] from hempty c z] at this
    simp only [initPcp]
    split
    · rfl
    · exact this
  · cases hno

end JanuaryOs.Phys

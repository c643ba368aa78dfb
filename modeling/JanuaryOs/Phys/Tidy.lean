import JanuaryOs.Phys.Conservation

/-!
# States of the allocators in which no two buddies are free

Splitting a block leaves no pair of buddies, and `free_pages` joins a block with
its buddy as long as that is free. A page that comes back from the cache of a
CPU is put on the free list of order zero as it is, so the functions that drain
caches keep the lists tidy only if the pages are lone: neither free nor put back
together with their buddies.
-/

namespace JanuaryOs.Phys

open Lib Function PhysState List

/-! ### Lists without buddies -/

/-- No two free blocks are buddies, and no CPU beyond the last one has a cache. -/
structure Tidy (n : ℕ) (s : PhysState) : Prop where
  cpus : s.nrCpus = n
  merged : ∀ z o p, o + 1 < maxOrder → p ∈ s.lists (.area z o) → p ^^^ 2 ^ o ∉ s.lists (.area z o)
  idle : ∀ c z, n ≤ c → s.lists (.pcp c z) = []

variable {l : List Pfn} {n m : ℕ} {s s' : PhysState} {z : ZoneType} {p o cpu : ℕ}
  {hand live : List (Pfn × ℕ)} {M : Pfn → ℕ}

namespace Tidy

theorem congr (h : Tidy n s) (hcpus : s'.nrCpus = s.nrCpus) (hlists : s'.lists = s.lists) :
    Tidy n s' :=
  ⟨hcpus.trans h.cpus, hlists ▸ h.merged, hlists ▸ h.idle⟩

theorem erase (h : Tidy n s) (hcpus : s'.nrCpus = s.nrCpus)
    (hlists : s'.lists = update s.lists (.area z o) ((s.lists (.area z o)).erase p)) :
    Tidy n s' := by
  have hsub : ∀ z' o', s'.lists (.area z' o') ⊆ s.lists (.area z' o') := by
    intro z' o'
    rw [hlists]
    by_cases heq : Place.area z' o' = .area z o
    · rw [heq, update_self]
      exact erase_subset
    · rw [update_of_ne heq]
      exact List.Subset.refl _
  refine ⟨hcpus.trans h.cpus, fun z' o' q ho hq hbuddy => ?_, fun c z' hc => ?_⟩
  · exact h.merged z' o' q ho (hsub z' o' hq) (hsub z' o' hbuddy)
  · have hne : Place.pcp c z' ≠ .area z o := nofun
    rw [hlists, update_of_ne hne]
    exact h.idle c z' hc

/-- A block whose buddy is not free is put on a free list. -/
theorem push (h : Tidy n s) (hcpus : s'.nrCpus = s.nrCpus)
    (hlists : s'.lists = update s.lists (.area z o) (p :: s.lists (.area z o)))
    (hbuddy : o + 1 < maxOrder → p ^^^ 2 ^ o ∉ s.lists (.area z o)) : Tidy n s' := by
  refine ⟨hcpus.trans h.cpus, fun z' o' q ho hq => ?_, fun c z' hc => ?_⟩
  · by_cases heq : Place.area z' o' = .area z o
    · obtain ⟨rfl, rfl⟩ := Place.area.inj heq
      rw [hlists, update_self] at hq ⊢
      rcases mem_cons.1 hq with rfl | hq
      · rw [mem_cons, not_or]
        exact ⟨xor_two_pow_ne q o', hbuddy ho⟩
      · rw [mem_cons, not_or]
        refine ⟨fun hp => hbuddy ho ?_, h.merged z' o' q ho hq⟩
        rwa [← hp, Nat.xor_xor_cancel_right]
    · rw [hlists, update_of_ne heq] at hq ⊢
      exact h.merged z' o' q ho hq
  · have hne : Place.pcp c z' ≠ .area z o := nofun
    rw [hlists, update_of_ne hne]
    exact h.idle c z' hc

theorem cache (h : Tidy n s) (hcpu : cpu < n) (hcpus : s'.nrCpus = s.nrCpus)
    (hlists : s'.lists = update s.lists (.pcp cpu z) l) : Tidy n s' := by
  refine ⟨hcpus.trans h.cpus, fun z' o' q ho hq => ?_, fun c z' hc => ?_⟩
  · have hne : Place.area z' o' ≠ .pcp cpu z := nofun
    rw [hlists, update_of_ne hne] at hq ⊢
    exact h.merged z' o' q ho hq
  · have hne : Place.pcp c z' ≠ .pcp cpu z := by
      rintro heq
      obtain ⟨rfl, -⟩ := Place.pcp.inj heq
      omega
    rw [hlists, update_of_ne hne]
    exact h.idle c z' hc

/-! ### Moves -/

theorem addToBuddy (h : Tidy n s) (hbuddy : o + 1 < maxOrder → p ^^^ 2 ^ o ∉ s.lists (.area z o)) :
    Tidy n (s.addToBuddy z p o) :=
  h.push rfl (s.lists_addToBuddy z p o) hbuddy

theorem removeFromBuddy (h : Tidy n s) (hs : s.removeFromBuddy z p o = some s') : Tidy n s' := by
  refine h.erase ?_ (lists_removeFromBuddy hs)
  unfold PhysState.removeFromBuddy at hs
  split at hs
  · cases hs
  · cases hs
    rfl

theorem stable (n : ℕ) : Stable (Tidy n) :=
  ⟨congr, removeFromBuddy, fun h hbuddy => h.addToBuddy fun _ => hbuddy⟩

theorem stableCached (hcpu : cpu < n) : StableCached cpu (Tidy n) :=
  ⟨stable n, fun h hcpus hlists => h.cache hcpu hcpus hlists⟩

theorem pcpFree (h : Tidy n s) (hcpu : cpu < n) : Tidy n (s.pcpFree cpu z p) :=
  h.cache hcpu rfl (s.lists_setPcp cpu z _)

end Tidy

section Allocation

/-! ### Release -/

theorem lists_drainToBuddy (cpu : ℕ) (z : ZoneType) (batch : ℕ) (h : Holding m s hand live M) :
    (drainToBuddy cpu z batch s).lists = update
        (update s.lists (.pcp cpu z) ((s.lists (.pcp cpu z)).drop batch))
        (.area z 0) (((s.lists (.pcp cpu z)).take batch).reverse ++ s.lists (.area z 0)) ∧
      (drainToBuddy cpu z batch s).nrCpus = s.nrCpus := by
  induction batch generalizing s with
  | zero => simp [drainToBuddy]
  | succ batch ih =>
    have hcount : (s.pcps cpu z).count = (s.pcps cpu z).list.length := h.books.count cpu z
    rw [drainToBuddy]
    rcases hlist : s.lists (.pcp cpu z) with _ | ⟨p, rest⟩
    · have hpcp : s.pcpAlloc cpu z = none := by
        simp [pcpAlloc, show (s.pcps cpu z).list = [] from hlist]
      have hsame : update s.lists (.pcp cpu z) [] = s.lists := by
        rw [← hlist, update_eq_self]
      rw [hpcp]
      simp [hsame]
    · have hpcp : s.pcpAlloc cpu z = some (p, (s.setPcp cpu z
          ⟨(s.pcps cpu z).count - 1, rest⟩).modifyPage p (·.unlink)) := by
        simp [pcpAlloc, hcount, show (s.pcps cpu z).list = p :: rest from hlist]
      obtain ⟨h1, hb, -⟩ := h.pcpAlloc hpcp
      have hlists : ((s.setPcp cpu z ⟨(s.pcps cpu z).count - 1, rest⟩).modifyPage p
          (·.unlink)).lists = update s.lists (.pcp cpu z) rest :=
        s.lists_setPcp cpu z _
      obtain ⟨hrest, hcpus⟩ := ih (h1.addToBuddy hb)
      rw [lists_addToBuddy, hlists] at hrest
      rw [hpcp]
      refine ⟨hrest.trans ?_, hcpus⟩
      funext pl
      by_cases harea : pl = .area z 0
      · subst harea
        simp
      by_cases hpcp : pl = .pcp cpu z
      · subst hpcp
        simp
      · simp [harea, hpcp]

theorem lists_drainPcp (fuel : ℕ) (h : Holding m s hand live M)
    (hfuel : (s.pcps cpu z).count ≤ fuel) :
    (drainPcp cpu z fuel s).lists = update (update s.lists (.pcp cpu z) [])
        (.area z 0) ((s.lists (.pcp cpu z)).reverse ++ s.lists (.area z 0)) ∧
      (drainPcp cpu z fuel s).nrCpus = s.nrCpus := by
  have hne : Place.pcp cpu z ≠ .area z 0 := nofun
  have hempty : ∀ {s : PhysState}, s.lists (.pcp cpu z) = [] → s.lists
      = update (update s.lists (.pcp cpu z) [])
          (.area z 0) ((s.lists (.pcp cpu z)).reverse ++ s.lists (.area z 0)) := by
    intro s hs
    rw [← hs, update_eq_self]
    simp [hs]
  induction fuel generalizing s with
  | zero =>
    have hcount : (s.pcps cpu z).count = (s.lists (.pcp cpu z)).length := h.books.count cpu z
    exact ⟨hempty (s := s) (length_eq_zero_iff.1 (by omega)), rfl⟩
  | succ fuel ih =>
    have hcount : (s.pcps cpu z).count = (s.lists (.pcp cpu z)).length := h.books.count cpu z
    rw [drainPcp]
    split
    swap
    · exact ⟨hempty (length_eq_zero_iff.1 (by omega)), rfl⟩
    have hdrained : Holding m (drainToBuddy cpu z pcpBatch s) hand live M := drainToBuddy_spec _ h
    obtain ⟨hlists, hcpus⟩ := lists_drainToBuddy cpu z pcpBatch h
    have hleft : ((drainToBuddy cpu z pcpBatch s).pcps cpu z).count = _ :=
      hdrained.books.count cpu z
    rw [hlists, update_of_ne hne, update_self, length_drop] at hleft
    obtain ⟨hrest, hcpus'⟩ := ih hdrained (by simp only [pcpBatch] at *; omega)
    refine ⟨hrest.trans ?_, hcpus'.trans hcpus⟩
    rw [hlists]
    funext pl
    by_cases harea : pl = .area z 0
    · subst harea
      simp only [update_self, update_of_ne hne]
      rw [← append_assoc, ← reverse_append, take_append_drop]
    by_cases hpcp : pl = .pcp cpu z
    · subst hpcp
      simp
    · simp [harea, hpcp]

/-- Pages are put back, one after the other, whose buddies are neither free nor
put back. -/
theorem Tidy.putBack (ht : Tidy n s) (hcpu : cpu < n) (hcpus : s'.nrCpus = s.nrCpus)
    {rest : List Pfn}
    (hlists : s'.lists = update (update s.lists (.pcp cpu z) rest) (.area z 0)
      (l ++ s.lists (.area z 0))) (hlone : ∀ p ∈ l, p ^^^ 1 ∉ s.lists (.area z 0) ∧ p ^^^ 1 ∉ l) :
    Tidy n s' := by
  refine ⟨hcpus.trans ht.cpus, fun z' o' q ho hq => ?_, fun c z' hc => ?_⟩
  · have hne : ∀ z' o', Place.area z' o' ≠ .pcp cpu z := nofun
    by_cases heq : Place.area z' o' = .area z 0
    · obtain ⟨rfl, rfl⟩ := Place.area.inj heq
      rw [hlists, update_self] at hq ⊢
      rw [pow_zero]
      rcases mem_append.1 hq with hq | hq
      · exact fun hin => (mem_append.1 hin).elim (hlone q hq).2 (hlone q hq).1
      intro hin
      rcases mem_append.1 hin with hin | hin
      · have := (hlone _ hin).1
        rw [Nat.xor_xor_cancel_right] at this
        exact this hq
      · exact ht.merged z' 0 q ho hq hin
    · rw [hlists, update_of_ne heq, update_of_ne (hne _ _)] at hq ⊢
      exact ht.merged z' o' q ho hq
  · have hne : Place.pcp c z' ≠ .area z 0 := nofun
    have hne' : Place.pcp c z' ≠ .pcp cpu z := by
      rintro heq
      obtain ⟨rfl, -⟩ := Place.pcp.inj heq
      omega
    rw [hlists, update_of_ne hne, update_of_ne hne']
    exact ht.idle c z' hc

theorem drainToBuddy_tidy (batch : ℕ) (h : Holding m s hand live M) (ht : Tidy n s) (hcpu : cpu < n)
    (hlone : ∀ p ∈ (s.lists (.pcp cpu z)).take batch,
      p ^^^ 1 ∉ s.lists (.area z 0) ∧ p ^^^ 1 ∉ (s.lists (.pcp cpu z)).take batch) :
    Tidy n (drainToBuddy cpu z batch s) := by
  obtain ⟨hlists, hcpus⟩ := lists_drainToBuddy cpu z batch h
  refine ht.putBack hcpu hcpus hlists ?_
  simpa only [mem_reverse] using hlone

/-- No cached page has a buddy that is free or cached. -/
def LoneCaches (s : PhysState) : Prop :=
  ∀ c z, ∀ p ∈ s.lists (.pcp c z),
    p ^^^ 1 ∉ s.lists (.area z 0) ∧ ∀ c', p ^^^ 1 ∉ s.lists (.pcp c' z)

theorem drainPcp_tidy (h : Holding m s hand live M) (ht : Tidy n s) (hcpu : cpu < n)
    (hlone : LoneCaches s) (z : ZoneType) :
    Tidy n (drainPcp cpu z (s.pcps cpu z).count s) ∧
      LoneCaches (drainPcp cpu z (s.pcps cpu z).count s) := by
  obtain ⟨hlists, hcpus⟩ := lists_drainPcp (s.pcps cpu z).count h le_rfl
  refine ⟨ht.putBack hcpu hcpus hlists ?_, ?_⟩
  · intro p hp
    rw [mem_reverse] at hp ⊢
    exact ⟨(hlone cpu z p hp).1, (hlone cpu z p hp).2 cpu⟩
  · generalize drainPcp cpu z (s.pcps cpu z).count s = s' at hlists
    -- caches only shrink, and what was in this one is now free
    have hne : ∀ c' z', Place.pcp c' z' ≠ .area z 0 := nofun
    have hne' : ∀ z', Place.area z' 0 ≠ .pcp cpu z := nofun
    have hcache : ∀ c' z' q, q ∈ s'.lists (.pcp c' z') → q ∈ s.lists (.pcp c' z') := by
      intro c' z' q hq
      rw [hlists, update_of_ne (hne c' z')] at hq
      by_cases heq : Place.pcp c' z' = .pcp cpu z
      · rw [heq, update_self] at hq
        cases hq
      · rwa [update_of_ne heq] at hq
    intro c' z' q hq
    obtain ⟨h1, h2⟩ := hlone c' z' q (hcache c' z' q hq)
    refine ⟨?_, fun c'' hin => h2 c'' (hcache c'' z' _ hin)⟩
    rw [hlists]
    by_cases heq : Place.area z' 0 = .area z 0
    · obtain ⟨rfl, -⟩ := Place.area.inj heq
      rw [update_self, mem_append, mem_reverse, not_or]
      exact ⟨h2 cpu, h1⟩
    · rw [update_of_ne heq, update_of_ne (hne' z')]
      exact h1

theorem mem_allPcps {c : ℕ} (hc : c < n) (z : ZoneType) : (c, z) ∈ allPcps n :=
  mem_flatMap.2 ⟨c, mem_range.2 hc, mem_map.2 ⟨z, z.mem_all, rfl⟩⟩

theorem drainAllPcps_tidy (h : Holding m s hand live M) (ht : Tidy n s) (hlone : LoneCaches s) :
    Tidy n s.drainAllPcps ∧ ∀ c z, s.drainAllPcps.lists (.pcp c z) = [] := by
  -- a cache that is empty stays so, and each one that is visited is emptied
  have hloop : ∀ (cs : List (ℕ × ZoneType)) {s : PhysState}, (∀ c ∈ cs, c.1 < n) →
      Holding m s hand live M → Tidy n s → LoneCaches s →
      Tidy n (cs.foldl (fun s c => if (s.zones c.2).initialized then
          drainPcp c.1 c.2 (s.pcps c.1 c.2).count s else s) s) ∧
        ∀ c z, s.lists (.pcp c z) = [] ∨ (c, z) ∈ cs →
          (cs.foldl (fun s c => if (s.zones c.2).initialized then
            drainPcp c.1 c.2 (s.pcps c.1 c.2).count s else s) s).lists (.pcp c z) = [] := by
    intro cs
    induction cs with
    | nil => exact fun _ _ ht _ => ⟨ht, fun c z hcz => hcz.resolve_right nofun⟩
    | cons a cs ih =>
      intro s hcpus h ht hlone
      obtain ⟨ha, hcs⟩ := forall_mem_cons.1 hcpus
      rw [foldl_cons]
      by_cases hinit : (s.zones a.2).initialized = true
      · rw [if_pos hinit]
        obtain ⟨hlists, -⟩ := lists_drainPcp (s.pcps a.1 a.2).count h le_rfl
        obtain ⟨ht', hlone'⟩ := drainPcp_tidy h ht ha hlone a.2
        obtain ⟨htidy, hempty⟩ := ih hcs (drainPcp_spec _ h) ht' hlone'
        refine ⟨htidy, fun c z hcz => hempty c z ?_⟩
        have hne : Place.pcp c z ≠ .area a.2 0 := nofun
        rw [hlists, update_of_ne hne]
        by_cases heq : Place.pcp c z = .pcp a.1 a.2
        · rw [heq, update_self]
          exact .inl rfl
        rw [update_of_ne heq]
        refine hcz.imp_right fun hmem => (mem_cons.1 hmem).resolve_left ?_
        rintro rfl
        exact heq rfl
      · rw [if_neg hinit]
        obtain ⟨htidy, hempty⟩ := ih hcs h ht hlone
        refine ⟨htidy, fun c z hcz => hempty c z ?_⟩
        rcases hcz with hcz | hcz
        · exact .inl hcz
        · rcases mem_cons.1 hcz with rfl | hcz
          · refine .inl (eq_nil_iff_forall_not_mem.2 fun p hp => hinit ?_)
            exact (h.contains (h.block (.pcp c z) p hp)).1
          · exact .inr hcz
  unfold drainAllPcps
  by_cases hinit : s.pcpInitialized = true
  · rw [if_neg (by simpa using hinit)]
    have hcpus : ∀ c ∈ allPcps s.nrCpus, c.1 < n := by
      intro c hc
      obtain ⟨cpu, hcpu, hc⟩ := mem_flatMap.1 hc
      obtain ⟨z, -, rfl⟩ := mem_map.1 hc
      exact ht.cpus ▸ mem_range.1 hcpu
    obtain ⟨htidy, hempty⟩ := hloop _ hcpus h ht hlone
    refine ⟨htidy, fun c z => hempty c z ?_⟩
    by_cases hc : c < n
    · exact .inr (ht.cpus ▸ mem_allPcps hc z)
    · exact .inl (ht.idle c z (Nat.not_lt.1 hc))
  · rw [if_pos (by simpa using hinit)]
    exact ⟨ht, fun c z => h.books.cached c z (by simpa using hinit)⟩

/-- Pages of a zone whose buddies are neither free nor among them. -/
def PhysState.Lonely (s : PhysState) (z : ZoneType) (l : List Pfn) : Prop :=
  ∀ q ∈ l, q ^^^ 1 ∉ s.lists (.area z 0) ∧ q ^^^ 1 ∉ l

/-- A page goes to a cache, and a batch goes back if there are too many. -/
theorem pcpFreePage_tidy (hcpu : cpu < n) (hn : n ≤ maxCpus) (h : Holding m s [(p, 0)] live M)
    (ht : Tidy n s) (hb : HasBlock m z p 0) (hinit : s.pcpInitialized = true)
    (howner : (s.pages p).owner = .allocated) (hlinked : (s.pages p).linked = false)
    (hlone : pcpHigh < (s.pcps cpu z).count + 1 →
      s.Lonely z ((p :: s.lists (.pcp cpu z)).take pcpBatch)) : Tidy n (s.pcpFreePage cpu p) := by
  obtain ⟨h', heq⟩ := pcpFreePage_eq (hcpu.trans_le hn) h hb hinit howner hlinked
  have ht1 : Tidy n (s.modifyPage p (·.setOwner .pcp)) := ht.congr rfl rfl
  have ht2 := ht1.pcpFree (z := z) (p := p) hcpu
  rw [heq]
  split
  · rename_i hhigh
    have hcount : (((s.modifyPage p (·.setOwner .pcp)).pcpFree cpu z p).pcps cpu z).count
        = (s.pcps cpu z).count + 1 := by
      simp [pcpFree, setPcp, modifyPage]
    have hlists : ((s.modifyPage p (·.setOwner .pcp)).pcpFree cpu z p).lists
        = update s.lists (.pcp cpu z) (p :: s.lists (.pcp cpu z)) :=
      (s.modifyPage p (·.setOwner .pcp)).lists_setPcp cpu z _
    have hne : Place.area z 0 ≠ .pcp cpu z := by simp
    refine drainToBuddy_tidy _ h' ht2 hcpu ?_
    rw [hlists, update_self, update_of_ne hne]
    exact hlone (hcount ▸ hhigh.1)
  · exact ht2

theorem freePages_tidy (hcpu : cpu < n) (hn : n ≤ maxCpus) (h : Holding m s [] live M)
    (ht : Tidy n s) (hb : HasBlock m z p o) (hp : (p, o) ∈ live)
    (hlone : o = 0 → s.pcpInitialized = true → (s.pages p).refcount = 1 →
      pcpHigh < (s.pcps cpu z).count + 1 →
      s.Lonely z ((p :: s.lists (.pcp cpu z)).take pcpBatch)) : Tidy n (s.freePages cpu p o) := by
  rcases freePages_cases h hp cpu with ⟨-, pages, heq, -⟩ | ⟨hone, pages, heq, ho, hl, h'⟩
  · rw [heq]
    exact ht.congr rfl rfl
  rw [heq, release]
  have horder : o < maxOrder := hb.order
  have ht' : Tidy n { s with pages := pages } := ht.congr rfl rfl
  split
  · rename_i hpcp
    obtain ⟨rfl, hinit⟩ := hpcp
    exact pcpFreePage_tidy hcpu hn h' ht' hb hinit ho hl (hlone rfl hinit hone)
  rcases hmerge : mergeUp z (maxOrder - 1 - o) p o { s with pages := pages }
    with ⟨p', o', s'⟩
  obtain ⟨-, -, ht1, hbuddy⟩ := mergeUp_spec (Tidy.stable n) _ h' hb ht' (by omega) hmerge
  simp only [h'.pfnToZone hb, hmerge]
  exact ht1.addToBuddy hbuddy

end Allocation

/-! ### Initialisation -/

section Initialisation

variable {pfn endPfn : ℕ}

theorem le_fitOrder {k j : ℕ} (hj : j ≤ k) (hdvd : 2 ^ j ∣ pfn)
    (hend : pfn + 2 ^ j ≤ endPfn) : j ≤ fitOrder pfn endPfn k := by
  induction k with
  | zero => exact hj
  | succ k ih =>
    rw [fitOrder]
    split
    · exact hj
    rename_i hfit
    refine ih (Nat.le_of_lt_succ (lt_of_le_of_ne hj ?_))
    rintro rfl
    exact hfit ⟨Nat.mod_eq_zero_of_dvd hdvd, hend⟩

/-- Blocks are cut off a range as large as possible, so that a block never meets
its buddy: the two would have been cut off as one. -/
theorem initLoop_tidy (fuel : ℕ) (ht : Tidy n s)
    (hcut : ∀ k : ℕ, ∀ q : ℕ, q ∈ s.lists (.area z k) →
      q < pfn ∧ fitOrder q endPfn (maxOrder - 1) = k) :
    Tidy n (initLoop z endPfn fuel pfn s) := by
  induction fuel generalizing s pfn with
  | zero => exact ht
  | succ fuel ih =>
    rw [initLoop]
    split
    · rename_i hlt
      obtain ⟨-, hdvd, hend⟩ := fitOrder_spec pfn endPfn (maxOrder - 1)
      have hend := hend hlt
      set o := fitOrder pfn endPfn (maxOrder - 1) with ho
      have hpos := Nat.two_pow_pos o
      have hpow : 2 ^ (o + 1) = 2 ^ o + 2 ^ o := by rw [pow_succ]; omega
      refine ih (ht.addToBuddy fun hsmall hbuddy => ?_) fun k q hq => ?_
      · obtain ⟨hbelow, hfit⟩ := hcut o _ hbuddy
        rcases xor_two_pow hdvd with ⟨-, heq⟩ | ⟨hdvd', heq⟩
        · omega
        · have hroom : (pfn ^^^ 2 ^ o) + 2 ^ (o + 1) ≤ endPfn := by omega
          have := le_fitOrder (show o + 1 ≤ maxOrder - 1 by omega) hdvd' hroom
          omega
      · rw [lists_addToBuddy] at hq
        by_cases heq : Place.area z k = .area z o
        · obtain ⟨-, rfl⟩ := Place.area.inj heq
          rw [update_self] at hq
          rcases mem_cons.1 hq with rfl | hq
          · exact ⟨by omega, rfl⟩
          · obtain ⟨hbelow, hfit⟩ := hcut _ q hq
            exact ⟨by omega, hfit⟩
        · rw [update_of_ne heq] at hq
          obtain ⟨hbelow, hfit⟩ := hcut k q hq
          exact ⟨by omega, hfit⟩
    · exact ht

end Initialisation

/-! ### What can be allocated -/

section Available

/-- A zone gives a block if it has one that is large enough. -/
theorem zoneAllocPages_isSome (h : Holding m s [] live M) (z : ZoneType) (gfp : GfpFlags) :
    (s.zoneAllocPages z o gfp).1.isSome ↔ ∃ k, o ≤ k ∧ k < maxOrder ∧ s.lists (.area z k) ≠ [] := by
  have hcount : ∀ k, ((s.zones z).freeArea k).nrFree = (s.lists (.area z k)).length :=
    (h.books.counted z).nrFree
  unfold zoneAllocPages
  cases hfind : findOrder (s.zones z) o with
  | none =>
    simp only [Option.isSome_none, Bool.false_eq_true, false_iff, not_exists]
    rintro k ⟨hk, hmax, hne⟩
    have hnone := find?_eq_none.1 hfind k (mem_range'_1.2 ⟨hk, by omega⟩)
    rw [decide_eq_true_eq, not_not, hcount, length_eq_zero_iff] at hnone
    exact hne hnone
  | some high =>
    have hmem := mem_of_find?_eq_some hfind
    have hfree := find?_some hfind
    rw [mem_range'_1] at hmem
    rw [decide_eq_true_eq, hcount, Ne, length_eq_zero_iff] at hfree
    refine iff_of_true ?_ ⟨high, hmem.1, by omega, hfree⟩
    simp only [expandAndAlloc]
    cases hlist : ((s.zones z).freeArea high).freeList with
    | nil => exact absurd hlist hfree
    | cons p rest =>
      obtain ⟨s1, hs1, -⟩ := h.removeFromBuddy (mem_lists_of_cons hlist)
      simp only [hs1, Option.isSome_some]

theorem zoneAllocPages_none (h : Holding m s [] live M) {gfp : GfpFlags}
    (hres : s.zoneAllocPages z o gfp = (none, s')) : s' = s := by
  unfold zoneAllocPages at hres
  cases hfind : findOrder (s.zones z) o with
  | none =>
    simp only [hfind] at hres
    exact (Prod.mk.inj hres).2.symm
  | some high =>
    simp only [hfind, expandAndAlloc] at hres
    cases hlist : ((s.zones z).freeArea high).freeList with
    | nil =>
      simp only [hlist] at hres
      exact (Prod.mk.inj hres).2.symm
    | cons p rest =>
      obtain ⟨s1, hs1, -⟩ := h.removeFromBuddy (mem_lists_of_cons hlist)
      simp only [hlist, hs1] at hres
      cases (Prod.mk.inj hres).1

theorem allocFrom_isSome (h : Holding m s [] live M) (gfp : GfpFlags) (zs : List ZoneType) :
    (allocFrom o gfp zs s).1.isSome ↔
      ∃ z ∈ zs, ∃ k, o ≤ k ∧ k < maxOrder ∧ s.lists (.area z k) ≠ [] := by
  induction zs with
  | nil => simp [allocFrom]
  | cons z zs ih =>
    have hhere := zoneAllocPages_isSome (o := o) h z gfp
    simp only [mem_cons, or_and_right, exists_or, exists_eq_left]
    rw [allocFrom]
    by_cases hinit : (s.zones z).initialized = true
    · rw [if_neg (by simpa using hinit)]
      have hzone := (zoneAllocPages_spec (z := z) (o := o) .trivial h .intro gfp).1
      rcases hres : s.zoneAllocPages z o gfp with ⟨_ | p, s'⟩
      · rw [hres] at hhere
        obtain rfl := zoneAllocPages_none h hres
        simp only [ih, or_iff_right (mt hhere.2 (by simp))]
      rw [hres] at hhere hzone
      obtain ⟨z', hb⟩ := Holding.liveBlock hzone _ mem_cons_self
      simp only [Holding.validPfn hzone hb, if_true]
      exact iff_of_true rfl (.inl (hhere.1 rfl))
    · rw [if_pos (by simpa using hinit), ih]
      refine (or_iff_right ?_).symm
      rintro ⟨k, -, -, hne⟩
      obtain ⟨p, hp⟩ := exists_mem_of_ne_nil _ hne
      exact hinit (h.contains (h.block (.area z k) p hp)).1

/-- An allocation succeeds if one of its zones has a block that is large enough. -/
theorem allocPages_isSome (h : Holding m s [] live M) (gfp : GfpFlags) :
    (s.allocPages o gfp).1.isSome ↔
      ∃ z ∈ gfpToZoneList gfp, ∃ k, o ≤ k ∧ k < maxOrder ∧ s.lists (.area z k) ≠ [] := by
  unfold allocPages
  have hno : ∀ {z k}, s.lists (.area z k) ≠ [] → s.maxPfn ≠ 0 := by
    intro z k hne hzero
    obtain ⟨p, hp⟩ := exists_mem_of_ne_nil _ hne
    have := (h.contains (h.block (.area z k) p hp)).2.2
    rw [h.books.maxPfn] at hzero
    omega
  split
  · rename_i hzero
    refine iff_of_false (by simp) ?_
    rintro ⟨z, -, k, -, -, hne⟩
    exact hno hne hzero
  split
  · rename_i horder
    refine iff_of_false (by simp) ?_
    rintro ⟨z, -, k, hk, hmax, -⟩
    omega
  · exact allocFrom_isSome h gfp _

end Available

end JanuaryOs.Phys

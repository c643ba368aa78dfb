import JanuaryOs.Alloc.Slub

/-!
# The geometry of slabs, and the chains through their objects

The objects of a slab tile its block, so an address inside the block leads back
to the block's first frame by rounding down. A new slab is one chain through all
its objects in order (`threadObjects_spec`).
-/

namespace JanuaryOs.Alloc

open Lib Phys List

/-! ### Sizes -/

/-- What the caches look like. -/
structure CacheShape (c : ℕ) : Prop where
  tiles : cacheObjects c * cacheSize c = 2 ^ cacheOrder c * pageSize
  many : 4 ≤ cacheObjects c
  few : cacheObjects c ≤ maxObjsPerSlab
  size : 8 ≤ cacheSize c
  aligned : 8 ∣ cacheSize c
  order : cacheOrder c < maxOrder

variable {c start x y : ℕ}

theorem cacheShape (hc : c < kmallocNumCaches) : CacheShape c := by
  have h : ∀ c < kmallocNumCaches, cacheObjects c * cacheSize c = 2 ^ cacheOrder c * pageSize ∧
      4 ≤ cacheObjects c ∧ cacheObjects c ≤ maxObjsPerSlab ∧ 8 ≤ cacheSize c ∧ 8 ∣ cacheSize c ∧
      cacheOrder c < maxOrder := by decide
  obtain ⟨h1, h2, h3, h4, h5, h6⟩ := h c hc
  exact ⟨h1, h2, h3, h4, h5, h6⟩

theorem findKmallocCache_spec {size : ℕ} (h : findKmallocCache size = some c) :
    c < kmallocNumCaches ∧ size ≤ cacheSize c := by
  unfold findKmallocCache at h
  split at h
  · cases h
  have hroom := le_two_pow_getOrder (max size (2 ^ kmallocShiftLow))
  have hlow : 2 ^ kmallocShiftLow ≤ max size (2 ^ kmallocShiftLow) := le_max_right _ _
  simp only at h
  generalize getOrder (max size (2 ^ kmallocShiftLow)) = index at h hroom
  split at h
  · -- eight bytes are never that small
    rename_i hindex
    have hpow : 2 ^ index < 2 ^ kmallocShiftLow := Nat.pow_lt_pow_right (by decide) hindex
    omega
  split at h
  · cases h
  rename_i hindex hmax
  cases h
  refine ⟨by omega, ?_⟩
  rw [cacheSize, Nat.add_sub_cancel' (by omega)]
  exact (le_max_left _ _).trans hroom

/-! ### Objects -/

theorem mem_objectsAt : x ∈ Slub.objectsAt c start ↔
    ∃ i < cacheObjects c, start + i * cacheSize c = x := by
  simp [Slub.objectsAt]

theorem objectsAt_within (hc : c < kmallocNumCaches) (hx : x ∈ Slub.objectsAt c start) :
    start ≤ x ∧ x + cacheSize c ≤ start + 2 ^ cacheOrder c * pageSize := by
  obtain ⟨i, hi, rfl⟩ := mem_objectsAt.1 hx
  have hle := Nat.mul_le_mul_right (cacheSize c) (Nat.succ_le_of_lt hi)
  rw [(cacheShape hc).tiles, Nat.succ_mul] at hle
  omega

theorem objectsAt_aligned (hc : c < kmallocNumCaches) (hstart : 8 ∣ start)
    (hx : x ∈ Slub.objectsAt c start) : 8 ∣ x := by
  obtain ⟨i, -, rfl⟩ := mem_objectsAt.1 hx
  exact Nat.dvd_add hstart (Dvd.dvd.mul_left (cacheShape hc).aligned i)

theorem objectsAt_disjoint (hx : x ∈ Slub.objectsAt c start) (hy : y ∈ Slub.objectsAt c start)
    (hne : x ≠ y) : x + cacheSize c ≤ y ∨ y + cacheSize c ≤ x := by
  obtain ⟨i, -, rfl⟩ := mem_objectsAt.1 hx
  obtain ⟨j, -, rfl⟩ := mem_objectsAt.1 hy
  rcases Nat.lt_trichotomy i j with hij | rfl | hij
  · have := Nat.mul_le_mul_right (cacheSize c) (Nat.succ_le_of_lt hij)
    rw [Nat.succ_mul] at this
    omega
  · exact absurd rfl hne
  · have := Nat.mul_le_mul_right (cacheSize c) (Nat.succ_le_of_lt hij)
    rw [Nat.succ_mul] at this
    omega

theorem objectsAt_nodup (start : ℕ) (hc : c < kmallocNumCaches) :
    (Slub.objectsAt c start).Nodup := by
  have hsize := (cacheShape hc).size
  refine (nodup_range).map fun i j hij => ?_
  have : i * cacheSize c = j * cacheSize c := by simpa using hij
  exact Nat.eq_of_mul_eq_mul_right (by omega) this

theorem objectsAt_length : (Slub.objectsAt c start).length = cacheObjects c := by
  simp [Slub.objectsAt]

/-! ### Chains through objects -/

theorem ofPtr_of_ne {ptr : ℕ} (h : ptr ≠ 0) : Slub.ofPtr ptr = some ptr := if_neg h

theorem ofPtr_eq_some {ptr : ℕ} (h : Slub.ofPtr ptr = some x) : ptr = x ∧ x ≠ 0 := by
  unfold Slub.ofPtr at h
  split at h
  · cases h
  · cases h
    exact ⟨rfl, ‹_›⟩

theorem nextFree_eq (mem : ByteMem) (obj : ℕ) :
    Slub.nextFree mem obj = Slub.ofPtr (mem.load obj) := rfl

/-- Chaining objects whose words do not overlap makes a chain of them, and
writes to nothing but these words. -/
theorem threadObjects_spec (mem : ByteMem) {objs : List ℕ}
    (hpair : objs.Pairwise fun x y => x + 8 ≤ y) (hpos : ∀ x ∈ objs, x ≠ 0 ∧ x < 2 ^ 64) :
    Chain (Slub.nextFree (Slub.threadObjects mem objs).1)
        (Slub.ofPtr (Slub.threadObjects mem objs).2) objs ∧
      (Slub.threadObjects mem objs).2 < 2 ^ 64 ∧
      ∀ x, (∀ obj ∈ objs, ¬ Span.Has ⟨obj, obj + 8⟩ x) →
        (Slub.threadObjects mem objs).1 x = mem x := by
  induction objs with
  | nil => exact ⟨rfl, by simp [Slub.threadObjects], fun _ _ => rfl⟩
  | cons obj objs ih =>
    rw [pairwise_cons] at hpair
    rw [forall_mem_cons] at hpos
    obtain ⟨hchain, hlt, hsame⟩ := ih hpair.2 hpos.2
    rw [Slub.threadObjects]
    generalize Slub.threadObjects mem objs = res at hchain hlt hsame
    refine ⟨⟨ofPtr_of_ne hpos.1.1, ?_⟩, hpos.1.2, fun x hx => ?_⟩
    · rw [nextFree_eq, ByteMem.load_store hlt]
      refine hchain.congr fun x hx => ?_
      rw [nextFree_eq, nextFree_eq, ByteMem.load_store_of_disjoint (.inr (hpair.1 x hx))]
    · rw [forall_mem_cons] at hx
      exact (ByteMem.store_of_not_has hx.1).trans (hsame x hx.2)

theorem objectsAt_pairwise (hc : c < kmallocNumCaches) :
    (Slub.objectsAt c start).Pairwise fun x y => x + 8 ≤ y := by
  have hsize := (cacheShape hc).size
  refine pairwise_map.2 (pairwise_lt_range.imp fun hij => ?_)
  have := Nat.mul_le_mul_right (cacheSize c) (Nat.succ_le_of_lt hij)
  rw [Nat.succ_mul] at this
  omega

/-! ### From an address back to its block -/

section Address

variable {s : Slub} {pb : ℕ × ℕ}

theorem maxPhys_eq (map : DirectMap) : map.maxPhys = map.maxPfn * pageSize := by
  have hpos := map.pos
  have hfits := map.fits
  simp only [DirectMap.maxPhys, satMul, u64Max]
  omega

theorem virtToPhysDirectMap_eq (h : s.pages.Inv s.map.maxPfn) (hpb : pb ∈ s.pages.live)
    (hx : (s.map.span pb).Has x) :
    s.virtToPhysDirectMap x = some (x - s.map.offset) ∧
      pb.1 ≤ (x - s.map.offset) / pageSize ∧ (x - s.map.offset) / pageSize < pb.1 + 2 ^ pb.2 := by
  have hspan := live_span h hpb
  have hlow := hx.1
  have hhigh := hx.2
  have hstart : (s.map.span pb).start = s.map.offset + pb.1 * pageSize := rfl
  have hstop : (s.map.span pb).stop = s.map.offset + (pb.1 + 2 ^ pb.2) * pageSize := rfl
  refine ⟨?_, ?_, ?_⟩
  · rw [Slub.virtToPhysDirectMap, maxPhys_eq, if_neg (by omega), if_neg (by omega)]
  · rw [Nat.le_div_iff_mul_le (by decide)]
    omega
  · rw [Nat.div_lt_iff_lt_mul (by decide)]
    omega

theorem slabHead_eq {pfn q : ℕ} (hdvd : 2 ^ cacheOrder c ∣ pfn) (h1 : pfn ≤ q)
    (h2 : q < pfn + 2 ^ cacheOrder c) : Slub.slabHead c q = pfn := by
  obtain ⟨k, rfl⟩ := hdvd
  have hdiv : q / 2 ^ cacheOrder c = k := by
    refine Nat.div_eq_of_lt_le ?_ ?_
    · rwa [Nat.mul_comm]
    · rw [Nat.succ_mul, Nat.mul_comm]
      exact h2
  rw [Slub.slabHead, hdiv, Nat.mul_comm]

end Address

end JanuaryOs.Alloc

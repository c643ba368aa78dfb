import JanuaryOs.Lib.SpanSet
import JanuaryOs.Lib.Trace
import JanuaryOs.Phys.Memblock

/-!
# A list of regions is a set of addresses

The regions are kept separated, with gaps between them, so that the list is
determined by the set; adding a range is union and removing one is difference.
The counter of bytes is updated in steps that may wrap for a moment, when a
region has grown over others that are still there. It is therefore followed
modulo `2 ^ 64`, and is exact in the end because the addresses are 64 bits.
-/

namespace JanuaryOs.Phys

open Lib List

/-! ### Valid lists -/

def MemblockRegion.span (r : MemblockRegion) : Span := ⟨r.base, r.base + r.size⟩

variable {S : ℕ → Prop}

namespace Memblock

variable (l : List MemblockRegion)

def spans : List Span := l.map (·.span)

def sizes : ℕ := (l.map (·.size)).sum

/-- Separated regions, with addresses of 64 bits. -/
def Valid : Prop :=
  Separated (spans l) ∧ ∀ r ∈ l, r.base + r.size < 2 ^ 64

/-- All regions start behind an address. -/
def Above (lo : ℕ) (l : List MemblockRegion) : Prop := ∀ r ∈ l, lo < r.base

variable {base size stop lo max cnt total x : ℕ} {r cur : MemblockRegion} {l : List MemblockRegion}

theorem valid_nil : Valid [] := ⟨separated_nil, nofun⟩

theorem valid_cons :
    Valid (r :: l) ↔
      0 < r.size ∧ r.base + r.size < 2 ^ 64 ∧ Above (r.base + r.size) l ∧ Valid l := by
  simp only [Valid, spans, map_cons, separated_cons, forall_mem_cons,
    forall_mem_map, MemblockRegion.span, Above]
  constructor
  · rintro ⟨⟨h1, h2, h3⟩, h4, h5⟩
    exact ⟨by omega, h4, h2, h3, h5⟩
  · rintro ⟨h1, h2, h3, h4, h5⟩
    exact ⟨⟨by omega, h3, h4⟩, h2, h5⟩

theorem valid_append {l1 l2 : List MemblockRegion} :
    Valid (l1 ++ l2) ↔ Valid l1 ∧ Valid l2 ∧ ∀ r ∈ l1, Above (r.base + r.size) l2 := by
  simp only [Valid, spans, map_append, separated_append, forall_mem_append,
    forall_mem_map, MemblockRegion.span, Above]
  exact ⟨fun h => ⟨⟨h.1.1, h.2.1⟩, ⟨h.1.2.1, h.2.2⟩, h.1.2.2⟩,
    fun h => ⟨⟨h.1.1, h.2.1.1, h.2.2⟩, h.1.2, h.2.1.2⟩⟩

theorem stop_eq (h : r.base + r.size < 2 ^ 64) : r.stop = r.base + r.size := Nat.mod_eq_of_lt h

theorem Above.mono {lo' : ℕ} (h : Above lo l) (hle : lo' ≤ lo) : Above lo' l :=
  fun r hr => hle.trans_lt (h r hr)

theorem covered_spans_cons :
    Covered (spans (r :: l)) x ↔ (r.base ≤ x ∧ x < r.base + r.size) ∨ Covered (spans l) x := by
  rw [spans, map_cons, covered_cons]
  rfl

theorem sizes_cons : sizes (r :: l) = r.size + sizes l := rfl

theorem Valid.sizes_lt (h : Valid l) : sizes l < 2 ^ 64 := by
  have hbelow : ∀ s ∈ spans l, s.stop ≤ 2 ^ 64 - 1 := by
    intro s hs
    obtain ⟨r, hr, rfl⟩ := mem_map.1 hs
    have := h.2 r hr
    simp only [MemblockRegion.span]
    omega
  have hsum := h.1.sum_le (fun s _ => Nat.zero_le s.start) hbelow (Nat.zero_le _)
  have heq : ((spans l).map fun s => s.stop - s.start) = l.map (·.size) := by
    rw [spans, map_map]
    refine map_congr_left fun r _ => ?_
    simp [MemblockRegion.span]
  rw [heq] at hsum
  exact Nat.lt_of_le_of_lt hsum (by decide)

/-! ### Adding a range -/

/-- What an edit must come to: the addresses, and the bytes up to a multiple of
`2 ^ 64`, next to those the loop has passed. -/
structure Becomes (passed : ℕ) (S : ℕ → Prop) (res : List MemblockRegion × ℕ) : Prop where
  valid : Valid res.1
  covered : ∀ x, Covered (spans res.1) x ↔ S x
  total : res.2 = (passed + sizes res.1) % 2 ^ 64

variable {k passed : ℕ} {res : List MemblockRegion × ℕ}

theorem Becomes.cons (h : Becomes (passed + r.size) S res) (hpos : 0 < r.size)
    (hfits : r.base + r.size < 2 ^ 64) (habove : Above (r.base + r.size) res.1) :
    Becomes passed (fun x => (r.base ≤ x ∧ x < r.base + r.size) ∨ S x) (r :: res.1, res.2) where
  valid := valid_cons.2 ⟨hpos, hfits, habove, h.valid⟩
  covered x := by rw [covered_spans_cons, h.covered]
  total := by
    rw [h.total, sizes_cons, Nat.add_assoc]

theorem Becomes.congr {T : ℕ → Prop} (h : Becomes passed S res) (hST : ∀ x, S x ↔ T x) :
    Becomes passed T res :=
  ⟨h.valid, fun x => (h.covered x).trans (hST x), h.total⟩

theorem mergeAdjacent_spec (hpos : 0 < cur.size) (hfits : cur.base + cur.size < 2 ^ 64)
    (habove : Above cur.base l) (hl : Valid l)
    (htotal : total = (passed + cur.size + sizes l) % 2 ^ 64) :
    Becomes passed (fun x => (cur.base ≤ x ∧ x < cur.base + cur.size) ∨ Covered (spans l) x)
        (mergeAdjacent total cur l) ∧
      (∀ lo < cur.base, Above lo (mergeAdjacent total cur l).1) ∧
      (mergeAdjacent total cur l).1.length ≤ l.length + 1 := by
  induction l generalizing cur total passed with
  | nil =>
    refine ⟨⟨valid_cons.2 ⟨hpos, hfits, nofun, valid_nil⟩, fun x => covered_spans_cons, ?_⟩, ?_,
      le_rfl⟩
    · exact htotal
    · intro lo hlo r hr
      obtain rfl := mem_singleton.1 hr
      exact hlo
  | cons next rest ih =>
    obtain ⟨hpos', hfits', habove', hrest⟩ := valid_cons.1 hl
    have hnext := habove next mem_cons_self
    rw [sizes_cons] at htotal
    rw [mergeAdjacent, stop_eq hfits, stop_eq hfits']
    split
    · -- the region grows over the next one
      have hsize : u64Sub (max (cur.base + cur.size) (next.base + next.size)) cur.base
          = max (cur.base + cur.size) (next.base + next.size) - cur.base := by
        unfold u64Sub
        omega
      simp only [hsize]
      generalize hmerged : max (cur.base + cur.size) (next.base + next.size) - cur.base = merged
      have hsum : u64Add (u64Sub total (u64Add cur.size next.size)) merged
          = (passed + merged + sizes rest) % 2 ^ 64 := by
        simp only [u64Add, u64Sub]
        omega
      have hgrown : 0 < ({ cur with size := merged } : MemblockRegion).size := by
        simp only
        omega
      obtain ⟨hres, hlow, hlen⟩ := ih hgrown (by simp only; omega)
        (habove'.mono (by simp only; omega)) hrest hsum
      refine ⟨hres.congr fun x => ?_, hlow, hlen.trans (Nat.le_succ _)⟩
      rw [covered_spans_cons, ← or_assoc]
      refine or_congr_left ?_
      simp only
      omega
    · -- the regions stay apart
      have hsum : total = (passed + cur.size + next.size + sizes rest) % 2 ^ 64 := by omega
      obtain ⟨hres, hlow, hlen⟩ := ih hpos' hfits' (habove'.mono (Nat.le_add_right _ _)) hrest hsum
      refine ⟨(hres.cons hpos hfits (hlow _ (by omega))).congr fun x => ?_, fun lo hlo => ?_,
        Nat.succ_le_succ hlen⟩
      · rw [covered_spans_cons]
      · exact forall_mem_cons.2 ⟨hlo, hlow lo (by omega)⟩

/-- If some region touches the range, the range is merged into the list. -/
theorem mergeLoop_spec (hpos : base < stop) (hfits : stop < 2 ^ 64) (hl : Valid l)
    (hmeets : ∃ r ∈ l, Meets base stop r) (htotal : total = (passed + sizes l) % 2 ^ 64) :
    ∃ res, mergeLoop base stop total l = some res ∧
      Becomes passed (fun x => Covered (spans l) x ∨ (base ≤ x ∧ x < stop)) res ∧
      (∀ lo < base, Above lo l → Above lo res.1) ∧ res.1.length ≤ l.length := by
  induction l generalizing passed with
  | nil =>
    obtain ⟨r, hr, -⟩ := hmeets
    cases hr
  | cons r rs ih =>
    obtain ⟨hpos', hfits', habove, hrs⟩ := valid_cons.1 hl
    rw [sizes_cons] at htotal
    rw [mergeLoop]
    by_cases hr : Meets base stop r
    · rw [if_pos hr]
      have hr' := hr
      simp only [Meets, stop_eq hfits'] at hr' ⊢
      generalize hmerged : max (r.base + r.size) stop - min r.base base = merged
      have hsum : u64Add (u64Sub total r.size) merged
          = (passed + merged + sizes rs) % 2 ^ 64 := by
        simp only [u64Add, u64Sub]
        omega
      have hgrown : 0 < (⟨min r.base base, merged, r.flags⟩ : MemblockRegion).size := by
        simp only
        omega
      obtain ⟨hres, hlow, hlen⟩ := mergeAdjacent_spec hgrown (by simp only; omega)
        (habove.mono (by simp only; omega)) hrs hsum
      refine ⟨_, rfl, hres.congr fun x => ?_, fun lo hlo hrl => ?_, hlen⟩
      · rw [covered_spans_cons, or_right_comm]
        refine or_congr_left ?_
        simp only
        omega
      · have := hrl r mem_cons_self
        exact hlow lo (by simp only; omega)
    · rw [if_neg hr]
      -- the region that touches the range comes later, so this one ends before the range
      have hlater : ∃ r ∈ rs, Meets base stop r := by
        obtain ⟨r', hr', hm⟩ := hmeets
        rcases mem_cons.1 hr' with rfl | hr'
        · exact absurd hm hr
        · exact ⟨r', hr', hm⟩
      have hbefore : r.base + r.size < base := by
        obtain ⟨r', hr', hm⟩ := hlater
        have h1 := habove r' hr'
        have h2 := hm.1
        simp only [Meets, stop_eq hfits'] at hr
        omega
      have hsum : total = (passed + r.size + sizes rs) % 2 ^ 64 := by omega
      obtain ⟨res, hres, hbecomes, hlow, hlen⟩ := ih hrs hlater hsum
      refine ⟨_, by rw [hres]; rfl, (hbecomes.cons hpos' hfits' ?_).congr fun x => ?_, ?_,
        Nat.succ_le_succ hlen⟩
      · exact hlow _ hbefore habove
      · rw [covered_spans_cons, or_assoc]
      · intro lo hlo hrl
        exact forall_mem_cons.2 ⟨hrl r mem_cons_self,
          hlow lo hlo fun r' hr' => hrl r' (mem_cons_of_mem _ hr')⟩

/-- The range is inserted where the regions in front end before it and those
behind start after it. -/
theorem findSlot_spec {i : ℕ} (hpos : base < stop) (hl : Valid l)
    (h : findSlot base stop l k = some i) :
    ∃ front back, l = front ++ back ∧ i = k + front.length ∧
      (∀ r ∈ front, r.base + r.size < base) ∧ Above stop back := by
  induction l generalizing k with
  | nil =>
    obtain rfl := Option.some.inj h
    exact ⟨[], [], rfl, rfl, nofun, nofun⟩
  | cons r rs ih =>
    obtain ⟨hpos', hfits', habove, hrs⟩ := valid_cons.1 hl
    rw [findSlot] at h
    split at h
    · cases h
    rename_i hmeets
    simp only [Meets, stop_eq hfits'] at hmeets
    split at h
    · obtain rfl := Option.some.inj h
      refine ⟨[], r :: rs, rfl, rfl, nofun, forall_mem_cons.2 ⟨by omega, ?_⟩⟩
      exact habove.mono (by omega)
    obtain ⟨front, back, rfl, rfl, hfront, hback⟩ := ih hrs h
    refine ⟨r :: front, back, rfl, ?_, forall_mem_cons.2 ⟨by omega, hfront⟩, hback⟩
    rw [length_cons]
    omega

theorem insertIdx_length_append (front back : List MemblockRegion) :
    (front ++ back).insertIdx front.length r = front ++ r :: back := by
  induction front with
  | nil => rfl
  | cons a front ih =>
    rw [cons_append, length_cons, insertIdx_succ_cons, ih, cons_append]

theorem insert_spec {front back : List MemblockRegion} (hl : Valid (front ++ back))
    (hpos : 0 < r.size) (hfits : r.base + r.size < 2 ^ 64)
    (hfront : ∀ a ∈ front, a.base + a.size < r.base) (hback : Above (r.base + r.size) back) :
    Becomes 0 (fun x => Covered (spans (front ++ back)) x ∨ (r.base ≤ x ∧ x < r.base + r.size))
      (front ++ r :: back, u64Add (sizes (front ++ back)) r.size) := by
  obtain ⟨h1, h2, h3⟩ := valid_append.1 hl
  have hnew := valid_cons.2 ⟨hpos, hfits, hback, h2⟩
  refine ⟨valid_append.2 ⟨h1, hnew, fun a ha => ?_⟩, fun x => ?_, ?_⟩
  · exact forall_mem_cons.2 ⟨hfront a ha, h3 a ha⟩
  · simp only [spans, map_append, covered_append, map_cons, covered_cons, or_assoc]
    refine or_congr_right or_comm
  · simp only [sizes, map_append, sum_append, map_cons, sum_cons, u64Add]
    omega

theorem findSlot_none (h : findSlot base stop l k = none) : ∃ r ∈ l, Meets base stop r := by
  induction l generalizing k with
  | nil => cases h
  | cons r rs ih =>
    rw [findSlot] at h
    split at h
    · exact ⟨r, mem_cons_self, ‹_›⟩
    split at h
    · cases h
    · obtain ⟨r', hr', hm⟩ := ih h
      exact ⟨r', mem_cons_of_mem _ hr', hm⟩

/-! ### Removing a range -/

/-- What a round of the loop leaves of a region, with the count and the total
after it. -/
structure Trims (base stop max : ℕ) (r : MemblockRegion) (cnt total : ℕ)
    (pieces : List MemblockRegion) (cnt' total' : ℕ) : Prop where
  valid : Valid pieces
  covered : ∀ x, Covered (spans pieces) x ↔
    (r.base ≤ x ∧ x < r.base + r.size) ∧ ¬ (base ≤ x ∧ x < stop)
  within : ∀ p ∈ pieces, r.base ≤ p.base ∧ p.base + p.size ≤ r.base + r.size
  counted : cnt' + 1 = cnt + pieces.length ∧ (cnt ≤ max → cnt' ≤ max)
  sized : ∀ t, total = (t + r.size) % 2 ^ 64 → total' = (t + sizes pieces) % 2 ^ 64
  /-- A region that ends before the range stays as it is. -/
  kept : (pieces = [r] ∧ total' = total) ∨ base < r.base + r.size

/-- A region is trimmed, or there is no room for the second part of it. -/
theorem removeLoop_cons (hstop : stop = base + size) (hpos : 0 < size) (hr : 0 < r.size)
    (hfits : r.base + r.size < 2 ^ 64) (hcnt : 0 < cnt) (max total : ℕ) (rs : List MemblockRegion) :
    (∃ pieces cnt' total', Trims base stop max r cnt total pieces cnt' total' ∧
      removeLoop base size stop max cnt total (r :: rs) =
        let res := removeLoop base size stop max cnt' total' rs
        (res.1, pieces ++ res.2.1, res.2.2)) ∨
    r.base < base ∧
      removeLoop base size stop max cnt total (r :: rs) = (.error .noMemory, r :: rs, total) := by
  rw [removeLoop, stop_eq hfits]
  split_ifs
  on_goal 3 => exact .inr ⟨by omega, rfl⟩
  all_goals left
  -- the region stays, goes, gets a hole, loses its front or loses its back
  on_goal 1 => refine ⟨[r], cnt, total, ?_, rfl⟩
  on_goal 2 => refine ⟨[], cnt - 1, _, ?_, rfl⟩
  on_goal 3 => refine ⟨[_, _], cnt + 1, _, ?_, rfl⟩
  on_goal 4 => refine ⟨[_], cnt, _, ?_, rfl⟩
  on_goal 5 => refine ⟨[_], cnt, _, ?_, rfl⟩
  all_goals
    refine ⟨?_, fun x => ?_, ?_, ?_, fun t ht => ?_, ?_⟩ <;>
      simp [valid_cons, valid_nil, Above, spans, covered_cons, not_covered_nil, Span.Has,
        MemblockRegion.span, sizes, u64Sub] <;>
      omega

theorem removeLoop_spec (hstop : stop = base + size) (hpos : 0 < size) (hl : Valid l)
    (htotal : total = (passed + sizes l) % 2 ^ 64) (hcnt : cnt = k + l.length) (hle : cnt ≤ max) :
    let res := removeLoop base size stop max cnt total l
    k + res.2.1.length ≤ max ∧ (∀ lo, Above lo l → Above lo res.2.1) ∧
      (res.1 = .ok () →
        Becomes passed (fun x => Covered (spans l) x ∧ ¬ (base ≤ x ∧ x < stop)) res.2) ∧
      (res.1 ≠ .ok () → (∃ r ∈ l, r.base < base) ∧ res.2 = (l, total)) := by
  induction l generalizing cnt total passed k with
  | nil =>
    refine ⟨hcnt ▸ hle, fun _ h => h, fun _ => ⟨valid_nil, fun x => ?_, htotal⟩,
      fun h => absurd rfl h⟩
    exact (and_iff_left_of_imp fun h => absurd h (not_covered_nil x)).symm
  | cons r rs ih =>
    obtain ⟨hr, hfits, habove, hrs⟩ := valid_cons.1 hl
    rw [sizes_cons] at htotal
    rw [length_cons] at hcnt
    rcases removeLoop_cons hstop hpos hr hfits (show 0 < cnt by omega) max total rs with
      ⟨pieces, cnt', total', htrim, heq⟩ | ⟨hhole, heq⟩
    swap
    · rw [heq]
      exact ⟨by rw [length_cons]; omega, fun _ h => h, nofun,
        fun _ => ⟨⟨r, mem_cons_self, hhole⟩, rfl⟩⟩
    have hsum : total' = (passed + sizes pieces + sizes rs) % 2 ^ 64 := by
      rw [htrim.sized (passed + sizes rs) (by omega), Nat.add_right_comm]
    have hcount : cnt' = k + pieces.length + rs.length := by
      have := htrim.counted.1
      omega
    obtain ⟨hlen, hlow, hok, herr⟩ := ih hrs hsum hcount (htrim.counted.2 hle)
    rw [heq]
    generalize removeLoop base size stop max cnt' total' rs = res at hlen hlow hok herr ⊢
    simp only
    refine ⟨by rw [length_append]; omega, fun lo hlo => ?_, fun h => ?_, fun h => ?_⟩
    · obtain ⟨hr, hrs⟩ := forall_mem_cons.1 hlo
      exact forall_mem_append.2 ⟨fun p hp => hr.trans_le (htrim.within p hp).1, hlow lo hrs⟩
    · have hres := hok h
      refine ⟨valid_append.2 ⟨htrim.valid, hres.valid, fun p hp =>
        hlow _ (habove.mono (htrim.within p hp).2)⟩, fun x => ?_, ?_⟩
      · rw [spans, map_append, covered_append, ← spans, ← spans, htrim.covered, hres.covered,
          covered_spans_cons, or_and_right]
      · simp only [hres.total, sizes, map_append, sum_append, Nat.add_assoc]
    · -- behind a region that has been trimmed no hole is made
      obtain ⟨⟨r', hr', hlt⟩, hsame⟩ := herr h
      rcases htrim.kept with ⟨rfl, rfl⟩ | hbehind
      · rw [hsame]
        exact ⟨⟨r', mem_cons_of_mem _ hr', hlt⟩, rfl⟩
      · have := habove r' hr'
        omega

end Memblock

/-! ### Lists of regions as sets -/

namespace MemblockType

open Memblock

/-- The addresses of the list. -/
def Contains (t : MemblockType) (x : ℕ) : Prop := Covered (spans t.regions) x

/-- What every call keeps: the regions are separated, their bytes are counted,
and they fit into the array. -/
structure Inv (t : MemblockType) : Prop where
  valid : Valid t.regions
  total : t.totalSize = sizes t.regions
  count : t.regions.length ≤ t.max

variable {t : MemblockType} {base size : ℕ}

theorem inv_new (max : ℕ) (room : max ≤ memblockRegionsMax) : (new max room).Inv :=
  ⟨valid_nil, rfl, Nat.zero_le _⟩

theorem Inv.total_mod (h : t.Inv) : t.totalSize = (0 + sizes t.regions) % 2 ^ 64 := by
  rw [h.total, Nat.zero_add, Nat.mod_eq_of_lt h.valid.sizes_lt]

/-- An edit that comes to the right addresses keeps the invariant. -/
theorem Inv.of_becomes {regions : List MemblockRegion} {total : ℕ}
    (h : Becomes 0 S (regions, total)) (hcount : regions.length ≤ t.max) :
    Inv { t with regions := regions, totalSize := total } where
  valid := h.valid
  total := by
    have := h.total
    rwa [Nat.zero_add, Nat.mod_eq_of_lt h.valid.sizes_lt] at this
  count := hcount

/-- What a call that edits a list may do: succeed with the new set, or fail and
change nothing. -/
def Edits (t : MemblockType) (S : ℕ → Prop) (res : Except KernelError Unit × MemblockType) : Prop :=
  res.2.Inv ∧ res.2.max = t.max ∧ (res.1 = .ok () → ∀ x, res.2.Contains x ↔ S x) ∧
    (res.1 ≠ .ok () → res.2 = t)

theorem Edits.refl_error (h : t.Inv) (e : KernelError) : t.Edits S (.error e, t) :=
  ⟨h, rfl, nofun, fun _ => rfl⟩

theorem mergeRegions_spec (h : t.Inv) (hpos : 0 < size) (hfits : base + size < 2 ^ 64)
    (hmeets : ∃ r ∈ t.regions, Meets base (base + size) r) :
    t.Edits (fun x => t.Contains x ∨ (base ≤ x ∧ x < base + size)) (t.mergeRegions base size) := by
  have hstop : u64Add base size = base + size := Nat.mod_eq_of_lt hfits
  obtain ⟨⟨regions, total⟩, hres, hbecomes, -, hlen⟩ :=
    mergeLoop_spec (by omega) hfits h.valid hmeets h.total_mod
  rw [mergeRegions, hstop, hres]
  exact ⟨.of_becomes hbecomes (hlen.trans h.count), rfl,
    fun _ x => hbecomes.covered x, fun hne => absurd rfl hne⟩

/-- `memblock_add_range` is union. -/
theorem addRange_spec (h : t.Inv) (base size : ℕ) (flags : MemblockFlags) :
    t.Edits (fun x => t.Contains x ∨ (base ≤ x ∧ x < base + size))
      (t.addRange base size flags) := by
  rw [addRange]
  split
  · refine ⟨h, rfl, fun _ x => (or_iff_left ?_).symm, fun hne => absurd rfl hne⟩
    omega
  rename_i hsize
  cases hadd : checkedAdd base size with
  | none => exact .refl_error h _
  | some stop =>
    obtain ⟨rfl, hfits⟩ := checkedAdd_eq_some.1 hadd
    simp only
    cases hslot : findSlot base (base + size) t.regions 0 with
    | none => exact mergeRegions_spec h (by omega) hfits (findSlot_none hslot)
    | some i =>
      simp only
      split
      · exact .refl_error h _
      obtain ⟨front, back, hl, hi, hfront, hback⟩ :=
        findSlot_spec (by omega) h.valid hslot
      have hvalid := h.valid
      rw [hl] at hvalid
      have hpos : 0 < (⟨base, size, flags⟩ : MemblockRegion).size := by
        simp only
        omega
      have hbecomes := insert_spec hvalid hpos hfits hfront hback
      rw [← hl, ← h.total, ← insertIdx_length_append, ← hl, ← Nat.zero_add front.length,
        ← hi] at hbecomes
      refine ⟨.of_becomes hbecomes ?_, rfl, fun _ => hbecomes.covered, ?_⟩
      swap
      · exact fun hne => absurd rfl hne
      exact length_insertIdx_le_succ.trans (by omega)

/-- `memblock_remove_range` is difference. -/
theorem removeRange_spec (h : t.Inv) (hfits : base + size < 2 ^ 64) :
    t.Edits (fun x => t.Contains x ∧ ¬ (base ≤ x ∧ x < base + size)) (t.removeRange base size) := by
  rw [removeRange]
  split
  · refine ⟨h, rfl, fun _ x => (and_iff_left ?_).symm, fun hne => absurd rfl hne⟩
    omega
  have hstop : u64Add base size = base + size := Nat.mod_eq_of_lt hfits
  rw [hstop]
  obtain ⟨hcount, -, hok, herr⟩ := removeLoop_spec (rfl : base + size = _)
    (show 0 < size by omega) h.valid h.total_mod (Nat.zero_add _).symm h.count
  generalize removeLoop base size _ t.max _ t.totalSize t.regions = res at hcount hok herr ⊢
  by_cases hres : res.1 = .ok ()
  · rw [Nat.zero_add] at hcount
    have hbecomes := hok hres
    exact ⟨.of_becomes hbecomes hcount, rfl, fun _ => hbecomes.covered, fun hne => absurd hres hne⟩
  obtain ⟨-, hsame⟩ := herr hres
  simp only [hsame]
  exact ⟨h, rfl, fun h' => absurd h' hres, fun _ => rfl⟩

end MemblockType

/-! ### Free regions -/

variable (mb : Memblock)

namespace Memblock

section Walk

variable {σ : Type} (g : σ → ℕ → ℕ → σ) {l : List MemblockRegion}

/-- Hand the parts of the memory to a callback. -/
def report (s : σ) (a : Span) : σ := g s a.start (a.stop - a.start)

/-- The walk over the reserved regions reports what they leave, but for the last
part. -/
theorem walkReserved_spec (memEnd : ℕ) (hl : Valid l) (current : ℕ) (s : σ) :
    ∃ current' s', walkReserved (fun s b n => (g s b n, true)) memEnd l current s
        = .at current' s' ∧
      (if current' < memEnd then g s' current' (memEnd - current') else s')
        = (holes memEnd (spans l) current).foldl (report g) s := by
  have hlast : ∀ {current : ℕ} {s : σ},
      (if current < memEnd then g s current (memEnd - current) else s)
        = (if current < memEnd then [⟨current, memEnd⟩] else []).foldl (report g) s := by
    intro current s
    split <;> rfl
  induction l generalizing current s with
  | nil => exact ⟨current, s, rfl, hlast⟩
  | cons r rs ih =>
    obtain ⟨hpos, hfits, -, hrs⟩ := valid_cons.1 hl
    have heq : holes memEnd (spans (r :: rs)) current
        = if r.base ≥ memEnd then if current < memEnd then [⟨current, memEnd⟩] else []
          else if r.base + r.size ≤ current then holes memEnd (spans rs) current
          else (if current < r.base then [⟨current, r.base⟩] else [])
            ++ holes memEnd (spans rs) (max current (r.base + r.size)) := rfl
    rw [walkReserved, if_neg (by omega), stop_eq hfits, heq]
    by_cases h1 : r.base ≥ memEnd
    · rw [if_pos h1, if_pos h1]
      exact ⟨current, s, rfl, hlast⟩
    rw [if_neg h1, if_neg h1]
    by_cases h2 : r.base + r.size ≤ current
    · rw [if_pos h2, if_pos h2]
      exact ih hrs current s
    rw [if_neg h2, if_neg h2]
    by_cases h3 : current < r.base
    · have hmin : min r.base memEnd = r.base := by omega
      rw [if_pos h3, if_pos h3, hmin]
      exact ih hrs (max current (r.base + r.size)) (g s current (r.base - current))
    · rw [if_neg h3, if_neg h3]
      exact ih hrs (max current (r.base + r.size)) s

/-- A walk that is not stopped reports what the reserved regions leave of the
memory. -/
theorem walkMemory_eq {reserved : List MemblockRegion} (hreserved : Valid reserved) (hl : Valid l)
    (s : σ) :
    walkMemory (fun s b n => (g s b n, true)) reserved l s
      = (difference (spans l) (spans reserved)).foldl (report g) s := by
  induction l generalizing s with
  | nil => rfl
  | cons m ms ih =>
    obtain ⟨hpos, hfits, -, hms⟩ := valid_cons.1 hl
    obtain ⟨current, s', hwalk, hrest⟩ :=
      walkReserved_spec g (m.base + m.size) hreserved m.base s
    have heq : difference (spans (m :: ms)) (spans reserved)
        = holes (m.base + m.size) (spans reserved) m.base
          ++ difference (spans ms) (spans reserved) := rfl
    rw [walkMemory, if_neg (by omega), stop_eq hfits, hwalk, heq, foldl_append, ← hrest]
    simp only
    split
    · rw [if_pos trivial, ih hms]
    · exact ih hms s'

end Walk

/-- What every call keeps, of both lists. -/
def Inv : Prop := mb.memory.Inv ∧ mb.reserved.Inv

def Free (x : ℕ) : Prop := mb.memory.Contains x ∧ ¬ mb.reserved.Contains x

/-- The free memory as a list. -/
def freeSpans : List Span :=
  difference (spans mb.memory.regions) (spans mb.reserved.regions)

variable {mb : Memblock}

theorem Inv.freeSpans (h : mb.Inv) :
    Separated mb.freeSpans ∧ ∀ x, Covered mb.freeSpans x ↔ mb.Free x :=
  difference_spec h.1.valid.1 h.2.valid.1

theorem Inv.forEachFreeRegion_eq {σ : Type} (h : mb.Inv) (g : σ → ℕ → ℕ → σ) (s : σ) :
    mb.forEachFreeRegion (fun s b n => (g s b n, true)) s = mb.freeSpans.foldl (report g) s :=
  walkMemory_eq g h.2.valid h.1.valid s

/-- What `memblock_for_each_free_region` reports to a callback that never stops
it. -/
def reported (mb : Memblock) : List Span :=
  mb.forEachFreeRegion (fun l base size => (l ++ [⟨base, base + size⟩], true)) []

theorem Inv.reported_eq (h : mb.Inv) : mb.reported = mb.freeSpans := by
  have hcollect : ∀ (l : List Span) (acc : List Span), (∀ a ∈ l, a.start < a.stop) →
      l.foldl (report fun l base size => l ++ [⟨base, base + size⟩]) acc = acc ++ l := by
    intro l
    induction l with
    | nil => exact fun acc _ => (append_nil acc).symm
    | cons a l ih =>
      intro acc hl
      obtain ⟨ha, hl⟩ := forall_mem_cons.1 hl
      have hstop : a.start + (a.stop - a.start) = a.stop := by omega
      rw [foldl_cons, ih _ hl, report, hstop, append_assoc, singleton_append]
  rw [reported, h.forEachFreeRegion_eq, hcollect _ _ h.freeSpans.1.1, nil_append]

end Memblock

/-! ### Runs -/

/-- A call on one of the lists. -/
inductive RangeOp
  | add (base size : ℕ) (flags : MemblockFlags)
  | remove (base size : ℕ)

namespace RangeOp

/-- The end of the range is an address. -/
def Fits : RangeOp → Prop
  | .add base size _ | .remove base size => base + size < 2 ^ 64

instance : (op : RangeOp) → Decidable op.Fits
  | .add .. | .remove .. => inferInstanceAs (Decidable (_ < _))

/-- The set a call should make of another one. -/
def apply (S : ℕ → Prop) : RangeOp → ℕ → Prop
  | .add base size _, x => S x ∨ (base ≤ x ∧ x < base + size)
  | .remove base size, x => S x ∧ ¬ (base ≤ x ∧ x < base + size)

end RangeOp

namespace MemblockType

/-- What a call answers and does. -/
def call (t : MemblockType) : RangeOp → Except KernelError Unit × MemblockType
  | .add base size flags => t.addRange base size flags
  | .remove base size => t.removeRange base size

/-- The list is a set of addresses, and calls are operations on it. -/
structure IsSet (t : MemblockType) : Prop where
  nonempty : ∀ r ∈ t.regions, 0 < r.size
  separated : t.regions.Pairwise fun a b => a.base + a.size < b.base
  total : t.totalSize = (t.regions.map (·.size)).sum
  succeeds : ∀ op : RangeOp, op.Fits → (t.call op).1 = .ok () →
    ∀ x, (t.call op).2.Contains x ↔ op.apply t.Contains x
  fails : ∀ op : RangeOp, op.Fits → (t.call op).1 ≠ .ok () → (t.call op).2 = t

variable {t : MemblockType}

theorem Inv.call (h : t.Inv) {op : RangeOp} (hfits : op.Fits) :
    t.Edits (op.apply t.Contains) (t.call op) := by
  cases op with
  | add base size flags => exact addRange_spec h base size flags
  | remove base size => exact removeRange_spec h hfits

theorem Inv.isSet (h : t.Inv) : t.IsSet where
  nonempty r hr := by
    have := h.valid.1.1 r.span (mem_map_of_mem hr)
    simp only [MemblockRegion.span] at this
    omega
  separated := pairwise_map.1 h.valid.1.2
  total := h.total
  succeeds _ hfits := (h.call hfits).2.2.1
  fails _ hfits := (h.call hfits).2.2.2

end MemblockType

/-- A call on one of the two lists. -/
inductive MemblockOp
  | memory (op : RangeOp)
  | reserved (op : RangeOp)

namespace Memblock

def step : MemblockOp → Memblock
  | .memory op => { mb with memory := (mb.memory.call op).2 }
  | .reserved op => { mb with reserved := (mb.reserved.call op).2 }

/-- The end of the range is an address. -/
def Fits (_ : Memblock) : MemblockOp → Prop
  | .memory op | .reserved op => op.Fits

instance : (op : MemblockOp) → Decidable (mb.Fits op)
  | .memory _ | .reserved _ => inferInstanceAs (Decidable (RangeOp.Fits _))

/-- Empty lists. -/
def new (memory reserved : ℕ) (hm : memory ≤ memblockRegionsMax)
    (hr : reserved ≤ memblockRegionsMax) : Memblock :=
  ⟨false, u64Max, .new memory hm, .new reserved hr⟩

theorem Inv.step {mb : Memblock} {op : MemblockOp} (h : mb.Inv) (hfits : mb.Fits op) :
    (mb.step op).Inv := by
  cases op with
  | memory op => exact ⟨(h.1.call hfits).1, h.2⟩
  | reserved op => exact ⟨h.1, (h.2.call hfits).1⟩

/-- In every state of every run both lists are sets of addresses, on which calls
are union and difference, and the walk over the free regions reports the maximal
intervals of the memory that is not reserved, in ascending order. -/
theorem memblock_is_address_set {memory reserved : ℕ} (hm : memory ≤ memblockRegionsMax)
    (hr : reserved ≤ memblockRegionsMax) {ops : List MemblockOp} {mb : Memblock}
    (hrun : Run (Guarded Fits (ofFun step)) (new memory reserved hm hr) ops mb) :
    mb.memory.IsSet ∧ mb.reserved.IsSet ∧
      mb.reported.Pairwise (fun a b => a.stop < b.start) ∧
      ∀ s, s ∈ mb.reported ↔
        IsComponent (fun x => mb.memory.Contains x ∧ ¬ mb.reserved.Contains x) s := by
  have hinv : mb.Inv := by
    refine hrun.invariant Inv ?_ ⟨MemblockType.inv_new memory hm, MemblockType.inv_new reserved hr⟩
    rintro mb op mb' h ⟨hfits, rfl⟩
    exact h.step hfits
  obtain ⟨hsep, hcov⟩ := hinv.freeSpans
  refine ⟨hinv.1.isSet, hinv.2.isSet, ?_, fun s => ?_⟩
  · rw [hinv.reported_eq]
    exact hsep.2
  · rw [hinv.reported_eq, hsep.mem_iff]
    exact IsComponent.congr hcov

/-- Memory that is joined, reserved in between, and a part that is given back. -/
def bootOps : List MemblockOp :=
  [.memory (.add 0x1000 0x1000 .none), .memory (.add 0x8000 0x1000 .none),
    .memory (.add 0x4000 0x2000 .none), .memory (.add 0x1800 0x3000 .none),
    .reserved (.add 0x2000 0x3000 .none), .reserved (.add 0x8000 0x1000 .none),
    .reserved (.remove 0x3000 0x1000)]

theorem memblock_is_address_set_boot :
    ∃ mb, Run (Guarded Fits (ofFun step)) (new 3 3 (by decide) (by decide)) bootOps mb ∧
      (mb.memory.IsSet ∧ mb.reserved.IsSet ∧
        mb.reported.Pairwise (fun a b => a.stop < b.start) ∧
        ∀ s, s ∈ mb.reported ↔
          IsComponent (fun x => mb.memory.Contains x ∧ ¬ mb.reserved.Contains x) s) ∧
      mb.reported = [⟨0x1000, 0x2000⟩, ⟨0x3000, 0x4000⟩, ⟨0x5000, 0x6000⟩] :=
  Run.exists_of_exec_total (by decide) fun _ hrun hreported =>
    ⟨memblock_is_address_set _ _ hrun, hreported⟩

end Memblock

end JanuaryOs.Phys

import JanuaryOs.Base
import JanuaryOs.Lib.IntervalMap

/-!
# The interval tree of `libs/mptree/tree.rs`, which stores the areas of an address space

The kernel keeps the intervals in a `BTree` keyed by their starts, taken here
for the map it implements (`Stored`). Every search walks the entries in
ascending order and stops at the first that fits, which is how the searches are
written here over `IntervalMap.toList`. `usize` additions and subtractions wrap,
as they do in a release build.
-/

namespace JanuaryOs.Libs.Mptree

open Lib IntervalMap List

variable {V : Type*}

/-- Why an interval is not inserted. -/
inductive MapleInsertError
  | invalidRange
  | overlap
  deriving Repr, DecidableEq

/-- The tree, as the disjoint intervals it stores. -/
abbrev MapleTree (V : Type*) := IntervalMap V

namespace MapleTree

def new : MapleTree V := IntervalMap.empty

def hasOverlap (t : MapleTree V) (start stop : ℕ) : Bool :=
  t.toList.any fun a => a.Meets start stop

variable {t : MapleTree V} {start stop size gap oldStart newStart : ℕ} {v : V} {a : Interval V}
  {e : MapleInsertError}

theorem hasOverlap_eq_false : t.hasOverlap start stop = false ↔ ∀ a ∈ t, ¬ a.Meets start stop := by
  simp only [hasOverlap, any_eq_false, mem_toList, decide_eq_true_eq]

theorem apart_of_not_hasOverlap (h : ¬ t.hasOverlap start stop = true) :
    ∀ b ∈ t, (⟨start, stop, v⟩ : Interval V).Apart b := fun b hb => by
  exact not_not.1 (hasOverlap_eq_false.1 (Bool.eq_false_iff.2 h) b hb)

/-- `insert`. There is never an older value to return: an interval with the same
start overlaps the new one. -/
def insert (t : MapleTree V) (start stop : ℕ) (value : V) :
    Except MapleInsertError (MapleTree V) :=
  if hrange : stop ≤ start then .error .invalidRange
  else if hover : t.hasOverlap start stop then .error .overlap
  else .ok (t.add ⟨start, stop, value⟩ (not_le.1 hrange) (apart_of_not_hasOverlap hover))

/-- An insertion that is accepted adds one interval, apart from all others. -/
theorem insert_ok {t' : MapleTree V} (h : t.insert start stop v = .ok t') :
    start < stop ∧ (∀ b ∈ t, (⟨start, stop, v⟩ : Interval V).Apart b) ∧
      (∀ b, b ∈ t' ↔ b = ⟨start, stop, v⟩ ∨ b ∈ t) ∧
      ∀ f : Interval V → ℕ, t'.sum f = t.sum f + f ⟨start, stop, v⟩ := by
  unfold insert at h
  split at h
  · cases h
  rename_i hrange
  split at h
  · cases h
  rename_i hover
  cases h
  exact ⟨not_le.1 hrange, apart_of_not_hasOverlap hover, fun b => mem_add,
    fun f => sum_add f⟩

theorem insert_eq_ok (hrange : start < stop)
    (hapart : ∀ b ∈ t, (⟨start, stop, v⟩ : Interval V).Apart b) :
    t.insert start stop v = .ok (t.add ⟨start, stop, v⟩ hrange hapart) := by
  have hover : ¬ t.hasOverlap start stop = true := by
    rw [Bool.not_eq_true, hasOverlap_eq_false]
    exact fun b hb => not_not.2 (hapart b hb)
  rw [insert, dif_neg (not_le.2 hrange), dif_neg hover]

/-- `find`: the interval that contains a point. -/
def find (t : MapleTree V) (point : ℕ) : Option (Interval V) := t.at? point

/-- `remove`: the interval that starts at a point. -/
def remove (t : MapleTree V) (start : ℕ) : Option (Interval V) × MapleTree V :=
  (t.map.get? start, t.erase start)

/-- `lower_bound`: the first interval that starts at or after a point. -/
def lowerBound (t : MapleTree V) (start : ℕ) : Option (Interval V) :=
  t.toList.find? fun a => start ≤ a.start

theorem lowerBound_eq_some (ha : a ∈ t) (hle : start ≤ a.start)
    (hfirst : ∀ b ∈ t, start ≤ b.start → a.start ≤ b.start) : t.lowerBound start = some a := by
  cases h : t.lowerBound start with
  | none => exact absurd hle (by simpa using find?_eq_none.1 h a (mem_toList.2 ha))
  | some b =>
    obtain ⟨hb, hbound, hafter⟩ := find?_spec h
    rcases hafter a ha hle with rfl | hlt
    · rfl
    have := hfirst b hb hbound
    have := start_lt_stop hb
    omega

/-- The first interval of `iter_intersecting`. -/
def firstIntersecting (t : MapleTree V) (start stop : ℕ) : Option (Interval V) :=
  t.firstMeeting start stop

/-! ### Gaps -/

/-- The loop of `find_gap` over neighbouring intervals. -/
def gapBetween (size start stop : ℕ) : List (Interval V) → Option ℕ
  | a :: b :: rest =>
    let gapStart := max a.stop start
    let gapEnd := min b.start stop
    if gapStart < gapEnd ∧ size ≤ gapEnd - gapStart then some gapStart
    else gapBetween size start stop (b :: rest)
  | _ => none

/-- `find_gap`: before the first interval, between two, or after the last. -/
def findGap (t : MapleTree V) (size start stop : ℕ) : Option ℕ :=
  if stop ≤ start ∨ size = 0 then none
  else
    let first := (t.toList.head?.map Interval.start).getD stop
    if (t.toList.isEmpty ∨ u64Add start size ≤ first) ∧ size ≤ u64Sub first start then some start
    else
      match gapBetween size start stop t.toList with
      | some gap => some gap
      | none =>
        match t.toList.getLast? with
        | some last =>
          let gapStart := max last.stop start
          if gapStart < stop ∧ size ≤ stop - gapStart then some gapStart else none
        | none => none

theorem gapBetween_cases :
    ∀ {l : List (Interval V)}, gapBetween size start stop l = some gap →
      ∃ a ∈ l, gap = max a.stop start
  | [], h | [_], h => by cases h
  | a :: b :: rest, h => by
      rw [gapBetween] at h
      split at h
      · cases h
        exact ⟨a, mem_cons_self, rfl⟩
      · obtain ⟨c, hc, hgap⟩ := gapBetween_cases h
        exact ⟨c, mem_cons_of_mem a hc, hgap⟩

/-- A gap starts where the search starts or where an interval stops. -/
theorem findGap_cases (h : t.findGap size start stop = some gap) :
    gap = start ∨ ∃ a ∈ t, gap = max a.stop start := by
  unfold findGap at h
  split at h
  · cases h
  simp only at h
  split at h
  · exact .inl (Option.some.inj h).symm
  split at h
  · rename_i hbetween
    cases h
    obtain ⟨a, ha, hgap⟩ := gapBetween_cases hbetween
    exact .inr ⟨a, mem_toList.1 ha, hgap⟩
  · split at h
    · rename_i last hlast
      split at h
      · cases h
        exact .inr ⟨last, mem_toList.1 (mem_of_getLast? hlast), rfl⟩
      · cases h
    · cases h

/-- The lowest place for `size` addresses in a gap. -/
def lowestIn (size gapStart gapEnd : ℕ) : Option ℕ :=
  if gapStart < gapEnd ∧ size ≤ gapEnd - gapStart then some gapStart else none

/-- The highest. -/
def highestIn (size gapStart gapEnd : ℕ) : Option ℕ :=
  if gapStart < gapEnd ∧ size ≤ gapEnd - gapStart then some (gapEnd - size) else none

/-- The loop of `find_gap_reverse` over neighbouring intervals, from the last
pair down. -/
def gapBetweenReverse (size start stop : ℕ) : List (Interval V) → Option ℕ
  | a :: b :: rest =>
    (gapBetweenReverse size start stop (b :: rest)).or
      (highestIn size (max a.stop stop) (min b.start start))
  | _ => none

/-- `find_gap_reverse`, which searches down from `start` to `stop`: after the
last interval, between two, or before the first. -/
def findGapReverse (t : MapleTree V) (size start stop : ℕ) : Option ℕ :=
  if start ≤ stop ∨ size = 0 then none
  else
    let last := t.toList.getLast?.bind fun a => highestIn size (max a.stop stop) start
    let first := match t.toList.head? with
      | none => if size ≤ start - stop then some (start - size) else none
      | some a => if stop < a.start then highestIn size stop (min a.start start) else none
    (last.or (gapBetweenReverse size start stop t.toList)).or first

/-- The places for `size` addresses between `lo` and `hi` that meet no interval. -/
def Gaps (size lo hi : ℕ) (l : List (Interval V)) : Set ℕ :=
  {p | lo ≤ p ∧ p + size ≤ hi ∧ ∀ a ∈ l, ¬ a.Meets p (p + size)}

/-- What the searches for the two ends of a set answer. -/
inductive Ends (S : Set ℕ) : Option ℕ → Option ℕ → Prop
  | empty : S = ∅ → Ends S none none
  | found {p q : ℕ} : IsLeast S p → IsGreatest S q → Ends S (some p) (some q)

theorem Ends.union {A B : Set ℕ} {p q p' q' : Option ℕ} (hA : Ends A p q) (hB : Ends B p' q')
    (hle : ∀ x ∈ A, ∀ y ∈ B, x ≤ y) : Ends (A ∪ B) (p.or p') (q'.or q) := by
  cases hA with
  | empty h =>
    rw [h, Set.empty_union, Option.or_none]
    exact hB
  | found hp hq =>
    cases hB with
    | empty h =>
      rw [h, Set.union_empty]
      exact .found hp hq
    | found hp' hq' =>
      exact .found ⟨.inl hp.1, fun y hy => hy.elim (hp.2 ·) (hle _ hp.1 y)⟩
        ⟨.inr hq'.1, fun x hx => hx.elim (hle x · _ hq'.1) (hq'.2 ·)⟩

section

variable {lo hi : ℕ} {l : List (Interval V)} {p q : Option ℕ}

theorem gaps_eq_empty (h : hi < lo + size) : Gaps size lo hi l = ∅ :=
  Set.eq_empty_of_forall_notMem fun p ⟨hlo, hhi, _⟩ => by omega

/-- The gaps of a sorted list lie before its first interval or after it. -/
theorem gaps_cons (ha : a.start < a.stop) (hl : ∀ b ∈ l, a.stop ≤ b.start) :
    Gaps size lo hi (a :: l) =
      Gaps size lo (min a.start hi) ([] : List (Interval V)) ∪ Gaps size (max a.stop lo) hi l := by
  ext p
  constructor
  · rintro ⟨hlo, hhi, hmeet⟩
    obtain ⟨hmeet, hrest⟩ := forall_mem_cons.1 hmeet
    unfold Interval.Meets at hmeet
    by_cases hle : p + size ≤ a.start
    · exact .inl ⟨hlo, by omega, nofun⟩
    · exact .inr ⟨by omega, hhi, hrest⟩
  · rintro (⟨hlo, hhi, -⟩ | ⟨hlo, hhi, hrest⟩)
    · refine ⟨hlo, by omega, forall_mem_cons.2 ⟨not_not.2 (.inl (by omega)), fun b hb => ?_⟩⟩
      have := hl b hb
      exact not_not.2 (.inl (by omega))
    · exact ⟨by omega, hhi, forall_mem_cons.2 ⟨not_not.2 (.inr (by omega)), hrest⟩⟩

variable (hsize : 0 < size)

include hsize

theorem ends_nil :
    Ends (Gaps size lo hi ([] : List (Interval V))) (lowestIn size lo hi)
      (highestIn size lo hi) := by
  unfold lowestIn highestIn
  by_cases h : lo < hi ∧ size ≤ hi - lo
  · rw [if_pos h, if_pos h]
    exact .found ⟨⟨le_rfl, by omega, nofun⟩, fun q hq => hq.1⟩
      ⟨⟨by omega, by omega, nofun⟩, fun q ⟨_, hhi, _⟩ => by omega⟩
  · rw [if_neg h, if_neg h]
    exact .empty (gaps_eq_empty (by omega))

theorem ends_cons (ha : a.start < a.stop) (hl : ∀ b ∈ l, a.stop ≤ b.start)
    (h : Ends (Gaps size (max a.stop lo) hi l) p q) :
    Ends (Gaps size lo hi (a :: l)) ((lowestIn size lo (min a.start hi)).or p)
      (q.or (highestIn size lo (min a.start hi))) := by
  rw [gaps_cons ha hl]
  exact (ends_nil hsize).union h fun x ⟨_, hx, _⟩ y ⟨hy, _⟩ => by omega

/-- What both searches find after the first interval of a sorted list. -/
theorem ends_after (hproper : ∀ b ∈ a :: l, b.start < b.stop)
    (hsorted : (a :: l).Pairwise fun b c => b.stop ≤ c.start) :
    Ends (Gaps size (max a.stop lo) hi l)
      ((gapBetween size lo hi (a :: l)).or
        ((a :: l).getLast?.bind fun b => lowestIn size (max b.stop lo) hi))
      (((a :: l).getLast?.bind fun b => highestIn size (max b.stop lo) hi).or
        (gapBetweenReverse size hi lo (a :: l))) := by
  induction l generalizing a with
  | nil => simpa [gapBetween, gapBetweenReverse] using ends_nil hsize
  | cons b l ih =>
    have hafter := ih (fun c hc => hproper c (mem_cons_of_mem a hc)) hsorted.tail
    have hb := hproper b (mem_cons_of_mem a mem_cons_self)
    have hab := (pairwise_cons.1 hsorted).1 b mem_cons_self
    rw [show max b.stop lo = max b.stop (max a.stop lo) by omega] at hafter
    convert ends_cons hsize hb (pairwise_cons.1 hsorted.tail).1 hafter using 1
    · rw [getLast?_cons_cons, gapBetween, lowestIn]
      split <;> rfl
    · rw [getLast?_cons_cons, gapBetweenReverse, Option.or_assoc]

end

/-- No sum of `find_gap` wraps around, and a block that fits before the first
interval does not pass the end of the search. -/
def FirstGapFits (t : MapleTree V) (size start stop : ℕ) : Prop :=
  start < stop → ∀ a ∈ t.toList.head?,
    start + size < 2 ^ 64 ∧ (start + size ≤ a.start → start + size ≤ stop)

section

variable (hsize : 0 < size) (hstop : stop < 2 ^ 64)
  (hstart : ∀ a ∈ t.toList, a.start < 2 ^ 64)

include hsize hstop hstart

theorem ends_findGap (hfits : t.FirstGapFits size start stop) :
    Ends (Gaps size start stop t.toList) (t.findGap size start stop)
      (t.findGapReverse size stop start) := by
  have hproper : ∀ b ∈ t.toList, b.start < b.stop := fun b hb => start_lt_stop (mem_toList.1 hb)
  have hsorted := t.toList_sorted
  unfold FirstGapFits at hfits
  unfold findGap findGapReverse
  by_cases hle : stop ≤ start ∨ size = 0
  · rw [if_pos hle, if_pos hle]
    exact .empty (gaps_eq_empty (by omega))
  rw [if_neg hle, if_neg hle]
  have hlt : start < stop := by omega
  generalize t.toList = l at hproper hsorted hstart hfits ⊢
  cases l with
  | nil =>
    have hsub : u64Sub stop start = stop - start := by
      unfold u64Sub
      omega
    convert ends_nil hsize using 1
    · simp [gapBetween, lowestIn, hsub, hlt]
    · simp [gapBetweenReverse, highestIn, hlt]
  | cons a l =>
    obtain ⟨hwrap, hclip⟩ := hfits hlt a rfl
    have hfirst : (u64Add start size ≤ a.start ∧ size ≤ u64Sub a.start start) ↔
        (start < min a.start stop ∧ size ≤ min a.start stop - start) := by
      have := hstart a mem_cons_self
      unfold u64Add u64Sub
      omega
    convert ends_cons hsize (hproper a mem_cons_self) (pairwise_cons.1 hsorted).1
      (ends_after hsize hproper hsorted) using 1
    · simp only [isEmpty_cons, Bool.false_eq_true, false_or, head?_cons,
        Option.map_some, Option.getD_some, hfirst, lowestIn]
      split
      · rfl
      cases gapBetween size start stop (a :: l) with
      | some gap => rfl
      | none => cases (a :: l).getLast? <;> rfl
    · have hskip : (if start < a.start then highestIn size start (min a.start stop) else none)
          = highestIn size start (min a.start stop) := by
        split
        · rfl
        · rw [highestIn, if_neg (by omega)]
      simp only [head?_cons, hskip]

/-- The searches answer with the lowest and the highest gap, and no sum wraps
around, exactly if a block before the first interval fits. -/
theorem gap_search_iff :
    (Ends (Gaps size start stop t.toList) (t.findGap size start stop)
        (t.findGapReverse size stop start) ∧
      (start < stop → ∀ a ∈ t.toList.head?, start + size < 2 ^ 64)) ↔
    t.FirstGapFits size start stop := by
  refine ⟨fun ⟨hends, hwrap⟩ hlt a ha => ⟨hwrap hlt a ha, fun hle => ?_⟩, fun hfits =>
    ⟨ends_findGap hsize hstop hstart hfits, fun hlt a ha => (hfits hlt a ha).1⟩⟩
  have hgap : t.findGap size start stop = some start := by
    have := hwrap hlt a ha
    have := hstart a (mem_of_head? ha)
    rw [findGap, if_neg (by omega)]
    simp only [Option.mem_def.1 ha, Option.map_some, Option.getD_some]
    refine if_pos ⟨.inr ?_, ?_⟩
    · unfold u64Add
      omega
    · unfold u64Sub
      omega
  rw [hgap] at hends
  generalize t.findGapReverse size stop start = high at hends
  cases hends with
  | found hlow _ => exact hlow.1.2.1

end

/-- One interval, `[100, 200)`. -/
def oneInterval : MapleTree Unit := new.add ⟨100, 200, ()⟩ (by decide) nofun

theorem gap_search_below :
    oneInterval.FirstGapFits 50 0 300 ∧
      Ends (Gaps 50 0 300 oneInterval.toList) (some 0) (some 250) := by
  have hfits : oneInterval.FirstGapFits 50 0 300 := by unfold FirstGapFits; decide
  exact ⟨hfits, ((gap_search_iff (by decide) (by decide) (by decide)).2 hfits).1⟩

/-- The gap before the first interval is not cut at the end of the search. -/
theorem findGap_past_end :
    oneInterval.findGap 50 0 10 = some 0 ∧ Gaps 50 0 10 oneInterval.toList = ∅ :=
  ⟨by decide, gaps_eq_empty (by decide)⟩

/-! ### Edits of one interval -/

/-- `replace`: another end and value for the interval at `start`. A range that
does not fit puts the old interval back. -/
def replace (t : MapleTree V) (start stop : ℕ) (value : V) :
    Except MapleInsertError Unit × MapleTree V :=
  let (old, t1) := t.remove start
  match t1.insert start stop value with
  | .ok t2 => (.ok (), t2)
  | .error e =>
    match old with
    | some a =>
      match t1.insert start a.stop a.value with
      | .ok t2 => (.error e, t2)
      | .error _ => (.error e, t1)
    | none => (.error e, t1)

/-- `move_start`: move the start of an interval, keeping its end. -/
def moveStart (t : MapleTree V) (oldStart newStart : ℕ) :
    Except MapleInsertError Unit × MapleTree V :=
  match t.map.get? oldStart with
  | none => (.error .invalidRange, t)
  | some a =>
    if a.stop ≤ newStart then (.error .invalidRange, t)
    else
      -- the interval itself is left out of the test by removing it first
      match insert (t.erase oldStart) newStart a.stop a.value with
      | .ok t1 => (.ok (), t1)
      | .error e => (.error e, t)

theorem insert_erase_self (h : a ∈ t) :
    insert (t.erase a.start) a.start a.stop a.value = .ok t := by
  have hapart : ∀ b ∈ t.erase a.start, a.Apart b := fun b hb => by
    obtain ⟨hb, hne⟩ := mem_erase.1 hb
    exact apart_of_ne h hb fun hab => hne (hab ▸ rfl)
  rw [insert_eq_ok (start_lt_stop h) hapart]
  refine congrArg _ (ext_mem fun b => ?_)
  rw [mem_add, mem_erase]
  constructor
  · rintro (rfl | ⟨hb, -⟩)
    · exact h
    · exact hb
  · intro hb
    by_cases hstart : b.start = a.start
    · exact .inl (eq_of_start_eq hb h hstart)
    · exact .inr ⟨hb, hstart⟩

theorem replace_error (h : (t.replace start stop v).1 = .error e) :
    (t.replace start stop v).2 = t := by
  unfold replace remove at h ⊢
  simp only at h ⊢
  split
  · rename_i t2 hins
    simp only [hins] at h
    cases h
  cases hget : t.map.get? start with
  | none =>
    refine ext_mem fun b => ?_
    rw [mem_erase, and_iff_left_iff_imp]
    rintro hb rfl
    rw [mem_iff, hget] at hb
    cases hb
  | some a =>
    have hstart := t.keyed start a hget
    subst hstart
    simp only [insert_erase_self (mem_of_get? hget)]

theorem replace_ok (h : (t.replace start stop v).1 = .ok ()) :
    start < stop ∧
      ∀ b, b ∈ (t.replace start stop v).2 ↔
        b = ⟨start, stop, v⟩ ∨ b ∈ t ∧ b.start ≠ start := by
  unfold replace remove at h ⊢
  simp only at h ⊢
  cases hins : insert (t.erase start) start stop v with
  | ok t2 =>
    obtain ⟨hlt, -, hmem, -⟩ := insert_ok hins
    refine ⟨hlt, fun b => ?_⟩
    rw [hmem, mem_erase]
  | error e =>
    exfalso
    simp only [hins] at h
    split at h
    · split at h <;> cases h
    · cases h

theorem moveStart_ok (h : (t.moveStart oldStart newStart).1 = .ok ()) :
    ∃ a ∈ t, a.start = oldStart ∧ newStart < a.stop ∧
      ∀ b, b ∈ (t.moveStart oldStart newStart).2 ↔
        b = ⟨newStart, a.stop, a.value⟩ ∨ b ∈ t ∧ b.start ≠ oldStart := by
  unfold moveStart at h ⊢
  cases hget : t.map.get? oldStart with
  | none => simp only [hget] at h; cases h
  | some a =>
    simp only [hget] at h ⊢
    have hstart := t.keyed oldStart a hget
    by_cases hle : a.stop ≤ newStart
    · rw [if_pos hle] at h
      cases h
    rw [if_neg hle] at h ⊢
    cases hins : insert (t.erase oldStart) newStart a.stop a.value with
    | error e => simp only [hins] at h; cases h
    | ok t1 =>
      obtain ⟨-, -, hmem, -⟩ := insert_ok hins
      refine ⟨a, mem_of_get? hget, hstart, not_le.1 hle, fun b => ?_⟩
      rw [hmem, mem_erase]

theorem moveStart_accepts (ha : a ∈ t) (hlt : newStart < a.stop)
    (hfree : ∀ b ∈ t, b ≠ a → (⟨newStart, a.stop, a.value⟩ : Interval V).Apart b) :
    (t.moveStart a.start newStart).1 = .ok () := by
  rw [moveStart, mem_iff.1 ha]
  simp only [if_neg (not_le.2 hlt)]
  rw [insert_eq_ok hlt fun b hb => ?_]
  obtain ⟨hb, hne⟩ := mem_erase.1 hb
  exact hfree b hb fun hab => hne (hab ▸ rfl)

theorem moveStart_error (h : (t.moveStart oldStart newStart).1 = .error e) :
    (t.moveStart oldStart newStart).2 = t := by
  unfold moveStart at h ⊢
  split
  · rfl
  rename_i a hget
  simp only [hget] at h
  split
  · rfl
  rename_i hle
  rw [if_neg hle] at h
  split
  · rename_i t1 hins
    simp only [hins] at h
    cases h
  · rfl

end MapleTree

end JanuaryOs.Libs.Mptree

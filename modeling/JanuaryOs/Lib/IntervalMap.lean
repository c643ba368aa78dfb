import JanuaryOs.Lib.OrdMap

/-!
# Maps from disjoint half-open intervals of natural numbers to values

An `IntervalMap` is an ordered map keyed by the start of each interval, together
with the facts that make it a map on points: every interval is non-empty and any
two of them are apart. An interval is added with a proof that it is apart from
those already there, so a map that breaks the invariant cannot be built.
Membership says everything about a map: each operation is described by what it
does to the set of intervals.
-/

namespace JanuaryOs.Lib

open OrdMap List

/-! ### Intervals -/

/-- The points from `start` up to, and without, `stop`, with a value. -/
structure Interval (V : Type*) where
  start : ℕ
  stop : ℕ
  value : V
  deriving Repr, DecidableEq

namespace Interval

variable {V : Type*}

def Contains (a : Interval V) (p : ℕ) : Prop := a.start ≤ p ∧ p < a.stop

instance (a : Interval V) (p : ℕ) : Decidable (a.Contains p) := instDecidableAnd

/-- The interval has a point in common with `[lo, hi)`, if neither is empty. -/
def Meets (lo hi : ℕ) (a : Interval V) : Prop := ¬ (hi ≤ a.start ∨ a.stop ≤ lo)

instance (lo hi : ℕ) (a : Interval V) : Decidable (a.Meets lo hi) := instDecidableNot

/-- One interval ends before the other starts. -/
def Apart (a b : Interval V) : Prop := a.stop ≤ b.start ∨ b.stop ≤ a.start

theorem Apart.symm {a b : Interval V} (h : a.Apart b) : b.Apart a := Or.symm h

/-- `a` lies inside `b`. -/
def Within (a b : Interval V) : Prop := b.start ≤ a.start ∧ a.stop ≤ b.stop

theorem Apart.within {a b c : Interval V} (h : b.Apart c) (hw : a.Within b) : a.Apart c := by
  unfold Apart Within at *
  omega

end Interval

/-! ### Maps -/

/-- A finite map from disjoint, non-empty intervals, keyed by their starts. -/
structure IntervalMap (V : Type*) where
  map : OrdMap ℕ (Interval V)
  keyed : ∀ k a, map.get? k = some a → a.start = k
  proper : ∀ k a, map.get? k = some a → a.start < a.stop
  apart : ∀ k a l b, map.get? k = some a → map.get? l = some b → k ≠ l → a.Apart b

namespace IntervalMap

variable {V : Type*}

instance : Membership (Interval V) (IntervalMap V) where
  mem t a := t.map.get? a.start = some a

def toList (t : IntervalMap V) : List (Interval V) := t.map.entries.map Prod.snd

def empty : IntervalMap V where
  map := .empty
  keyed k a h := by cases h
  proper k a h := by cases h
  apart k a l b h := by cases h

variable {t : IntervalMap V} {a b : Interval V}

theorem mem_iff : a ∈ t ↔ t.map.get? a.start = some a := Iff.rfl

theorem mem_of_get? {k : ℕ} (h : t.map.get? k = some a) : a ∈ t := by
  rw [mem_iff, t.keyed k a h]
  exact h

@[simp] theorem not_mem_empty (a : Interval V) : a ∉ (empty : IntervalMap V) := nofun

theorem mem_toList : a ∈ t.toList ↔ a ∈ t := by
  simp only [toList, mem_map, Prod.exists, exists_eq_right]
  refine ⟨fun ⟨k, hk⟩ => mem_of_get? (mem_entries_iff.1 hk), fun h => ⟨a.start, ?_⟩⟩
  exact mem_entries_iff.2 h

theorem start_lt_stop (h : a ∈ t) : a.start < a.stop := t.proper a.start a h

theorem eq_of_start_eq (ha : a ∈ t) (hb : b ∈ t) (h : a.start = b.start) : a = b := by
  rw [mem_iff, h] at ha
  exact Option.some.inj (ha.symm.trans hb)

theorem apart_of_ne (ha : a ∈ t) (hb : b ∈ t) (h : a ≠ b) : a.Apart b :=
  t.apart _ a _ b ha hb fun hstart => h (eq_of_start_eq ha hb hstart)

variable {hi lo p : ℕ}

theorem eq_of_contains (ha : a ∈ t) (hb : b ∈ t) (hap : a.Contains p) (hbp : b.Contains p) :
    a = b := by
  by_contra hne
  have := apart_of_ne ha hb hne
  unfold Interval.Apart Interval.Contains at *
  omega

theorem toList_sorted (t : IntervalMap V) : t.toList.Pairwise fun a b => a.stop ≤ b.start := by
  refine pairwise_map.2 (t.map.sorted.imp_of_mem fun {x y} hx hy hlt => ?_)
  have hx : t.map.get? x.1 = some x.2 := mem_entries_iff.1 hx
  have hy : t.map.get? y.1 = some y.2 := mem_entries_iff.1 hy
  have hapart := t.apart _ _ _ _ hx hy hlt.ne
  have hstart := t.keyed _ _ hx
  have hproper := t.proper _ _ hy
  have hkey := t.keyed _ _ hy
  unfold Interval.Apart at hapart
  omega

theorem ext_mem {t1 t2 : IntervalMap V} (h : ∀ a, a ∈ t1 ↔ a ∈ t2) : t1 = t2 := by
  have hmap : t1.map = t2.map := by
    refine ext_get? fun k => Option.ext fun a => ?_
    constructor <;> intro hk
    · have hmem := (h a).1 (mem_of_get? hk)
      rwa [mem_iff, t1.keyed k a hk] at hmem
    · have hmem := (h a).2 (mem_of_get? hk)
      rwa [mem_iff, t2.keyed k a hk] at hmem
  cases t1
  cases t2
  simp only at hmap
  subst hmap
  rfl

/-! ### Adding and erasing -/

/-- Add an interval that is apart from all others. -/
def add (t : IntervalMap V) (a : Interval V) (hproper : a.start < a.stop)
    (hapart : ∀ b ∈ t, a.Apart b) : IntervalMap V where
  map := t.map.insert a.start a
  keyed k b h := by
    rw [get?_insert] at h
    split at h
    · cases h
      exact Eq.symm ‹_›
    · exact t.keyed k b h
  proper k b h := by
    rw [get?_insert] at h
    split at h
    · cases h
      exact hproper
    · exact t.proper k b h
  apart k b l c hb hc hne := by
    rw [get?_insert] at hb hc
    split at hb <;> split at hc
    · omega
    · cases hb
      exact hapart c (mem_of_get? hc)
    · cases hc
      exact (hapart b (mem_of_get? hb)).symm
    · exact t.apart k b l c hb hc hne

/-- Remove the interval that starts at `k`. -/
def erase (t : IntervalMap V) (k : ℕ) : IntervalMap V where
  map := t.map.erase k
  keyed l b h := by
    rw [get?_erase] at h
    split at h
    · cases h
    · exact t.keyed l b h
  proper l b h := by
    rw [get?_erase] at h
    split at h
    · cases h
    · exact t.proper l b h
  apart l b m c hb hc hne := by
    rw [get?_erase] at hb hc
    split at hb <;> split at hc <;> first | cases hb | cases hc | skip
    exact t.apart l b m c hb hc hne

theorem mem_add {hproper : a.start < a.stop} {hapart : ∀ b ∈ t, a.Apart b} :
    b ∈ t.add a hproper hapart ↔ b = a ∨ b ∈ t := by
  have hget : b ∈ t.add a hproper hapart ↔
      (if b.start = a.start then some a else t.map.get? b.start) = some b := by
    rw [← get?_insert]
    rfl
  rw [hget]
  split
  · rename_i hstart
    refine ⟨fun h => .inl (Option.some.inj h).symm, fun h => ?_⟩
    rcases h with rfl | hb
    · rfl
    have := hapart b hb
    have := start_lt_stop hb
    unfold Interval.Apart at *
    omega
  · rename_i hstart
    refine ⟨.inr, fun h => h.resolve_left ?_⟩
    rintro rfl
    exact hstart rfl

theorem mem_erase {k : ℕ} : b ∈ t.erase k ↔ b ∈ t ∧ b.start ≠ k := by
  have hget : b ∈ t.erase k ↔ (if b.start = k then none else t.map.get? b.start) = some b := by
    rw [← get?_erase]
    rfl
  rw [hget]
  split
  · simp [*]
  · simp only [ne_eq, ‹¬ b.start = k›, not_false_eq_true, and_true]
    exact Iff.rfl

/-! ### Searching -/

/-- The interval that contains a point. -/
def at? (t : IntervalMap V) (p : ℕ) : Option (Interval V) :=
  t.toList.find? fun a => a.Contains p

theorem at?_eq_some : t.at? p = some a ↔ a ∈ t ∧ a.Contains p := by
  constructor
  · intro h
    exact ⟨mem_toList.1 (mem_of_find?_eq_some h), by simpa using find?_some h⟩
  · rintro ⟨ha, hp⟩
    cases hfind : t.at? p with
    | none =>
      have := find?_eq_none.1 hfind a (mem_toList.2 ha)
      simp only [decide_eq_true_eq] at this
      exact absurd hp this
    | some b =>
      have hb := mem_toList.1 (mem_of_find?_eq_some hfind)
      have hbp : b.Contains p := by simpa using find?_some hfind
      rw [eq_of_contains ha hb hp hbp]

theorem at?_eq_none : t.at? p = none ↔ ∀ a ∈ t, ¬ a.Contains p := by
  simp only [at?, find?_eq_none, mem_toList, decide_eq_true_eq]

/-- The first interval that meets `[lo, hi)`. -/
def firstMeeting (t : IntervalMap V) (lo hi : ℕ) : Option (Interval V) :=
  t.toList.find? fun a => a.Meets lo hi

/-- Every other interval that a search would accept comes after the one that it
finds. -/
theorem find?_spec {P : Interval V → Prop} [DecidablePred P]
    (h : t.toList.find? (fun a => P a) = some a) :
    a ∈ t ∧ P a ∧ ∀ b ∈ t, P b → b = a ∨ a.stop ≤ b.start := by
  obtain ⟨hp, before, after, hlist, hbefore⟩ := find?_eq_some_iff_append.1 h
  have ha : a ∈ t := mem_toList.1 (hlist ▸ by simp)
  refine ⟨ha, by simpa using hp, fun b hb hpb => ?_⟩
  have hb := mem_toList.2 hb
  rw [hlist, mem_append, mem_cons] at hb
  rcases hb with hb | rfl | hb
  · have := hbefore b hb
    simp only [Bool.not_eq_true', decide_eq_false_iff_not] at this
    exact absurd hpb this
  · exact .inl rfl
  · have hsorted := t.toList_sorted
    rw [hlist, pairwise_append] at hsorted
    exact .inr ((pairwise_cons.1 hsorted.2.1).1 b hb)

theorem firstMeeting_eq_none : t.firstMeeting lo hi = none ↔ ∀ a ∈ t, ¬ a.Meets lo hi := by
  simp only [firstMeeting, find?_eq_none, mem_toList, decide_eq_true_eq]

theorem firstMeeting_spec (h : t.firstMeeting lo hi = some a) :
    a ∈ t ∧ a.Meets lo hi ∧ ∀ b ∈ t, b.Meets lo hi → b = a ∨ a.stop ≤ b.start := find?_spec h

/-- The intervals that meet `[lo, hi)`, in ascending order. -/
def meeting (t : IntervalMap V) (lo hi : ℕ) : List (Interval V) :=
  t.toList.filter fun a => a.Meets lo hi

theorem mem_meeting : a ∈ t.meeting lo hi ↔ a ∈ t ∧ a.Meets lo hi := by
  simp only [meeting, mem_filter, mem_toList, decide_eq_true_eq]

theorem meeting_sorted (t : IntervalMap V) (lo hi : ℕ) :
    (t.meeting lo hi).Pairwise fun a b => a.stop ≤ b.start :=
  t.toList_sorted.filter _

theorem meeting_eq_nil (h : t.firstMeeting lo hi = none) : t.meeting lo hi = [] := by
  refine eq_nil_iff_forall_not_mem.2 fun a ha => ?_
  obtain ⟨hmem, hmeets⟩ := mem_meeting.1 ha
  exact firstMeeting_eq_none.1 h a hmem hmeets

/-- After the first interval that meets a range come those that meet the rest of
it. -/
theorem meeting_eq_cons (h : t.firstMeeting lo hi = some a) :
    t.meeting lo hi = a :: t.meeting a.stop hi := by
  obtain ⟨hp, before, after, hlist, hbefore⟩ := find?_eq_some_iff_append.1 h
  have hmeets : a.Meets lo hi := by simpa using hp
  have hsorted := t.toList_sorted
  rw [hlist, pairwise_append, pairwise_cons] at hsorted
  have hproper : ∀ b ∈ a :: after, b.start < b.stop := fun b hb =>
    start_lt_stop (mem_toList.1 (by rw [hlist]; exact mem_append_right before hb))
  have hself : ¬ a.Meets a.stop hi := by unfold Interval.Meets; omega
  have hnone : before.filter (fun b => b.Meets lo hi) = [] :=
    filter_eq_nil_iff.2 fun b hb => by simpa using hbefore b hb
  have hfront : before.filter (fun b => b.Meets a.stop hi) = [] := by
    refine filter_eq_nil_iff.2 fun b hb => ?_
    have := hsorted.2.2 b hb a mem_cons_self
    have := hproper a mem_cons_self
    rw [decide_eq_true_eq]
    unfold Interval.Meets
    omega
  have hback : after.filter (fun b => b.Meets lo hi)
      = after.filter (fun b => b.Meets a.stop hi) := by
    refine filter_congr fun b hb => ?_
    have := hsorted.2.1.1 b hb
    have := hproper b (mem_cons_of_mem a hb)
    rw [decide_eq_decide]
    unfold Interval.Meets at *
    omega
  unfold meeting
  rw [hlist, filter_append, filter_append, hnone, hfront, nil_append,
    nil_append, filter_cons_of_pos (by simpa using hmeets),
    filter_cons_of_neg (by simpa using hself), hback]

/-- Nothing meets the rest of a range beyond an interval that reaches its end. -/
theorem meeting_stop_eq_nil (ha : a ∈ t) (hmeets : a.start < hi) (hle : hi ≤ a.stop) :
    t.meeting a.stop hi = [] := by
  refine eq_nil_iff_forall_not_mem.2 fun b hb => ?_
  obtain ⟨hmem, hb⟩ := mem_meeting.1 hb
  have hne : b ≠ a := by
    rintro rfl
    unfold Interval.Meets at hb
    omega
  have := apart_of_ne hmem ha hne
  unfold Interval.Meets Interval.Apart at *
  omega

theorem firstMeeting_of_contains (ha : a ∈ t) (hlo : a.Contains lo) (hlt : lo < hi) :
    t.firstMeeting lo hi = some a := by
  have hmeets : a.Meets lo hi := by
    unfold Interval.Meets Interval.Contains at *
    omega
  cases hfirst : t.firstMeeting lo hi with
  | none => exact absurd hmeets (firstMeeting_eq_none.1 hfirst a ha)
  | some b =>
    obtain ⟨hb, hbmeets, hnext⟩ := firstMeeting_spec hfirst
    rcases hnext a ha hmeets with heq | hle
    · rw [heq]
    · unfold Interval.Meets Interval.Contains at *
      omega

/-! ### Points -/

def value? (t : IntervalMap V) (p : ℕ) : Option V := (t.at? p).map Interval.value

theorem value?_eq_some {v : V} : t.value? p = some v ↔ ∃ a ∈ t, a.Contains p ∧ a.value = v := by
  simp only [value?, Option.map_eq_some_iff, at?_eq_some, and_assoc]

theorem value?_eq_none : t.value? p = none ↔ ∀ a ∈ t, ¬ a.Contains p := by
  rw [value?, Option.map_eq_none_iff, at?_eq_none]

theorem value?_congr {t' : IntervalMap V}
    (h : ∀ v, (∃ a ∈ t', a.Contains p ∧ a.value = v) ↔ ∃ a ∈ t, a.Contains p ∧ a.value = v) :
    t'.value? p = t.value? p :=
  Option.ext fun v => by rw [value?_eq_some, value?_eq_some, h]

/-- Remove the intervals that start at one of the keys. -/
def eraseAll (t : IntervalMap V) : List ℕ → IntervalMap V
  | [] => t
  | k :: keys => (t.erase k).eraseAll keys

theorem mem_eraseAll {keys : List ℕ} : b ∈ t.eraseAll keys ↔ b ∈ t ∧ b.start ∉ keys := by
  induction keys generalizing t with
  | nil => simp [eraseAll]
  | cons k keys ih => rw [eraseAll, ih, mem_erase, mem_cons, not_or, and_assoc]

/-! ### Sums -/

def sum (t : IntervalMap V) (f : Interval V → ℕ) : ℕ := t.map.sum fun _ => f

theorem sum_add (f : Interval V → ℕ) {hproper : a.start < a.stop}
    {hapart : ∀ b ∈ t, a.Apart b} : (t.add a hproper hapart).sum f = t.sum f + f a := by
  have hsum := t.map.sum_insert (fun _ => f) a.start a
  have hnone : t.map.get? a.start = none := by
    rw [Option.eq_none_iff_forall_ne_some]
    intro b hb
    have hstart := t.keyed _ b hb
    have hlt := t.proper _ b hb
    have := hapart b (mem_of_get? hb)
    unfold Interval.Apart at this
    omega
  rw [hnone] at hsum
  exact hsum

theorem sum_erase (f : Interval V → ℕ) (h : a ∈ t) : (t.erase a.start).sum f + f a = t.sum f := by
  have hsum := t.map.sum_erase (fun _ => f) a.start
  rw [mem_iff.1 h] at hsum
  exact hsum

end IntervalMap

end JanuaryOs.Lib

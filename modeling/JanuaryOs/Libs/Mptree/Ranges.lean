import JanuaryOs.Libs.Mptree.Tree

/-!
# The interval tree of `libs/mptree/tree.rs` as it is stored

An ordered map from keys to range entries, with nothing said about which entries
it holds.

`MapleTree` carries the invariant of the tree in its type. Here the operations
act on any map of entries, in the steps the kernel takes: an interval is removed
first and inserted again, and a loop removes one key after the other. Each
operation on the entries of a `MapleTree` gives the entries of a `MapleTree`
again, so the invariant holds in every tree that is built from the empty one
(`ranges_disjoint`), and what an operation does to the points is read off the
intervals it exchanges.
-/

namespace JanuaryOs.Libs.Mptree

open Lib OrdMap IntervalMap MapleTree List

variable {V : Type*}

/-- The `BTree` below the tree, which maps keys to range entries. -/
abbrev Ranges (V : Type*) := OrdMap ℕ (Interval V)

namespace Ranges

/-! ### The operations -/

/-- The entries in the order of their keys. -/
def iter (t : Ranges V) : List (Interval V) := t.entries.map Prod.snd

def hasOverlap (t : Ranges V) (start stop : ℕ) : Bool := t.iter.any fun e => e.Meets start stop

def insert (t : Ranges V) (start stop : ℕ) (value : V) :
    Except MapleInsertError (Option V) × Ranges V :=
  if stop ≤ start then (.error .invalidRange, t)
  else if t.hasOverlap start stop then (.error .overlap, t)
  else (.ok ((t.get? start).map Interval.value), OrdMap.insert t start ⟨start, stop, value⟩)

def find (t : Ranges V) (point : ℕ) : Option (Interval V) :=
  t.iter.find? fun e => e.Contains point

/-- `remove`: the end and the value of the entry at `start`. -/
def remove (t : Ranges V) (start : ℕ) : Option (ℕ × V) × Ranges V :=
  ((t.get? start).map fun e => (e.stop, e.value), t.erase start)

def updateEnd (t : Ranges V) (start newEnd : ℕ) : Except MapleInsertError Unit × Ranges V :=
  match t.remove start with
  | (some (oldEnd, value), t1) =>
    if t1.hasOverlap start newEnd then (.error .overlap, (t1.insert start oldEnd value).2)
    else
      -- a new end at or below the start is refused here, after the interval has been removed
      match t1.insert start newEnd value with
      | (.ok _, t2) => (.ok (), t2)
      | (.error e, t2) => (.error e, t2)
  | (none, t1) => (.error .invalidRange, t1)

def replace (t : Ranges V) (start stop : ℕ) (value : V) :
    Except MapleInsertError (Option (ℕ × V)) × Ranges V :=
  let (old, t1) := t.remove start
  match t1.insert start stop value with
  | (.ok _, t2) => (.ok old, t2)
  | (.error e, t2) =>
    match old with
    | some (oldEnd, oldValue) => (.error e, (t2.insert start oldEnd oldValue).2)
    | none => (.error e, t2)

def moveStart (t : Ranges V) (oldStart newStart : ℕ) :
    Except MapleInsertError (ℕ × ℕ) × Ranges V :=
  match t.get? oldStart with
  | none => (.error .invalidRange, t)
  | some existing =>
    if existing.stop ≤ newStart then (.error .invalidRange, t)
    else if t.iter.any fun e => e.start ≠ oldStart ∧ e.Meets newStart existing.stop then
      (.error .overlap, t)
    else
      (.ok (oldStart, existing.stop),
        OrdMap.insert (t.erase oldStart) newStart ⟨newStart, existing.stop, existing.value⟩)

def overlapping (t : Ranges V) (start stop : ℕ) : List ℕ :=
  (t.entries.filter fun e => e.2.Meets start stop).map Prod.fst

/-- Remove one key after the other, keeping what was removed. -/
def takeEach (t : Ranges V) : List ℕ → List (ℕ × Interval V) × Ranges V
  | [] => ([], t)
  | k :: keys =>
    let (rest, t') := takeEach (t.erase k) keys
    match t.get? k with
    | some e => ((k, e) :: rest, t')
    | none => (rest, t')

def insertOverwrite (t : Ranges V) (start stop : ℕ) (value : V) :
    Except MapleInsertError (List (Interval V)) × Ranges V :=
  if stop ≤ start then (.error .invalidRange, t)
  else
    let (removed, t1) := t.takeEach (t.overlapping start stop)
    match t1.insert start stop value with
    | (.ok _, t2) => (.ok (removed.map fun r => ⟨r.1, r.2.stop, r.2.value⟩), t2)
    | (.error e, t2) => (.error e, t2)

def splitAt (t : Ranges V) (point : ℕ) : Bool × Ranges V :=
  match t.entries.find? fun e => e.2.start < point ∧ point < e.2.stop with
  | some (start, e) =>
    match t.remove start with
    | (some _, t1) =>
      (true, (((t1.insert start point e.value).2).insert point e.stop e.value).2)
    | (none, t1) => (false, t1)
  | none => (false, t)

/-- The first two neighbours that touch and carry the same value. -/
def touching [DecidableEq V] : List (Interval V) → Option (Interval V × Interval V)
  | a :: b :: rest =>
    if a.stop = b.start ∧ a.value = b.value then some (a, b) else touching (b :: rest)
  | _ => none

/-- The loop of `merge_adjacent_equal`, for at most `fuel` rounds. -/
def mergeLoop [DecidableEq V] : ℕ → Ranges V → ℕ × Ranges V
  | 0, t => (0, t)
  | fuel + 1, t =>
    match touching (t.iter.insertionSort fun a b => a.start ≤ b.start) with
    | some (a, b) =>
      match t.remove a.start with
      | (some _, t1) =>
        let (merged, t2) :=
          mergeLoop fuel (((t1.remove b.start).2).insert a.start b.stop a.value).2
        (merged + 1, t2)
      | (none, t1) => (0, t1)
    | none => (0, t)

/-- `merge_adjacent_equal`. Each round but the last leaves one entry less. -/
def mergeAdjacentEqual [DecidableEq V] (t : Ranges V) : ℕ × Ranges V :=
  mergeLoop t.entries.length t

def removeIntersecting (t : Ranges V) (start stop : ℕ) : List (Interval V) × Ranges V :=
  let (removed, t1) := t.takeEach (t.overlapping start stop)
  (removed.map Prod.snd, t1)

def valueAt (t : Ranges V) (point : ℕ) : Option V := (t.find point).map Interval.value

/-- A call that changes the tree. -/
inductive Op (V : Type*)
  | insert (start stop : ℕ) (value : V)
  | insertOverwrite (start stop : ℕ) (value : V)
  | remove (start : ℕ)
  | updateEnd (start newEnd : ℕ)
  | replace (start stop : ℕ) (value : V)
  | moveStart (oldStart newStart : ℕ)
  | splitAt (point : ℕ)
  | mergeAdjacentEqual
  | removeIntersecting (start stop : ℕ)

def step [DecidableEq V] (t : Ranges V) : Op V → Ranges V
  | .insert start stop value => (t.insert start stop value).2
  | .insertOverwrite start stop value => (t.insertOverwrite start stop value).2
  | .remove start => (t.remove start).2
  | .updateEnd start newEnd => (t.updateEnd start newEnd).2
  | .replace start stop value => (t.replace start stop value).2
  | .moveStart oldStart newStart => (t.moveStart oldStart newStart).2
  | .splitAt point => (t.splitAt point).2
  | .mergeAdjacentEqual => t.mergeAdjacentEqual.2
  | .removeIntersecting start stop => (t.removeIntersecting start stop).2

/-- What a call answers, if it may refuse. -/
def answer (t : Ranges V) : Op V → Except MapleInsertError Unit
  | .insert start stop value => (t.insert start stop value).1.map fun _ => ()
  | .insertOverwrite start stop value => (t.insertOverwrite start stop value).1.map fun _ => ()
  | .updateEnd start newEnd => (t.updateEnd start newEnd).1
  | .replace start stop value => (t.replace start stop value).1.map fun _ => ()
  | .moveStart oldStart newStart => (t.moveStart oldStart newStart).1.map fun _ => ()
  | .remove _ | .splitAt _ | .mergeAdjacentEqual | .removeIntersecting _ _ => .ok ()

/-- The tree after a list of calls on the empty tree. -/
def after [DecidableEq V] (ops : List (Op V)) : Ranges V := ops.foldl step OrdMap.empty

/-! ### Trees that keep the invariant -/

/-- The intervals are not empty, are disjoint and stand under their starts. -/
structure Sound (t : Ranges V) : Prop where
  keyed : ∀ k e, t.get? k = some e → e.start = k
  proper : ∀ k e, t.get? k = some e → e.start < e.stop
  apart : ∀ k e l f, t.get? k = some e → t.get? l = some f → k ≠ l → e.Apart f

variable {t : Ranges V} {start stop : ℕ} {b : Interval V}

theorem sound_iff : Sound t ↔ ∃ m : MapleTree V, m.map = t := by
  constructor
  · intro h
    exact ⟨⟨t, h.keyed, h.proper, h.apart⟩, rfl⟩
  · rintro ⟨m, rfl⟩
    exact ⟨m.keyed, m.proper, m.apart⟩

variable (m : MapleTree V) {a : Interval V}

theorem get?_start_eq_none (hlt : start < stop) (h : ¬ m.hasOverlap start stop = true) :
    m.map.get? start = none := by
  rw [Option.eq_none_iff_forall_ne_some]
  intro e he
  have hmem := mem_of_get? he
  have hapart := apart_of_not_hasOverlap (v := e.value) h e hmem
  have hstart := m.keyed _ _ he
  have hproper := start_lt_stop hmem
  unfold Interval.Apart at hapart
  simp only at hapart
  omega

theorem insert_map (start stop : ℕ) (v : V) :
    insert m.map start stop v =
      match m.insert start stop v with
      | .ok m' => (.ok none, m'.map)
      | .error e => (.error e, m.map) := by
  unfold insert MapleTree.insert
  by_cases hrange : stop ≤ start
  · rw [if_pos hrange, dif_pos hrange]
  rw [if_neg hrange, dif_neg hrange]
  by_cases hover : m.hasOverlap start stop
  · rw [if_pos (show hasOverlap m.map start stop = true from hover), dif_pos hover]
  · rw [if_neg (show ¬ hasOverlap m.map start stop = true from hover), dif_neg hover,
      get?_start_eq_none m (not_le.1 hrange) hover]
    rfl

theorem insert_ok_map {v : V} {m' : MapleTree V} (h : m.insert start stop v = .ok m') :
    insert m.map start stop v = (.ok none, m'.map) := by
  rw [insert_map, h]

theorem remove_map (start : ℕ) :
    remove m.map start = ((m.map.get? start).map fun e => (e.stop, e.value), (m.erase start).map) :=
  rfl

theorem sound_insert (start stop : ℕ) (v : V) : Sound (insert m.map start stop v).2 := by
  rw [insert_map, sound_iff]
  split
  · exact ⟨_, rfl⟩
  · exact ⟨_, rfl⟩

theorem sound_updateEnd (start newEnd : ℕ) : Sound (updateEnd m.map start newEnd).2 := by
  unfold updateEnd
  rw [remove_map]
  cases m.map.get? start with
  | none => exact sound_iff.2 ⟨_, rfl⟩
  | some e =>
    simp only [Option.map_some]
    have hinsert := sound_insert (m.erase start) start newEnd e.value
    split
    · exact sound_insert _ _ _ _
    split
    · rename_i heq
      rwa [heq] at hinsert
    · rename_i heq
      rwa [heq] at hinsert

theorem replace_map (start stop : ℕ) (v : V) :
    (replace m.map start stop v).1.map (fun _ => ()) = (m.replace start stop v).1 ∧
      (replace m.map start stop v).2 = (m.replace start stop v).2.map := by
  unfold replace MapleTree.replace
  simp only [remove_map, MapleTree.remove, insert_map]
  cases MapleTree.insert (m.erase start) start stop v with
  | ok m2 => exact ⟨rfl, rfl⟩
  | error e =>
    cases m.map.get? start with
    | none => exact ⟨rfl, rfl⟩
    | some a =>
      simp only [Option.map_some]
      rw [insert_map]
      cases MapleTree.insert (m.erase start) start a.stop a.value <;> exact ⟨rfl, rfl⟩

theorem any_other_iff (oldStart newStart stop : ℕ) :
    (iter m.map).any (fun e => e.start ≠ oldStart ∧ e.Meets newStart stop) =
      MapleTree.hasOverlap (m.erase oldStart) newStart stop := by
  show m.toList.any _ = _
  rw [Bool.eq_iff_iff]
  simp only [MapleTree.hasOverlap, any_eq_true, decide_eq_true_eq,
    mem_toList, mem_erase, and_assoc]

theorem moveStart_map (oldStart newStart : ℕ) :
    (moveStart m.map oldStart newStart).1.map (fun _ => ()) = (m.moveStart oldStart newStart).1 ∧
      (moveStart m.map oldStart newStart).2 = (m.moveStart oldStart newStart).2.map := by
  unfold moveStart MapleTree.moveStart
  cases m.map.get? oldStart with
  | none => exact ⟨rfl, rfl⟩
  | some a =>
    simp only [any_other_iff]
    by_cases hle : a.stop ≤ newStart
    · rw [if_pos hle, if_pos hle]
      exact ⟨rfl, rfl⟩
    rw [if_neg hle, if_neg hle, MapleTree.insert, dif_neg hle]
    by_cases hover : MapleTree.hasOverlap (m.erase oldStart) newStart a.stop
    · rw [if_pos hover, dif_pos hover]
      exact ⟨rfl, rfl⟩
    · rw [if_neg hover, dif_neg hover]
      exact ⟨rfl, rfl⟩

/-! ### Refused edits -/

/-- `update_end` to an end at or below the start loses the interval; a call that
is refused for another reason changes nothing. -/
theorem updateEnd_refused {e : MapleInsertError} {newEnd : ℕ}
    (h : (updateEnd m.map start newEnd).1 = .error e) :
    (updateEnd m.map start newEnd).2 = m.map ↔ (newEnd ≤ start → m.map.get? start = none) := by
  unfold updateEnd at h ⊢
  rw [remove_map] at h ⊢
  cases hget : m.map.get? start with
  | none => exact iff_of_true (erase_eq_self hget) fun _ => rfl
  | some a =>
    simp only [hget, Option.map_some] at h ⊢
    by_cases hle : newEnd ≤ start
    · have hfree : ¬ hasOverlap (m.erase start).map start newEnd = true := by
        refine Bool.eq_false_iff.1 (MapleTree.hasOverlap_eq_false.2 fun b hb hmeets => ?_)
        obtain ⟨hb, hne⟩ := mem_erase.1 hb
        have hstart := m.keyed start a hget
        have hapart := apart_of_ne (mem_of_get? hget) hb fun heq => hne (heq ▸ hstart)
        have hproper := start_lt_stop (mem_of_get? hget)
        unfold Interval.Meets Interval.Apart at *
        omega
      rw [if_neg hfree, insert, if_pos hle]
      refine iff_of_false (fun heq => ?_) fun hnone => nomatch hnone hle
      have hgone := congrArg (OrdMap.get? · start) heq
      rw [hget] at hgone
      cases (get?_erase_self ..).symm.trans hgone
    · refine iff_of_true ?_ fun hle' => absurd hle' hle
      by_cases hover : hasOverlap (m.erase start).map start newEnd = true
      · obtain rfl := m.keyed start a hget
        rw [if_pos hover, insert_ok_map _ (insert_erase_self (mem_of_get? hget))]
      · rw [if_neg hover, insert, if_neg hle, if_neg hover] at h
        cases h

/-! ### Removing what meets a range -/

theorem takeEach_map (keys : List ℕ) : (takeEach m.map keys).2 = (m.eraseAll keys).map := by
  induction keys generalizing m with
  | nil => rfl
  | cons k keys ih =>
    have hrest := ih (m.erase k)
    unfold takeEach
    rw [IntervalMap.eraseAll, ← hrest]
    cases m.map.get? k <;> rfl

theorem takeEach_removed {l : List (ℕ × Interval V)} (hl : SortedKV l)
    (h : ∀ e ∈ l, t.get? e.1 = some e.2) : (t.takeEach (l.map Prod.fst)).1 = l := by
  induction l generalizing t with
  | nil => rfl
  | cons e l ih =>
    obtain ⟨hlt, hl⟩ := pairwise_cons.1 hl
    have hrest := ih (t := t.erase e.1) hl fun e' he' => by
      rw [get?_erase_ne _ (hlt e' he').ne']
      exact h e' (mem_cons_of_mem e he')
    rw [map_cons, takeEach, h e mem_cons_self]
    simp only [hrest]

def clear (start stop : ℕ) : MapleTree V := m.eraseAll (overlapping m.map start stop)

theorem takeEach_overlapping (start stop : ℕ) :
    takeEach m.map (overlapping m.map start stop) =
      (m.map.entries.filter fun e => e.2.Meets start stop, (clear m start stop).map) := by
  refine Prod.ext ?_ (takeEach_map m _)
  exact takeEach_removed (m.map.sorted.filter _) fun _ he =>
    mem_entries_iff.1 (mem_of_mem_filter he)

theorem mem_overlapping {m : MapleTree V} {k : ℕ} :
    k ∈ overlapping m.map start stop ↔ ∃ a ∈ m, a.start = k ∧ a.Meets start stop := by
  simp only [overlapping, mem_map, mem_filter, decide_eq_true_eq, Prod.exists,
    exists_and_right, exists_eq_right]
  constructor
  · rintro ⟨a, ha, hmeets⟩
    have hget := mem_entries_iff.1 ha
    exact ⟨a, mem_of_get? hget, m.keyed _ _ hget, hmeets⟩
  · rintro ⟨a, ha, rfl, hmeets⟩
    exact ⟨a, mem_entries_iff.2 ha, hmeets⟩

theorem mem_clear {m : MapleTree V} : b ∈ clear m start stop ↔ b ∈ m ∧ ¬ b.Meets start stop := by
  rw [clear, mem_eraseAll, mem_overlapping]
  refine and_congr_right fun hb => not_congr ⟨?_, fun hmeets => ⟨b, hb, rfl, hmeets⟩⟩
  rintro ⟨a, ha, hstart, hmeets⟩
  rwa [← eq_of_start_eq ha hb hstart]

theorem meeting_map (start stop : ℕ) :
    ((m.map.entries.filter fun e => e.2.Meets start stop).map Prod.snd) = m.meeting start stop := by
  rw [IntervalMap.meeting, IntervalMap.toList, filter_map]
  rfl

/-- An interval put in the place of those that meet it. -/
def overwrite {start stop : ℕ} (h : start < stop) (v : V) : MapleTree V :=
  (clear m start stop).add ⟨start, stop, v⟩ h fun _ hb => not_not.1 (mem_clear.1 hb).2

theorem mem_overwrite {m : MapleTree V} {h : start < stop} {v : V} :
    b ∈ overwrite m h v ↔ b = ⟨start, stop, v⟩ ∨ b ∈ m ∧ ¬ b.Meets start stop := by
  rw [overwrite, mem_add, mem_clear]

/-- `insert_overwrite` puts the interval in the place of those that meet it and
returns them. -/
theorem insertOverwrite_map (h : start < stop) (v : V) :
    insertOverwrite m.map start stop v = (.ok (m.meeting start stop), (overwrite m h v).map) := by
  have hins := insert_ok_map (clear m start stop)
    (insert_eq_ok (v := v) h fun b hb => not_not.1 (mem_clear.1 hb).2)
  have hkeys : ∀ e ∈ m.map.entries.filter fun e => e.2.Meets start stop,
      (⟨e.1, e.2.stop, e.2.value⟩ : Interval V) = e.2 := fun e he => by
    rw [← m.keyed _ _ (mem_entries_iff.1 (mem_of_mem_filter he))]
  rw [insertOverwrite, if_neg (not_le.2 h), takeEach_overlapping]
  simp only [hins, map_congr_left hkeys, meeting_map]
  rfl

/-- After `insert_overwrite` the range has the new value, and what else belonged
to an interval that met the range has none. -/
theorem value?_overwrite (h : start < stop) (v : V) (p : ℕ) :
    (overwrite m h v).value? p =
      if start ≤ p ∧ p < stop then some v
      else if ∃ a ∈ m.meeting start stop, a.Contains p then none
      else m.value? p := by
  split
  · rename_i hp
    exact value?_eq_some.2 ⟨⟨start, stop, v⟩, mem_overwrite.2 (.inl rfl), hp, rfl⟩
  rename_i hp
  split
  · rename_i hremoved
    obtain ⟨a, ha, hap⟩ := hremoved
    obtain ⟨ham, hmeets⟩ := mem_meeting.1 ha
    refine value?_eq_none.2 fun b hb hbp => ?_
    rcases mem_overwrite.1 hb with rfl | ⟨hbm, hnot⟩
    · exact hp hbp
    · rw [eq_of_contains hbm ham hbp hap] at hnot
      exact hnot hmeets
  · rename_i hkept
    refine value?_congr fun w => exists_congr fun b => ?_
    rw [mem_overwrite]
    constructor
    · rintro ⟨rfl | ⟨hb, -⟩, hbp, hw⟩
      · exact absurd hbp hp
      · exact ⟨hb, hbp, hw⟩
    · rintro ⟨hb, hbp, hw⟩
      refine ⟨.inr ⟨hb, fun hmeets => hkept ⟨b, ?_, hbp⟩⟩, hbp, hw⟩
      exact mem_meeting.2 ⟨hb, hmeets⟩

/-- What `insert_overwrite` does to a tree: an empty range is refused; otherwise
the intervals that meet the range are removed as a whole and returned, the range
has the new value, and all other points keep theirs. -/
def Overwrites (t : Ranges V) (start stop : ℕ) (v : V) : Prop :=
  if start < stop then
    ∃ removed t', t.insertOverwrite start stop v = (.ok removed, t') ∧
      (∀ a, a ∈ removed ↔ t.get? a.start = some a ∧ a.Meets start stop) ∧
      ∀ p, t'.valueAt p =
        if start ≤ p ∧ p < stop then some v
        else if ∃ a ∈ removed, a.Contains p then none
        else t.valueAt p
  else t.insertOverwrite start stop v = (.error .invalidRange, t)

theorem overwrites_map (start stop : ℕ) (v : V) : Overwrites m.map start stop v := by
  unfold Overwrites
  split
  · rename_i hlt
    exact ⟨_, _, insertOverwrite_map m hlt v, fun a => mem_meeting,
      value?_overwrite m hlt v⟩
  · rename_i hle
    rw [insertOverwrite, if_pos (not_lt.1 hle)]

/-! ### Splitting and merging -/

theorem splitAt_map (point : ℕ) :
    ∃ m' : MapleTree V, (splitAt m.map point).2 = m'.map ∧ ∀ p, m'.value? p = m.value? p := by
  unfold splitAt
  split
  · rename_i start e hfind
    have hget := mem_entries_iff.1 (mem_of_find?_eq_some hfind)
    have hin : e.start < point ∧ point < e.stop := by simpa using find?_some hfind
    have hstart : e.start = start := m.keyed _ _ hget
    subst hstart
    have hmem : e ∈ m := mem_of_get? hget
    -- the two halves lie inside the interval that was removed
    have hlow : ∀ b ∈ m.erase e.start, (⟨e.start, point, e.value⟩ : Interval V).Apart b := by
      intro b hb
      obtain ⟨hb, hne⟩ := mem_erase.1 hb
      have hapart := apart_of_ne hmem hb fun heq => hne (heq ▸ rfl)
      exact hapart.within ⟨le_rfl, hin.2.le⟩
    have hfirst := insert_eq_ok (v := e.value) hin.1 hlow
    set m1 := (m.erase e.start).add ⟨e.start, point, e.value⟩ hin.1 hlow
    have hhigh : ∀ b ∈ m1, (⟨point, e.stop, e.value⟩ : Interval V).Apart b := by
      intro b hb
      rcases mem_add.1 hb with rfl | hb
      · exact .inr le_rfl
      · obtain ⟨hb, hne⟩ := mem_erase.1 hb
        have hapart := apart_of_ne hmem hb fun heq => hne (heq ▸ rfl)
        exact hapart.within ⟨hin.1.le, le_rfl⟩
    have hsecond := insert_eq_ok (v := e.value) hin.2 hhigh
    refine ⟨m1.add ⟨point, e.stop, e.value⟩ hin.2 hhigh, ?_, fun p => ?_⟩
    · rw [remove_map, hget]
      simp only [Option.map_some, insert_ok_map _ hfirst, insert_ok_map _ hsecond]
    · refine value?_congr fun w => ?_
      simp only [mem_add, m1, mem_erase]
      constructor
      · rintro ⟨b, rfl | rfl | ⟨hb, -⟩, hbp, hw⟩
        · exact ⟨e, hmem, ⟨hin.1.le.trans hbp.1, hbp.2⟩, hw⟩
        · exact ⟨e, hmem, ⟨hbp.1, lt_trans hbp.2 hin.2⟩, hw⟩
        · exact ⟨b, hb, hbp, hw⟩
      · rintro ⟨b, hb, hbp, hw⟩
        by_cases hstart : b.start = e.start
        · obtain rfl := eq_of_start_eq hb hmem hstart
          rcases lt_or_ge p point with hlt | hge
          · exact ⟨_, .inr (.inl rfl), ⟨hbp.1, hlt⟩, hw⟩
          · exact ⟨_, .inl rfl, ⟨hge, hbp.2⟩, hw⟩
        · exact ⟨b, .inr (.inr ⟨hb, hstart⟩), hbp, hw⟩
  · exact ⟨m, rfl, fun p => rfl⟩

theorem insertionSort_iter :
    (iter m.map).insertionSort (fun a b => a.start ≤ b.start) = m.toList := by
  refine List.Pairwise.insertionSort_eq ?_
  refine pairwise_map.2 (m.map.sorted.imp_of_mem fun {x y} hx hy hlt => ?_)
  rw [m.keyed _ _ (mem_entries_iff.1 hx), m.keyed _ _ (mem_entries_iff.1 hy)]
  exact hlt.le

theorem exists_joined (ha : a ∈ m) (hb : b ∈ m) (htouch : a.stop = b.start)
    (hvalue : a.value = b.value) :
    ∃ m' : MapleTree V,
      MapleTree.insert ((m.erase a.start).erase b.start) a.start b.stop a.value = .ok m' ∧
      m'.map.entries.length + 1 = m.map.entries.length ∧ ∀ p, m'.value? p = m.value? p := by
  have halt := start_lt_stop ha
  have hblt := start_lt_stop hb
  have hne : b.start ≠ a.start := by omega
  have hapart : ∀ c ∈ (m.erase a.start).erase b.start,
      (⟨a.start, b.stop, a.value⟩ : Interval V).Apart c := by
    intro c hc
    obtain ⟨hc, hcb⟩ := mem_erase.1 hc
    obtain ⟨hc, hca⟩ := mem_erase.1 hc
    have h1 := apart_of_ne ha hc fun heq => hca (heq ▸ rfl)
    have h2 := apart_of_ne hb hc fun heq => hcb (heq ▸ rfl)
    have hclt := start_lt_stop hc
    unfold Interval.Apart at *
    simp only
    omega
  have hlt : a.start < b.stop := by omega
  refine ⟨_, insert_eq_ok hlt hapart, ?_, fun p => ?_⟩
  · have hget : (m.map.erase a.start).get? b.start = some b := by
      rw [get?_erase_ne _ hne]
      exact hb
    have hnone : ((m.map.erase a.start).erase b.start).get? a.start = none := by
      rw [get?_erase_ne _ hne.symm, get?_erase_self]
    have hpos : 1 < m.map.entries.length := by
      have hsum := add_le_sum (f := fun _ _ => 1) ha hb hne.symm
      rw [← length_entries] at hsum
      exact hsum
    show (((m.map.erase a.start).erase b.start).insert a.start _).entries.length + 1 = _
    rw [OrdMap.length_insert, hnone, Option.isNone_none, if_pos rfl, length_erase hget,
      length_erase ha]
    omega
  · refine value?_congr fun w => ?_
    simp only [mem_add, mem_erase]
    constructor
    · rintro ⟨c, rfl | ⟨⟨hc, -⟩, -⟩, hcp, hw⟩
      · rcases lt_or_ge p a.stop with hp | hp
        · exact ⟨a, ha, ⟨hcp.1, hp⟩, hw⟩
        · exact ⟨b, hb, ⟨htouch ▸ hp, hcp.2⟩, hvalue ▸ hw⟩
      · exact ⟨c, hc, hcp, hw⟩
    · rintro ⟨c, hc, hcp, hw⟩
      by_cases hca : c.start = a.start
      · obtain rfl := eq_of_start_eq hc ha hca
        exact ⟨_, .inl rfl, ⟨hcp.1, by have := hcp.2; simp only; omega⟩, hw⟩
      by_cases hcb : c.start = b.start
      · obtain rfl := eq_of_start_eq hc hb hcb
        exact ⟨_, .inl rfl, ⟨by have := hcp.1; simp only; omega, hcp.2⟩, hvalue.trans hw⟩
      · exact ⟨c, .inr ⟨⟨hc, hca⟩, hcb⟩, hcp, hw⟩

section Merge

variable [DecidableEq V]

variable {l : List (Interval V)}

theorem touching_eq_none :
    touching l = none ↔ l.IsChain fun a b => ¬ (a.stop = b.start ∧ a.value = b.value) := by
  induction l with
  | nil => simp [touching]
  | cons a l ih =>
    cases l with
    | nil => simp [touching]
    | cons b rest =>
      rw [touching, isChain_cons_cons, ← ih]
      split <;> simp_all

theorem touching_eq_some (h : touching l = some (a, b)) :
    a ∈ l ∧ b ∈ l ∧ a.stop = b.start ∧ a.value = b.value := by
  induction l with
  | nil => cases h
  | cons c l ih =>
    obtain _ | ⟨d, rest⟩ := l
    · cases h
    rw [touching] at h
    split at h
    · rename_i heq
      cases h
      exact ⟨by simp, by simp, heq⟩
    · obtain ⟨ha, hb, heq⟩ := ih h
      exact ⟨mem_cons_of_mem c ha, mem_cons_of_mem c hb, heq⟩

/-- The loop of `merge_adjacent_equal` keeps the invariant and the value of
every point, and stops when nothing is left to merge. -/
theorem mergeLoop_map (fuel : ℕ) (hfuel : m.map.entries.length ≤ fuel) :
    ∃ m' : MapleTree V, (mergeLoop fuel m.map).2 = m'.map ∧ touching m'.toList = none ∧
      ∀ p, m'.value? p = m.value? p := by
  induction fuel generalizing m with
  | zero =>
    have hnil : m.map.entries = [] := length_eq_zero_iff.1 (Nat.le_zero.1 hfuel)
    refine ⟨m, rfl, ?_, fun p => rfl⟩
    rw [IntervalMap.toList, hnil]
    rfl
  | succ fuel ih =>
    rw [mergeLoop, insertionSort_iter]
    cases htouching : touching m.toList with
    | none => exact ⟨m, rfl, htouching, fun p => rfl⟩
    | some ab =>
      obtain ⟨a, b⟩ := ab
      obtain ⟨ha, hb, htouch, hvalue⟩ := touching_eq_some htouching
      have ha := mem_toList.1 ha
      have hb := mem_toList.1 hb
      obtain ⟨m1, hins, hlen, hpoints⟩ := exists_joined m ha hb htouch hvalue
      obtain ⟨m2, hmap, hnone, hrest⟩ := ih m1 (by omega)
      refine ⟨m2, ?_, hnone, fun p => (hrest p).trans (hpoints p)⟩
      rw [← hmap]
      simp only [remove_map, mem_iff.1 ha, Option.map_some,
        insert_ok_map _ hins]

theorem mergeAdjacentEqual_map :
    ∃ m' : MapleTree V, (mergeAdjacentEqual m.map).2 = m'.map ∧ touching m'.toList = none ∧
      ∀ p, m'.value? p = m.value? p :=
  mergeLoop_map m _ le_rfl

/-- No two intervals that touch carry the same value. -/
def Merged (t : Ranges V) : Prop :=
  ∀ k a l b, t.get? k = some a → t.get? l = some b → a.stop = b.start → a.value ≠ b.value

/-- Neighbours in the list are the only intervals that touch. -/
theorem merged_of_touching (h : touching m.toList = none) : Merged m.map := by
  intro k a l b ha hb htouch hvalue
  have hsorted := m.toList_sorted
  have hchain := touching_eq_none.1 h
  have ha := mem_of_get? ha
  have hb := mem_of_get? hb
  have halt := start_lt_stop ha
  have hblt := start_lt_stop hb
  obtain ⟨before, after, hlist⟩ := append_of_mem (mem_toList.2 ha)
  have hb' := mem_toList.2 hb
  rw [hlist] at hsorted hchain hb'
  rw [pairwise_append, pairwise_cons] at hsorted
  rcases mem_append.1 hb' with hbefore | hafter
  · have := hsorted.2.2 b hbefore a mem_cons_self
    omega
  rcases mem_cons.1 hafter with rfl | hafter
  · omega
  -- nothing fits between `a` and an interval that starts where it stops
  obtain _ | ⟨c, rest⟩ := after
  · cases hafter
  rcases mem_cons.1 hafter with rfl | hrest
  · have hpair := isChain_cons_cons.1 hchain.right_of_append
    exact hpair.1 ⟨htouch, hvalue⟩
  have hac := hsorted.2.1.1 c mem_cons_self
  have hcb := (pairwise_cons.1 hsorted.2.1.2).1 b hrest
  have hc : c ∈ m := mem_toList.1 (by rw [hlist]; simp)
  have hclt := start_lt_stop hc
  omega

end Merge

/-! ### Runs -/

section Runs

variable [DecidableEq V]

theorem sound_step (h : Sound t) (op : Op V) : Sound (t.step op) := by
  obtain ⟨m, rfl⟩ := sound_iff.1 h
  cases op with
  | insert start stop v => exact sound_insert m start stop v
  | insertOverwrite start stop v =>
    rcases lt_or_ge start stop with hlt | hle
    · rw [step, insertOverwrite_map m hlt]
      exact sound_iff.2 ⟨_, rfl⟩
    · rw [step, insertOverwrite, if_pos hle]
      exact h
  | remove start => exact sound_iff.2 ⟨m.erase start, rfl⟩
  | updateEnd start newEnd => exact sound_updateEnd m start newEnd
  | replace start stop v => exact sound_iff.2 ⟨_, (replace_map m start stop v).2.symm⟩
  | moveStart oldStart newStart =>
    exact sound_iff.2 ⟨_, (moveStart_map m oldStart newStart).2.symm⟩
  | splitAt point =>
    obtain ⟨m', hmap, -⟩ := splitAt_map m point
    exact sound_iff.2 ⟨m', hmap.symm⟩
  | mergeAdjacentEqual =>
    obtain ⟨m', hmap, -⟩ := mergeAdjacentEqual_map m
    exact sound_iff.2 ⟨m', hmap.symm⟩
  | removeIntersecting start stop =>
    rw [step, removeIntersecting, takeEach_overlapping]
    exact sound_iff.2 ⟨clear m start stop, rfl⟩

/-- Every list of calls on the empty tree keeps the invariant. -/
theorem sound_after (ops : List (Op V)) : Sound (after ops) :=
  foldlRecOn ops step (sound_iff.2 ⟨MapleTree.new, rfl⟩) fun _ h op _ => sound_step h op

/-- After any list of calls on the empty tree the intervals are non-empty,
disjoint and stored under their starts; `find` gives the one interval that
contains a point; `insert_overwrite` acts as `Overwrites` says; `split_at` and
`merge_adjacent_equal` keep the value of every point, and merging leaves no two
equal intervals that touch. -/
theorem ranges_disjoint (ops : List (Op V)) :
    Sound (after ops) ∧
      (∀ p a, (after ops).find p = some a ↔
        (after ops).get? a.start = some a ∧ a.Contains p) ∧
      (∀ p a b, (after ops).get? a.start = some a → (after ops).get? b.start = some b →
        a.Contains p → b.Contains p → a = b) ∧
      (∀ start stop v, Overwrites (after ops) start stop v) ∧
      (∀ point p, ((after ops).splitAt point).2.valueAt p = (after ops).valueAt p) ∧
      (∀ p, (after ops).mergeAdjacentEqual.2.valueAt p = (after ops).valueAt p) ∧
      Merged (after ops).mergeAdjacentEqual.2 := by
  have hsound := sound_after ops
  obtain ⟨m, hm⟩ := sound_iff.1 hsound
  rw [← hm]
  obtain ⟨m1, hmerge, hnone, hpoints⟩ := mergeAdjacentEqual_map m
  refine ⟨hm ▸ hsound, fun p a => at?_eq_some,
    fun p a b ha hb => eq_of_contains ha hb, overwrites_map m, ?_, ?_, ?_⟩
  · intro point p
    obtain ⟨m2, hsplit, hsame⟩ := splitAt_map m point
    rw [hsplit]
    exact hsame p
  · intro p
    rw [hmerge]
    exact hpoints p
  · rw [hmerge]
    exact merged_of_touching m1 hnone

/-- An edit that is refused leaves the tree as it was, unless it is `update_end`
of an interval to an end at or below its start. -/
theorem refused_edit_unchanged_iff (h : Sound t) {op : Op V} {e : MapleInsertError}
    (hrefused : t.answer op = .error e) :
    t.step op = t ↔ ∀ start newEnd, op = .updateEnd start newEnd → newEnd ≤ start →
      t.get? start = none := by
  obtain ⟨m, rfl⟩ := sound_iff.1 h
  cases op with
  | updateEnd start newEnd =>
    rw [step, updateEnd_refused m hrefused]
    exact ⟨fun hnone _ _ heq => by cases heq; exact hnone, fun hnone => hnone start newEnd rfl⟩
  | insert start stop v =>
    refine iff_of_true ?_ nofun
    rw [answer, insert_map] at hrefused
    rw [step, insert_map]
    cases hins : m.insert start stop v with
    | ok m' => rw [hins] at hrefused; cases hrefused
    | error e => rfl
  | insertOverwrite start stop v =>
    refine iff_of_true ?_ nofun
    rcases lt_or_ge start stop with hlt | hle
    · rw [answer, insertOverwrite_map m hlt] at hrefused
      cases hrefused
    · rw [step, insertOverwrite, if_pos hle]
  | replace start stop v =>
    obtain ⟨hanswer, hmap⟩ := replace_map m start stop v
    have hsame := replace_error (hanswer.symm.trans hrefused)
    exact iff_of_true (hmap.trans (congrArg _ hsame)) nofun
  | moveStart oldStart newStart =>
    obtain ⟨hanswer, hmap⟩ := moveStart_map m oldStart newStart
    have hsame := moveStart_error (hanswer.symm.trans hrefused)
    exact iff_of_true (hmap.trans (congrArg _ hsame)) nofun
  | remove _ | splitAt _ | mergeAdjacentEqual | removeIntersecting _ _ => cases hrefused

/-- `replace` has removed the old interval when it is refused, and puts it back. -/
theorem refused_edit_unchanged_overlap :
    step (after [Op.insert 0 10 true, .insert 20 30 false]) (.replace 0 25 false) =
      after [Op.insert 0 10 true, .insert 20 30 false] :=
  (refused_edit_unchanged_iff (sound_after _) (e := .overlap) (by decide)).2 nofun

/-- The interval is gone, and the call says that its arguments are wrong. -/
theorem update_end_loses_interval :
    answer (after [Op.insert 0 10 true]) (.updateEnd 0 0) = .error .invalidRange ∧
      (after [Op.insert 0 10 true]).get? 0 = some ⟨0, 10, true⟩ ∧
      (after [Op.insert 0 10 true, .updateEnd 0 0]).get? 0 = none :=
  ⟨rfl, by decide, by decide⟩

/-- Overwriting the middle of an interval removes the value of its first point
too. -/
theorem overwrite_removes_outside :
    (after [Op.insert 0 10 true]).valueAt 0 = some true ∧
      (after [Op.insert 0 10 true, .insertOverwrite 3 5 false]).valueAt 0 = none := by
  decide

end Runs

end Ranges

end JanuaryOs.Libs.Mptree

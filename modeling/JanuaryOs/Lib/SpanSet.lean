import JanuaryOs.Lib.Memory

/-!
# Sets of addresses, kept as lists of spans

A list is *separated* if its spans are not empty, come in ascending order, and
do not even touch. Such a list has no choice: its members are the maximal
intervals of the set it covers (`Separated.mem_iff`). So an operation on lists
is right if its result is separated and covers the right addresses. `holes` is
what a list of spans leaves of a span.
-/

namespace JanuaryOs.Lib

open List

/-! ### Separated lists -/

def Covered (l : List Span) (x : ℕ) : Prop := ∃ s ∈ l, s.Has x
deriving Decidable

theorem not_covered_nil (x : ℕ) : ¬ Covered [] x := nofun

variable {s : Span} {x : ℕ} {l : List Span}

theorem covered_cons : Covered (s :: l) x ↔ s.Has x ∨ Covered l x := by
  simp only [Covered, mem_cons, or_and_right, exists_or, exists_eq_left]

theorem covered_append {l1 l2 : List Span} :
    Covered (l1 ++ l2) x ↔ Covered l1 x ∨ Covered l2 x := by
  simp only [Covered, mem_append, or_and_right, exists_or]

/-- Spans that are not empty, in ascending order, with gaps between them. -/
def Separated (l : List Span) : Prop :=
  (∀ s ∈ l, s.start < s.stop) ∧ l.Pairwise fun a b => a.stop < b.start

theorem separated_nil : Separated [] := ⟨nofun, .nil⟩

theorem separated_cons :
    Separated (s :: l) ↔ s.start < s.stop ∧ (∀ a ∈ l, s.stop < a.start) ∧ Separated l := by
  simp only [Separated, forall_mem_cons, pairwise_cons]
  exact ⟨fun h => ⟨h.1.1, h.2.1, h.1.2, h.2.2⟩, fun h => ⟨⟨h.1, h.2.2.1⟩, h.2.1, h.2.2.2⟩⟩

theorem separated_append {l1 l2 : List Span} :
    Separated (l1 ++ l2) ↔ Separated l1 ∧ Separated l2 ∧ ∀ a ∈ l1, ∀ b ∈ l2, a.stop < b.start := by
  simp only [Separated, forall_mem_append, pairwise_append]
  exact ⟨fun h => ⟨⟨h.1.1, h.2.1⟩, ⟨h.1.2, h.2.2.1⟩, h.2.2.2⟩,
    fun h => ⟨⟨h.1.1, h.2.1.1⟩, h.1.2, h.2.1.2, h.2.2⟩⟩

/-- A maximal interval of a set. -/
structure IsComponent (S : ℕ → Prop) (s : Span) : Prop where
  nonempty : s.start < s.stop
  subset : ∀ x, s.Has x → S x
  before : ∀ x, x + 1 = s.start → ¬ S x
  after : ¬ S s.stop

theorem IsComponent.congr {S T : ℕ → Prop} (h : ∀ x, S x ↔ T x) :
    IsComponent S s ↔ IsComponent T s := by
  rw [show S = T from funext fun x => propext (h x)]

theorem Separated.apart (hl : Separated l) {a b : Span} (ha : a ∈ l) (hb : b ∈ l) (hne : a ≠ b) :
    a.stop < b.start ∨ b.stop < a.start := by
  have : Std.Symm fun a b : Span => a.stop < b.start ∨ b.stop < a.start := ⟨fun _ _ => Or.symm⟩
  have hpair : l.Pairwise fun a b => a.stop < b.start ∨ b.stop < a.start := hl.2.imp Or.inl
  exact hpair.forall ha hb hne

theorem Separated.isComponent (hl : Separated l) (hs : s ∈ l) : IsComponent (Covered l) s where
  nonempty := hl.1 s hs
  subset x hx := ⟨s, hs, hx⟩
  before x hx := by
    rintro ⟨a, ha, hxa⟩
    simp only [Span.Has] at hxa
    have hpos := hl.1 s hs
    have hne : a ≠ s := by
      rintro rfl
      omega
    have hgap := hl.apart ha hs hne
    omega
  after := by
    rintro ⟨a, ha, hxa⟩
    simp only [Span.Has] at hxa
    have hpos := hl.1 s hs
    have hne : a ≠ s := by
      rintro rfl
      omega
    have hgap := hl.apart ha hs hne
    omega

theorem IsComponent.eq_of_has {S : ℕ → Prop} {a b : Span} (ha : IsComponent S a)
    (hb : IsComponent S b) (hxa : a.Has x) (hxb : b.Has x) : a = b := by
  -- neither can end, or start, inside the other
  have hends : ∀ {a b : Span}, IsComponent S a → IsComponent S b → a.Has x → b.Has x →
      a.stop ≤ b.stop ∧ b.start ≤ a.start := by
    intro a b ha hb hxa hxb
    constructor
    · by_contra hlt
      exact hb.after (ha.subset _ ⟨hxa.1.trans (hxb.2.le), by omega⟩)
    · by_contra hlt
      refine hb.before (b.start - 1) (by omega) (ha.subset _ ⟨by omega, ?_⟩)
      have := hxb.1
      have := hxa.2
      omega
  have h1 := hends ha hb hxa hxb
  have h2 := hends hb ha hxb hxa
  cases a
  cases b
  simp only [Span.mk.injEq] at h1 h2 ⊢
  omega

/-- The spans of a separated list are the maximal intervals of what it covers. -/
theorem Separated.mem_iff (hl : Separated l) : s ∈ l ↔ IsComponent (Covered l) s := by
  refine ⟨hl.isComponent, fun hs => ?_⟩
  have hhas : s.Has s.start := ⟨le_rfl, hs.nonempty⟩
  obtain ⟨a, ha, hx⟩ := hs.subset _ hhas
  rwa [hs.eq_of_has (hl.isComponent ha) hhas hx]

/-- Addresses that are covered without a gap are covered by one span. -/
theorem Separated.exists_span (hl : Separated l) {lo hi : ℕ} (hlt : lo < hi)
    (h : ∀ x, lo ≤ x → x < hi → Covered l x) : ∃ s ∈ l, s.start ≤ lo ∧ hi ≤ s.stop := by
  obtain ⟨s, hs, hx⟩ := h lo le_rfl hlt
  refine ⟨s, hs, hx.1, ?_⟩
  by_contra hstop
  exact (hl.isComponent hs).after (h s.stop hx.2.le (by omega))

/-- Separated spans below a bound have no more addresses than there are. -/
theorem Separated.sum_le {lo hi : ℕ} (hl : Separated l) (hlo : ∀ s ∈ l, lo ≤ s.start)
    (hhi : ∀ s ∈ l, s.stop ≤ hi) (hle : lo ≤ hi) :
    (l.map fun s => s.stop - s.start).sum ≤ hi - lo := by
  induction l generalizing lo with
  | nil => exact Nat.zero_le _
  | cons s l ih =>
    obtain ⟨hpos, hgap, hl⟩ := separated_cons.1 hl
    have hs := hlo s mem_cons_self
    have hs' := hhi s mem_cons_self
    have hrest := ih hl (fun a ha => (hgap a ha).le)
      (fun a ha => hhi a (mem_cons_of_mem _ ha)) hs'
    rw [map_cons, sum_cons]
    omega

/-! ### What is left of a span -/

/-- The parts of the addresses from `start` up to `stop` that a list of spans
leaves. -/
def holes (stop : ℕ) : List Span → ℕ → List Span
  | [], start => if start < stop then [⟨start, stop⟩] else []
  | s :: l, start =>
    if stop ≤ s.start then if start < stop then [⟨start, stop⟩] else []
    else if s.stop ≤ start then holes stop l start
    else
      (if start < s.start then [⟨start, s.start⟩] else []) ++ holes stop l (max start s.stop)

section Part

variable {lo hi : ℕ} {a : Span}

theorem mem_part : a ∈ (if lo < hi then [⟨lo, hi⟩] else []) ↔ lo < hi ∧ a = ⟨lo, hi⟩ := by
  split <;> simp [*]

theorem separated_part : Separated (if lo < hi then [⟨lo, hi⟩] else []) := by
  split
  · exact separated_cons.2 ⟨‹_›, nofun, separated_nil⟩
  · exact separated_nil

theorem covered_part : Covered (if lo < hi then [⟨lo, hi⟩] else []) x ↔ lo ≤ x ∧ x < hi := by
  simp only [Covered, mem_part, and_assoc, exists_and_left, exists_eq_left, Span.Has]
  omega

end Part

theorem holes_within {stop start : ℕ} {a : Span} (ha : a ∈ holes stop l start) :
    start ≤ a.start ∧ a.start < a.stop ∧ a.stop ≤ stop := by
  induction l generalizing start with
  | nil =>
    obtain ⟨hlt, rfl⟩ := mem_part.1 ha
    exact ⟨le_rfl, hlt, le_rfl⟩
  | cons s l ih =>
    rw [holes] at ha
    split at ha
    · obtain ⟨hlt, rfl⟩ := mem_part.1 ha
      exact ⟨le_rfl, hlt, le_rfl⟩
    split at ha
    · exact ih ha
    rcases mem_append.1 ha with ha | ha
    · obtain ⟨hlt, rfl⟩ := mem_part.1 ha
      exact ⟨le_rfl, hlt, by simp only; omega⟩
    · obtain ⟨h1, h2⟩ := ih ha
      exact ⟨(le_max_left _ _).trans h1, h2⟩

theorem holes_spec (hl : Separated l) (stop start : ℕ) :
    Separated (holes stop l start) ∧
      ∀ x, Covered (holes stop l start) x ↔ (start ≤ x ∧ x < stop) ∧ ¬ Covered l x := by
  have hwhole : ∀ {l : List Span} {start : ℕ}, (∀ x, start ≤ x → x < stop → ¬ Covered l x) →
      Separated (if start < stop then [⟨start, stop⟩] else []) ∧
        ∀ x, Covered (if start < stop then [⟨start, stop⟩] else []) x ↔
          (start ≤ x ∧ x < stop) ∧ ¬ Covered l x := fun hfree =>
    ⟨separated_part, fun x => covered_part.trans (iff_self_and.2 fun h => hfree x h.1 h.2)⟩
  induction l generalizing start with
  | nil => exact hwhole fun x _ _ => not_covered_nil x
  | cons s l ih =>
    obtain ⟨hpos, hgap, hl⟩ := separated_cons.1 hl
    -- what comes behind `s` starts behind it
    have hbehind : ∀ x, Covered l x → s.stop < x := by
      rintro x ⟨a, ha, hx⟩
      exact (hgap a ha).trans_le hx.1
    rw [holes]
    split
    · refine hwhole fun x _ hx => ?_
      rw [covered_cons]
      rintro (h | h)
      · have := h.1
        omega
      · have := hbehind x h
        omega
    · split
      · obtain ⟨hsep, hcov⟩ := ih hl start
        refine ⟨hsep, fun x => ?_⟩
        rw [hcov, covered_cons, not_or]
        simp only [Span.Has]
        refine and_congr_right fun h => ⟨fun hx => ⟨by omega, hx⟩, fun hx => hx.2⟩
      · obtain ⟨hsep, hcov⟩ := ih hl (max start s.stop)
        refine ⟨separated_append.2 ⟨separated_part, hsep, fun a ha b hb => ?_⟩, fun x => ?_⟩
        · have hb' := (holes_within hb).1
          obtain ⟨-, rfl⟩ := mem_part.1 ha
          simp only
          omega
        · rw [covered_append, covered_part, hcov, covered_cons, not_or]
          simp only [Span.Has]
          constructor
          · rintro (h | ⟨h, hx⟩)
            · exact ⟨by omega, by omega, fun hx => by have := hbehind x hx; omega⟩
            · exact ⟨by omega, by omega, hx⟩
          · rintro ⟨h, hs, hx⟩
            by_cases hlow : x < s.start
            · exact .inl ⟨h.1, hlow⟩
            · exact .inr ⟨by omega, hx⟩

/-- What a list of spans leaves of another one. -/
def difference (l1 l2 : List Span) : List Span := l1.flatMap fun s => holes s.stop l2 s.start

theorem difference_spec {l1 l2 : List Span} (h1 : Separated l1) (h2 : Separated l2) :
    Separated (difference l1 l2) ∧
      ∀ x, Covered (difference l1 l2) x ↔ Covered l1 x ∧ ¬ Covered l2 x := by
  induction l1 with
  | nil => exact ⟨separated_nil, fun x => ⟨nofun, fun h => absurd h.1 (not_covered_nil x)⟩⟩
  | cons s l ih =>
    obtain ⟨-, hgap, hl⟩ := separated_cons.1 h1
    obtain ⟨hsep, hcov⟩ := ih hl
    obtain ⟨hsep', hcov'⟩ := holes_spec h2 s.stop s.start
    have heq : difference (s :: l) l2 = holes s.stop l2 s.start ++ difference l l2 := rfl
    rw [heq]
    refine ⟨separated_append.2 ⟨hsep', hsep, fun a ha b hb => ?_⟩, fun x => ?_⟩
    · obtain ⟨s', hs', hb⟩ := mem_flatMap.1 hb
      have h1 := (holes_within ha).2.2
      have h2 := (holes_within hb).1
      have h3 := hgap s' hs'
      omega
    · rw [covered_append, covered_cons, hcov, hcov', or_and_right]
      rfl

end JanuaryOs.Lib

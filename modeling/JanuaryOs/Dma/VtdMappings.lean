import JanuaryOs.Dma.VtdSpec

/-!
# Runs of `map_pages` and `unmap_pages` on one VT-d unit

Beside the unit the state has the mappings that were made and the ranges that
were unmapped. A mapping is forgotten when one of its pages is unmapped, and an
unmapped range when one of its pages is mapped again. `Correct` says what a
caller relies on. As the hardware translates nothing, it is true of a state
exactly if no mapping in it has any bytes.
-/

namespace JanuaryOs.Dma

open Lib VtdUnit

/-- What a call of `map_pages` promised. -/
structure Mapping where
  dma : ℕ
  phys : ℕ
  size : ℕ
  deriving DecidableEq, Repr

/-- DMA addresses from `dma`, as many as `size`. -/
structure DmaRange where
  dma : ℕ
  size : ℕ
  deriving DecidableEq, Repr

/-- The DMA addresses of a mapping. -/
def Mapping.range (m : Mapping) : DmaRange := ⟨m.dma, m.size⟩

/-- The pages of two ranges have nothing in common. -/
def DmaRange.Clear (r r' : DmaRange) : Prop :=
  r.dma / 4096 + pagesFor r.size ≤ r'.dma / 4096 ∨ r'.dma / 4096 + pagesFor r'.size ≤ r.dma / 4096
deriving Decidable

/-- A unit with what its callers know. -/
structure VtdSystem where
  unit : VtdUnit
  live : List Mapping
  gone : List DmaRange

/-- The calls on a unit. -/
inductive VtdOp
  | map (phys size : ℕ)
  | unmap (dma size : ℕ)
  deriving DecidableEq, Repr

namespace VtdSystem

/-- A call, and what it makes of the mappings that are known. -/
def step (s : VtdSystem) : VtdOp → VtdSystem
  | .map phys size =>
    match s.unit.mapPages phys size with
    | (none, u) => { s with unit := u }
    | (some dma, u) =>
      ⟨u, ⟨dma, phys, size⟩ :: s.live, s.gone.filter fun r => r.Clear ⟨dma, size⟩⟩
  | .unmap dma size =>
    ⟨s.unit.unmapPages dma size, s.live.filter fun m => m.range.Clear ⟨dma, size⟩,
      ⟨dma, size⟩ :: s.gone⟩

/-- Mappings are what the hardware does, they do not overlap, and what was
unmapped is not translated. -/
structure Correct (s : VtdSystem) : Prop where
  mapped : ∀ devfn < 256, ∀ m ∈ s.live, ∀ k < m.size,
    s.unit.hardwareWalk devfn (m.dma + k) = some (m.phys + k)
  disjoint : s.live.Pairwise fun m m' =>
    ∀ d, m.dma ≤ d ∧ d < m.dma + m.size → ¬ (m'.dma ≤ d ∧ d < m'.dma + m'.size)
  unmapped : ∀ devfn < 256, ∀ r ∈ s.gone, ∀ k < r.size,
    s.unit.hardwareWalk devfn (r.dma + k) = none

variable {s : VtdSystem} {own : Set ℕ} {ctx slpt : ℕ}

/-- The unit is in order, and its own tables are out of the reach of its calls. -/
structure Inv (s : VtdSystem) (own : Set ℕ) (ctx slpt : ℕ) : Prop where
  wired : Wired own s.unit ctx slpt
  apart : Apart own s.unit.mem s.unit.supply

theorem Inv.keeps (h : s.Inv own ctx slpt) (op : VtdOp) : Keeps own s.unit (s.step op).unit := by
  cases op with
  | map phys size =>
    have hkeeps := h.wired.mapPages h.apart phys size
    rw [VtdSystem.step]
    generalize s.unit.mapPages phys size = res at hkeeps
    obtain ⟨_ | dma, u⟩ := res <;> exact hkeeps
  | unmap dma size => exact h.wired.unmapPages h.apart dma size

theorem Inv.step (h : s.Inv own ctx slpt) (op : VtdOp) : (s.step op).Inv own ctx slpt :=
  ⟨h.wired.keeps (h.keeps op), (h.keeps op).apart⟩

/-- Without any translation, mappings are right if they have no bytes. -/
theorem Inv.correct_iff (h : s.Inv own ctx slpt) : s.Correct ↔ ∀ m ∈ s.live, m.size = 0 := by
  constructor
  · intro hcorrect m hm
    by_contra hsize
    have hwalk := hcorrect.mapped 0 (by decide) m hm 0 (Nat.pos_of_ne_zero hsize)
    rw [h.wired.hardwareWalk (by decide)] at hwalk
    cases hwalk
  · intro hempty
    refine ⟨fun devfn _ m hm k hk => ?_, ?_, fun devfn hdev r _ k _ => h.wired.hardwareWalk hdev _⟩
    · rw [hempty m hm] at hk
      cases hk
    · refine List.pairwise_of_forall_mem_list fun m hm m' _ d hd => ?_
      rw [hempty m hm] at hd
      omega

/-- A unit in Translate mode, whatever is mapped and unmapped: the hardware does
for every device what the live mappings say exactly if none of them has any
bytes. A call that fails changes no translation. The page at address zero, where
`map_page` builds its tables, may hold anything that does not lead to a frame of
the allocator or to a table on two levels. -/
theorem vtd_mapping_correct_iff {mem : Tables ℕ} {supply : List (Option ℕ)} {canPassThrough : Bool}
    {u : VtdUnit} (hsupply : Apart ∅ mem supply)
    (hinit : (VtdUnit.new mem supply).init .translate canPassThrough = .ok u) {ops : List VtdOp}
    (hrun : Run (ofFun step) ⟨u, [], []⟩ ops s) :
    (s.Correct ↔ ∀ m ∈ s.live, m.size = 0) ∧
      ∀ phys size, (s.unit.mapPages phys size).1 = none → ∀ devfn < 256, ∀ dma,
        (s.unit.mapPages phys size).2.hardwareWalk devfn dma = s.unit.hardwareWalk devfn dma := by
  obtain ⟨ctx, slpt, own, -, -, hwired, hapart⟩ := init_wired hsupply hinit
  rw [Set.empty_union] at hapart
  have hinv : s.Inv own ctx slpt := by
    refine hrun.invariant (fun s => s.Inv own ctx slpt) ?_ ⟨hwired, hapart⟩
    rintro s op s' hs rfl
    exact hs.step op
  refine ⟨hinv.correct_iff, fun phys size _ devfn hdev dma => ?_⟩
  have hkeeps := hinv.wired.mapPages hinv.apart phys size
  rw [(hinv.wired.keeps hkeeps).hardwareWalk hdev, hinv.wired.hardwareWalk hdev]

/-- Two buffers are mapped, and the first is unmapped: the second is not what
the hardware does. -/
theorem vtd_mapping_correct_iff_second :
    ∃ u s, (VtdUnit.new (fun _ _ => 0)
        [some 5, some 6, some 7, some 8, some 9, some 10]).init .translate true = .ok u ∧
      Run (ofFun step) ⟨u, [], []⟩
        [.map 0x20000 0x800, .map 0x30000 0x1000, .unmap 0x1000 0x800] s ∧
      s.live = [⟨0x2000, 0x30000, 0x1000⟩] ∧ ¬ s.Correct := by
  let supply : List (Option ℕ) := [some 5, some 6, some 7, some 8, some 9, some 10]
  let ops : List VtdOp := [.map 0x20000 0x800, .map 0x30000 0x1000, .unmap 0x1000 0x800]
  obtain ⟨u, hu⟩ : ∃ u, (VtdUnit.new (fun _ _ => 0) supply).init .translate true = .ok u := ⟨_, rfl⟩
  have hrun : Run (ofFun step) ⟨u, [], []⟩ ops (ops.foldl step ⟨u, [], []⟩) :=
    .cons rfl (.cons rfl (.cons rfl (.nil _)))
  have hlive : (ops.foldl step ⟨u, [], []⟩).live = [⟨0x2000, 0x30000, 0x1000⟩] := by
    obtain rfl := Except.ok.inj hu
    decide +kernel
  have hsound : Apart ∅ (fun _ _ => 0) supply := by
    refine .of_blank (fun _ => rfl) (by decide) fun c hc => ?_
    have hall : ∀ a ∈ supply, ∀ c ∈ a, c < 2 ^ 40 ∧ c ≠ 0 := by decide
    exact hall (some c) hc c rfl
  refine ⟨u, _, hu, hrun, hlive, fun hcorrect => ?_⟩
  have hempty := (vtd_mapping_correct_iff hsound hu hrun).1.1 hcorrect
  rw [hlive] at hempty
  cases hempty _ (List.mem_singleton_self _)

/-- A page is mapped with success, and the hardware does not find it. -/
theorem mapped_page_not_translated :
    ∃ u s, (VtdUnit.new (fun _ _ => 0)
        [some 5, some 6, some 7, some 8, some 9, some 10]).init .translate true = .ok u ∧
      Run (ofFun step) ⟨u, [], []⟩ [.map 0x20000 0x1000] s ∧
      s.live = [⟨0x1000, 0x20000, 0x1000⟩] ∧ s.unit.hardwareWalk 0 0x1000 = none := by
  obtain ⟨u, hu⟩ : ∃ u, (VtdUnit.new (fun _ _ => 0)
      [some 5, some 6, some 7, some 8, some 9, some 10]).init .translate true = .ok u := ⟨_, rfl⟩
  refine ⟨u, _, hu, .cons rfl (.nil _), ?_⟩
  obtain rfl := Except.ok.inj hu
  decide +kernel

end VtdSystem

end JanuaryOs.Dma

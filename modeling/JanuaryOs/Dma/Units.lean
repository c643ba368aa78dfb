import JanuaryOs.Dma.Coherent
import JanuaryOs.Dma.VtdSpec

/-!
# The VT-d units of a machine, which share one memory (`mm/dma/mod.rs`)

All units build their second-level tables in the page at address zero, each with
frames of its own. So a call on one unit must not disturb the tables of the
others, nor the frames that they will get: for the call, both belong to the
frames that are out of its reach.
-/

namespace JanuaryOs.Dma

open Lib Tables List VtdUnit Set

variable {own own' new : Set ℕ} {mem mem' tables tables' : Tables ℕ} {S S' R : List (Option ℕ)}
  {u u' : VtdUnit} {units units' units'' A C B B' : List (Option VtdUnit)} {drhds : List Drhd}

/-! ### Supplies of several units -/

namespace VtdUnit

theorem frames_append (S R : List (Option ℕ)) : frames (S ++ R) = frames S ∪ frames R :=
  ext fun _ => mem_append

theorem Apart.swap (h : Apart own mem (S ++ R)) : Apart own mem (R ++ S) := by
  have hperm : S ++ R ~ R ++ S := perm_append_comm
  refine ⟨h.layered, h.outside, fun c hc => h.fresh c (hperm.mem_iff.2 hc), ?_⟩
  exact (hperm.filterMap id).nodup_iff.1 h.nodup

/-- Two parts of a supply have no frame in common. -/
theorem Apart.disjoint (h : Apart own mem (S ++ R)) {c : ℕ} (hS : c ∈ frames S) : c ∉ frames R := by
  have hnodup := h.nodup
  rw [filterMap_append, nodup_append] at hnodup
  exact fun hR => hnodup.2.2 c (mem_filterMap.2 ⟨_, hS, rfl⟩) c (mem_filterMap.2 ⟨_, hR, rfl⟩) rfl

/-- For one part of a supply, the other part is out of reach. -/
theorem Apart.left (h : Apart own mem (S ++ R)) : Apart (own ∪ frames R) mem S := by
  refine h.congr (sublist_append_left S R) (fun _ _ _ => rfl) ?_ fun c hc => ?_
  · rw [frames_append]
    exact union_subset_union_right _ subset_union_right
  · rw [mem_union, not_or]
    exact ⟨(h.fresh c (mem_append_left _ hc)).2.1, h.disjoint hc⟩

/-- One part of a supply has been used, with the other part out of reach. -/
theorem Apart.join (h : Apart own mem (S ++ R)) (h' : Apart own' mem' S') (hsub : S' <+ S)
    (hR : frames R ⊆ own') (hown' : new ⊆ own') (hown : new ⊆ own ∪ frames S) :
    Apart new mem' (S' ++ R) := by
  refine ⟨h'.layered, fun ht hmem => h'.outside ht (hown' hmem), fun c hc => ?_,
    h.nodup.sublist ((hsub.append_right R).filterMap _)⟩
  rcases mem_append.1 hc with hc | hc
  · obtain ⟨hlt, hout, hfree⟩ := h'.fresh c hc
    exact ⟨hlt, fun hmem => hout (hown' hmem), hfree⟩
  · obtain ⟨hlt, hout, -⟩ := h.fresh c (mem_append_right _ hc)
    refine ⟨hlt, fun hmem => ?_, fun k ht => h'.outside ht (hR hc)⟩
    rcases hown hmem with hmem | hmem
    · exact hout hmem
    · exact h.disjoint hmem hc

end VtdUnit

/-- What the allocator will answer to the units. -/
def supplies (units : List (Option VtdUnit)) : List (Option ℕ) :=
  (units.filterMap id).flatMap VtdUnit.supply

@[simp] theorem supplies_append (A B : List (Option VtdUnit)) :
    supplies (A ++ B) = supplies A ++ supplies B := by
  rw [supplies, filterMap_append, flatMap_append, supplies, supplies]

@[simp] theorem supplies_some (u : VtdUnit) : supplies [some u] = u.supply :=
  flatMap_singleton VtdUnit.supply u

/-- What a unit keeps for good. -/
def shape (u : Option VtdUnit) : Option (ℕ × TranslationMode) :=
  u.map fun u => (u.rootTable, u.translationMode)

/-- What the calls do to the units and to everything but the tables at address
zero. -/
structure Steps (own : Set ℕ) (units : List (Option VtdUnit)) (tables : Tables ℕ)
    (units' : List (Option VtdUnit)) (tables' : Tables ℕ) : Prop where
  apart : Apart own tables' (supplies units')
  sub : supplies units' <+ supplies units
  same : ∀ t ∈ own, tables' t = tables t
  shape : units'.map shape = units.map shape

theorem Steps.refl (h : Apart own tables (supplies units)) : Steps own units tables units tables :=
  ⟨h, Sublist.refl _, fun _ _ => rfl, rfl⟩

theorem Steps.trans {tables'' : Tables ℕ} (h : Steps own units tables units' tables')
    (h' : Steps own units' tables' units'' tables'') : Steps own units tables units'' tables'' :=
  ⟨h'.apart, h'.sub.trans h.sub, fun t ht => (h'.same t ht).trans (h.same t ht),
    h'.shape.trans h.shape⟩

/-- The first units take a step, which leaves the others alone. -/
theorem Steps.append_left (h : Apart own tables (supplies (A ++ B)))
    (hA : Steps (own ∪ frames (supplies B)) A tables C tables') :
    Steps own (A ++ B) tables (C ++ B) tables' := by
  rw [supplies_append] at h
  refine ⟨?_, ?_, fun t ht => hA.same t (.inl ht), ?_⟩
  · rw [supplies_append]
    exact h.join hA.apart hA.sub subset_union_right subset_union_left subset_union_left
  · rw [supplies_append, supplies_append]
    exact hA.sub.append_right _
  · rw [map_append, map_append, hA.shape]

/-- The last units take a step, which leaves the others alone. -/
theorem Steps.append_right (h : Apart own tables (supplies (A ++ B)))
    (hB : Steps (own ∪ frames (supplies A)) B tables B' tables') :
    Steps own (A ++ B) tables (A ++ B') tables' := by
  rw [supplies_append] at h
  refine ⟨?_, ?_, fun t ht => hB.same t (.inl ht), ?_⟩
  · rw [supplies_append]
    exact (h.swap.join hB.apart hB.sub subset_union_right subset_union_left
      subset_union_left).swap
  · rw [supplies_append, supplies_append]
    exact hB.sub.append_left _
  · rw [map_append, map_append, hB.shape]

/-! ### Units that translate -/

/-- All units are set up for translation in tables that are out of the reach of
their calls. -/
structure AllWired (own : Set ℕ) (units : List (Option VtdUnit)) (tables : Tables ℕ) : Prop where
  apart : Apart own tables (supplies units)
  wired : ∀ u, some u ∈ units → ∃ ctx slpt, Wired own (u.onTables tables) ctx slpt

/-- The units are wired in frames that are out of reach, so they still are after
a step. -/
theorem AllWired.steps (h : AllWired own units tables)
    (hsteps : Steps own units tables units' tables') : AllWired own units' tables' := by
  refine ⟨hsteps.apart, fun u' hu' => ?_⟩
  have hshape : shape (some u') ∈ units.map shape := hsteps.shape ▸ mem_map_of_mem hu'
  obtain ⟨_ | u, hu, heq⟩ := mem_map.1 hshape
  · cases heq
  obtain ⟨hroot, hmode⟩ := Prod.mk.inj (Option.some.inj heq)
  obtain ⟨ctx, slpt, hwired⟩ := h.wired u hu
  exact ⟨ctx, slpt, hwired.congr subset_rfl hsteps.same hroot.symm hmode.symm⟩

theorem AllWired.left (h : AllWired own (A ++ B) tables) :
    AllWired (own ∪ frames (supplies B)) A tables := by
  refine ⟨(supplies_append A B ▸ h.apart).left, fun u hu => ?_⟩
  obtain ⟨ctx, slpt, hwired⟩ := h.wired u (mem_append_left _ hu)
  exact ⟨ctx, slpt, hwired.congr subset_union_left (fun _ _ => rfl) rfl rfl⟩

theorem AllWired.right (h : AllWired own (A ++ B) tables) :
    AllWired (own ∪ frames (supplies A)) B tables := by
  refine ⟨(supplies_append A B ▸ h.apart).swap.left, fun u hu => ?_⟩
  obtain ⟨ctx, slpt, hwired⟩ := h.wired u (mem_append_right _ hu)
  exact ⟨ctx, slpt, hwired.congr subset_union_left (fun _ _ => rfl) rfl rfl⟩

/-- A call on the first unit. -/
theorem AllWired.head (h : AllWired own (some u :: units) tables)
    (hkeeps : ∀ own' ctx slpt, Wired own' (u.onTables tables) ctx slpt →
      Apart own' tables u.supply → Keeps own' (u.onTables tables) u') :
    Steps own (some u :: units) tables (some u' :: units) u'.mem := by
  have hleft := AllWired.left (A := [some u]) h
  obtain ⟨ctx, slpt, hwired⟩ := hleft.wired u (mem_singleton_self _)
  have hk := hkeeps _ ctx slpt hwired (supplies_some u ▸ hleft.apart)
  refine Steps.append_left (A := [some u]) (C := [some u']) h.apart ⟨?_, ?_, hk.same, ?_⟩
  · rw [supplies_some]
    exact hk.apart
  · rw [supplies_some, supplies_some]
    exact hk.supply.sublist
  · rw [map_singleton, map_singleton, shape, shape, Option.map_some, Option.map_some, hk.rootTable,
      hk.mode]
    rfl

/-- Calls on the units after the first. -/
theorem AllWired.tail {x : Option VtdUnit} (h : AllWired own (x :: units) tables)
    (hrest : ∀ own', AllWired own' units tables → Steps own' units tables units' tables') :
    Steps own (x :: units) tables (x :: units') tables' :=
  Steps.append_right (A := [x]) h.apart (hrest _ (AllWired.right (A := [x]) h))

theorem AllWired.mapOnUnits (h : AllWired own units tables) (phys size : ℕ) :
    Steps own units tables (DmaState.mapOnUnits phys size units tables).2.1
      (DmaState.mapOnUnits phys size units tables).2.2 := by
  induction units generalizing own tables with
  | nil => exact .refl h.apart
  | cons x units ih =>
    cases x with
    | none => exact h.tail fun own' hunits => ih hunits
    | some u =>
      have hhead := h.head fun own' ctx slpt hwired hapart => hwired.mapPages hapart phys size
      rw [DmaState.mapOnUnits]
      generalize (u.onTables tables).mapPages phys size = res at hhead
      obtain ⟨_ | dma, u'⟩ := res
      · -- the unit has no memory left, and the next one is asked
        exact hhead.trans ((h.steps hhead).tail fun own' hunits => ih hunits)
      · exact hhead

theorem AllWired.unmapOnUnits (h : AllWired own units tables) (dma size : ℕ) :
    Steps own units tables (DmaState.unmapOnUnits dma size units tables).1
      (DmaState.unmapOnUnits dma size units tables).2 := by
  induction units generalizing own tables with
  | nil => exact .refl h.apart
  | cons x units ih =>
    cases x with
    | none => exact h.tail fun own' hunits => ih hunits
    | some u =>
      have hhead := h.head fun own' ctx slpt hwired hapart => hwired.unmapPages hapart dma size
      exact hhead.trans ((h.steps hhead).tail fun own' hunits => ih hunits)

/-- Set-up for translation wires all units that it does not give up, in frames
of their own. -/
theorem initUnits_wired (h : Apart own tables (drhds.flatMap Drhd.supply)) :
    ∃ new ⊆ frames (drhds.flatMap Drhd.supply),
      supplies (initUnits .translate drhds tables).1 <+ drhds.flatMap Drhd.supply ∧
      (∀ t ∈ own, (initUnits .translate drhds tables).2 t = tables t) ∧
      Apart (own ∪ new) (initUnits .translate drhds tables).2
        (supplies (initUnits .translate drhds tables).1) ∧
      ∀ u, some u ∈ (initUnits .translate drhds tables).1 →
        ∃ ctx slpt, Wired new (u.onTables (initUnits .translate drhds tables).2) ctx slpt := by
  induction drhds generalizing own tables with
  | nil => exact ⟨∅, empty_subset _, Sublist.refl _, fun _ _ => rfl,
      by rwa [union_empty], nofun⟩
  | cons drhd drhds ih =>
    rw [flatMap_cons] at h ⊢
    rw [frames_append, initUnits]
    split
    · rename_i u hinit
      obtain ⟨ctx, slpt, new, hnew, hsub, hwired, hapart⟩ := init_wired h.left hinit
      have hjoin : Apart (own ∪ new) u.mem (u.supply ++ drhds.flatMap Drhd.supply) :=
        h.join hapart hsub (subset_union_right.trans subset_union_left)
          (union_subset_union_left _ subset_union_left)
          (union_subset_union_right _ hnew)
      obtain ⟨new', hnew', hsub', hsame, hapart', hwired'⟩ := ih hjoin.swap.left
      generalize initUnits .translate drhds u.mem = res at hsub' hsame hapart' hwired'
      obtain ⟨units, tables'⟩ := res
      have hsupplies : supplies (some u :: units) = u.supply ++ supplies units := rfl
      refine ⟨new ∪ new', union_subset_union hnew hnew', ?_, fun t ht => ?_, ?_,
        fun u' hu' => ?_⟩
      · exact hsupplies ▸ hsub.append hsub'
      · refine (hsame t (.inl (.inl ht))).trans (mem_init hinit fun hc => ?_)
        exact (h.fresh t (mem_append_left _ hc)).2.1 ht
      · show Apart (own ∪ (new ∪ new')) tables' (u.supply ++ supplies units)
        refine (hjoin.swap.join hapart' hsub' (subset_union_right.trans subset_union_left)
          ?_ ?_).swap <;> rw [← union_assoc]
        · exact union_subset_union_left _ subset_union_left
        · exact union_subset_union_right _ hnew'
      · rcases mem_cons.1 hu' with heq | hu'
        · obtain rfl : u' = u := Option.some.inj heq
          refine ⟨ctx, slpt, hwired.congr subset_union_left (fun t ht => ?_) rfl rfl⟩
          exact hsame t (.inl (.inr ht))
        · obtain ⟨ctx', slpt', hu'⟩ := hwired' u' hu'
          exact ⟨ctx', slpt', hu'.congr subset_union_right (fun _ _ => rfl) rfl rfl⟩
    · -- the unit is given up, and so are its answers
      have hrest : Apart own tables (drhds.flatMap Drhd.supply) :=
        h.congr (sublist_append_right _ _) (fun _ _ _ => rfl) subset_union_left fun c hc =>
          (h.fresh c (mem_append_right _ hc)).2.1
      obtain ⟨new, hnew, hsub, hsame, hapart, hwired⟩ := ih hrest
      refine ⟨new, hnew.trans subset_union_right, hsub.trans (sublist_append_right _ _), hsame,
        hapart, fun u hu => hwired u ?_⟩
      rcases mem_cons.1 hu with heq | hu
      · cases heq
      · exact hu

/-! ### Units that let requests through -/

/-- The context entries in these tables let requests through. -/
structure Passing (u : VtdUnit) (ctx : ℕ) : Prop where
  frame : ctx < 2 ^ 40
  root : u.mem u.rootTable 0 = ctx * 4096 + 1
  low : ∀ devfn < 256, u.mem ctx (2 * devfn) = 11

theorem Passing.hardwareWalk {ctx : ℕ} (h : Passing u ctx) {devfn : ℕ} (hdev : devfn < 256)
    (dma : ℕ) : u.hardwareWalk devfn dma = some dma := by
  obtain ⟨hctx, hroot, hlow⟩ := h
  have hpresent : ¬ u.mem u.rootTable 0 &&& presentBit = 0 := by
    rw [and_presentBit, hroot]
    omega
  have htable : (u.mem u.rootTable 0 &&& pointerMask) / pageSize = ctx := by
    rw [and_pointerMask, hroot, pageSize]
    omega
  have hlow1 : ¬ (11 &&& presentBit = 0) := by decide
  have hkind : 11 &&& 12 = ctePassthrough := by decide
  rw [VtdUnit.hardwareWalk, if_neg hpresent]
  simp only [htable, hlow devfn hdev]
  rw [if_neg hlow1, if_pos hkind]

/-- Set-up for passing requests through, in two pages that the allocator gave. -/
theorem init_passing {canPassThrough : Bool} (h : Apart own mem S)
    (hinit : (VtdUnit.new tables S).init .passthrough canPassThrough = .ok u) :
    ∃ ctx ∈ frames S, u.rootTable ∈ frames S ∧ Passing u ctx := by
  obtain ⟨root, ctx, rest, rfl, ⟨-, rfl⟩ | ⟨hmode, -⟩⟩ := init_cases hinit
  swap
  · cases hmode
  have hnodup := h.nodup
  simp only [filterMap_cons, id_eq, nodup_cons, mem_cons, not_or] at hnodup
  have hmem : ctx ∈ frames (some root :: some ctx :: rest) := by simp [frames]
  obtain ⟨-, hroot, -⟩ := writeContexts_fields ctx 11 2 256
    (linkedUnit (linked tables root ctx) rest root .passthrough)
  obtain ⟨hother, hcontexts⟩ := mem_writeContexts ctx 11 2 256
    (linkedUnit (linked tables root ctx) rest root .passthrough)
  refine ⟨ctx, hmem, ?_, (h.fresh ctx hmem).1, ?_, fun devfn hdev => (hcontexts devfn hdev).1⟩
  · rw [hroot]
    exact mem_cons_self
  · rw [hroot]
    exact (congrFun (hother root hnodup.1.1) 0).trans (linked_root (h.fresh ctx hmem).1)

theorem mem_initUnits {mode : TranslationMode} {t : ℕ}
    (ht : t ∉ frames (drhds.flatMap Drhd.supply)) :
    (initUnits mode drhds tables).2 t = tables t := by
  induction drhds generalizing tables with
  | nil => rfl
  | cons drhd drhds ih =>
    rw [flatMap_cons, frames_append, mem_union, not_or] at ht
    rw [initUnits]
    split
    · rename_i u hinit
      exact (ih ht.2).trans (mem_init hinit ht.1)
    · exact ih ht.2

/-- Units that let requests through still do when all of them are set up. -/
theorem initUnits_passing (h : Apart own mem (drhds.flatMap Drhd.supply))
    (hu : some u ∈ (initUnits .passthrough drhds tables).1) :
    ∃ ctx, Passing (u.onTables (initUnits .passthrough drhds tables).2) ctx := by
  induction drhds generalizing own tables with
  | nil => cases hu
  | cons drhd drhds ih =>
    rw [flatMap_cons] at h
    rw [initUnits] at hu ⊢
    split at hu
    · rename_i u1 hinit
      rcases mem_cons.1 hu with heq | hu
      · obtain rfl : u = u1 := Option.some.inj heq
        obtain ⟨ctx, hctx, hroot, hpassing⟩ := init_passing h.left hinit
        refine ⟨ctx, hpassing.frame, ?_, fun devfn hdev => ?_⟩
        · exact (congrFun (mem_initUnits (h.disjoint hroot)) 0).trans hpassing.root
        · exact (congrFun (mem_initUnits (h.disjoint hctx)) _).trans (hpassing.low devfn hdev)
      · exact ih h.swap.left hu
    · rcases mem_cons.1 hu with heq | hu
      · cases heq
      · exact ih h.swap.left hu

end JanuaryOs.Dma

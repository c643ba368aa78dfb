import JanuaryOs.Dma.Vtd
import JanuaryOs.Lib.Trace

/-!
# Which tables a VT-d unit writes, and what the hardware finds in those it reads

`setup_context_for_bus` writes the second-level table of a unit into the low
words of the context entries, where the hardware looks for it, and the width of
the addresses into the high words. `map_page` and `unmap_page` take the table
from a high word, so they work on the page at physical address zero instead. The
tables that they build there are apart from those that the hardware reads
(`Apart`), and every call leaves them apart (`Keeps`). So the second-level table
stays blank, and nothing is ever translated (`Wired.hardwareWalk`).

What the page at address zero holds is not known. `Apart` asks that it does not
lead to a frame that the allocator hands out, nor to one table on two levels; a
blank page does neither.
-/

namespace JanuaryOs.Dma

open Lib Tables Function List

/-! ### Bits -/

theorem and_shifted_mask (x a b : ℕ) : x &&& ((2 ^ a - 1) * 2 ^ b) = x / 2 ^ b % 2 ^ a * 2 ^ b := by
  refine Nat.eq_of_testBit_eq fun i => ?_
  rw [Nat.testBit_and, Nat.testBit_mul_two_pow, Nat.testBit_mul_two_pow,
    Nat.testBit_mod_two_pow, Nat.testBit_two_pow_sub_one, Nat.testBit_div_two_pow]
  by_cases hb : b ≤ i
  · rw [Nat.sub_add_cancel hb]
    simp [hb, Bool.and_comm]
  · simp [hb]

theorem and_slpteAddrMask (x : ℕ) : x &&& slpteAddrMask = x / 4096 % 2 ^ 40 * 4096 :=
  and_shifted_mask x 40 12

theorem and_pointerMask (x : ℕ) : x &&& pointerMask = x / 4096 % 2 ^ 52 * 4096 :=
  and_shifted_mask x 52 12

theorem and_presentBit (x : ℕ) : x &&& presentBit = x % 2 := Nat.and_two_pow_sub_one_eq_mod x 1

/-- The bits that say how requests are translated. -/
theorem and_translationType (x : ℕ) : x &&& 12 = x / 4 % 4 * 4 := and_shifted_mask x 2 2

theorem page_or {x : ℕ} (bits : ℕ) (hbits : bits < 4096) : x * 4096 ||| bits = x * 4096 + bits := by
  rw [Nat.mul_comm]
  exact (Nat.two_pow_add_eq_or_of_lt (i := 12) hbits x).symm

variable {frame : ℕ}

/-- A pointer to a frame, as the root table and the context tables hold it. -/
theorem pointer_or (hframe : frame < 2 ^ 40) :
    (frame * pageSize &&& pointerMask) ||| presentBit = frame * 4096 + 1 := by
  have hpage : frame * pageSize &&& pointerMask = frame * 4096 := by
    rw [and_pointerMask, pageSize]
    omega
  rw [hpage]
  exact page_or 1 (by decide)

namespace VtdUnit

/-! ### The tables that `map_page` builds -/

/-- Where `map_page` and `unmap_page` go on from an entry of an upper level. -/
def slChild (entry : ℕ) : Option ℕ :=
  if entry &&& presentBit = 0 then none else some ((entry &&& slpteAddrMask) / pageSize)

theorem slChild_zero : slChild 0 = none := rfl

/-- `map_page` finds a table where it has put it. -/
theorem slChild_frame (hframe : frame < 2 ^ 40) :
    slChild ((frame * pageSize &&& slpteAddrMask) ||| slpteRw) = some frame := by
  have hentry : (frame * pageSize &&& slpteAddrMask) ||| slpteRw = frame * 4096 + 3 := by
    rw [and_slpteAddrMask, pageSize, Nat.mul_div_cancel _ (by decide), Nat.mod_eq_of_lt hframe]
    exact page_or 3 (by decide)
  have hpresent : ¬ (frame * 4096 + 3) &&& presentBit = 0 := by
    rw [and_presentBit]
    omega
  rw [hentry, slChild, if_neg hpresent, and_slpteAddrMask, pageSize]
  congr 1
  omega

/-- The frames that the allocator may still hand out. -/
def frames (supply : List (Option ℕ)) : Set ℕ := {c | some c ∈ supply}

/-- The tables at address zero have nothing to do with the frames `own` and with
those that the allocator will hand out, which are distinct and can be written
into an entry. -/
structure Apart (own : Set ℕ) (mem : Tables ℕ) (supply : List (Option ℕ)) : Prop where
  layered : Layered slChild mem 3 0
  outside : ∀ {k t}, Reaches slChild mem 3 0 k t → t ∉ own
  fresh : ∀ c ∈ frames supply, c < 2 ^ 40 ∧ c ∉ own ∧ ∀ k, ¬ Reaches slChild mem 3 0 k c
  nodup : (supply.filterMap id).Nodup

variable {own own' : Set ℕ} {mem mem' : Tables ℕ} {supply rest : List (Option ℕ)} {c t i k : ℕ}

/-- A blank page at address zero is apart from all frames but itself. -/
theorem Apart.of_blank (hmem : ∀ i, mem 0 i = 0) (hnodup : (supply.filterMap id).Nodup)
    (hframes : ∀ c ∈ frames supply, c < 2 ^ 40 ∧ c ≠ 0) : Apart ∅ mem supply := by
  have hzero : ∀ {k t}, Reaches slChild mem 3 0 k t → k = 3 ∧ t = 0 := fun h =>
    h.of_blank fun i => by rw [hmem, slChild_zero]
  refine ⟨fun h h' => (hzero h).1.trans (hzero h').1.symm, fun _ => not_false,
    fun c hc => ?_, hnodup⟩
  exact ⟨(hframes c hc).1, not_false, fun k h => (hframes c hc).2 (hzero h).2⟩

/-- Writes outside the tables at address zero do not matter, and answers of the
allocator may be dropped. -/
theorem Apart.congr (h : Apart own mem supply) (hsub : rest <+ supply)
    (hsame : ∀ k t, Reaches slChild mem 3 0 k t → mem' t = mem t)
    (hown : own' ⊆ own ∪ frames supply)
    (hrest : ∀ c ∈ frames rest, c ∉ own') : Apart own' mem' rest := by
  have hback : ∀ {k t}, Reaches slChild mem' 3 0 k t → Reaches slChild mem 3 0 k t :=
    fun ht => ht.of_same hsame
  refine ⟨fun ht ht' => h.layered (hback ht) (hback ht'), fun ht hmem => ?_, fun c hc => ?_,
    h.nodup.sublist (hsub.filterMap _)⟩
  · rcases hown hmem with hmem | hmem
    · exact h.outside (hback ht) hmem
    · exact (h.fresh _ hmem).2.2 _ (hback ht)
  · obtain ⟨hlt, -, hnew⟩ := h.fresh c (hsub.subset hc)
    exact ⟨hlt, hrest c hc, fun k ht => hnew k (hback ht)⟩

/-- The first frame of the supply is not in the rest of it. -/
theorem Apart.head_notMem (h : Apart own mem (some c :: rest)) : c ∉ frames rest := by
  have hnodup := h.nodup
  simp only [filterMap_cons, id_eq, nodup_cons] at hnodup
  exact fun hc => hnodup.1 (mem_filterMap.2 ⟨some c, hc, rfl⟩)

variable {u u' u'' : VtdUnit}

theorem mem_zeroPage_of_ne (h : t ≠ frame) : (u.zeroPage frame).mem t = u.mem t :=
  update_of_ne h _ _

/-- What the calls on a unit do to everything but the tables at address zero:
some answers of the allocator are used up. -/
structure Keeps (own : Set ℕ) (u u' : VtdUnit) : Prop where
  apart : Apart own u'.mem u'.supply
  supply : u'.supply <:+ u.supply
  same : ∀ t ∈ own, u'.mem t = u.mem t
  rootTable : u'.rootTable = u.rootTable
  mode : u'.translationMode = u.translationMode

theorem Keeps.refl (h : Apart own u.mem u.supply) : Keeps own u u :=
  ⟨h, suffix_rfl, fun _ _ => rfl, rfl, rfl⟩

theorem Keeps.trans (h : Keeps own u u') (h' : Keeps own u' u'') : Keeps own u u'' :=
  ⟨h'.apart, h'.supply.trans h.supply, fun t ht => (h'.same t ht).trans (h.same t ht),
    h'.rootTable.trans h.rootTable, h'.mode.trans h.mode⟩

/-- An entry of the last level is written. -/
theorem Apart.write (h : Apart own u.mem u.supply) (ht : Reaches slChild u.mem 3 0 0 t)
    (i word : ℕ) : Keeps own u (u.write t i word) := by
  have hback : ∀ {k x}, Reaches slChild (u.mem.set t i word) 3 0 k x →
      Reaches slChild u.mem 3 0 k x := fun hx => Reaches.of_leaf h.layered ht hx
  refine ⟨⟨fun hx hx' => h.layered (hback hx) (hback hx'), fun hx => h.outside (hback hx), ?_,
    h.nodup⟩, suffix_rfl, fun x hx => ?_, rfl, rfl⟩
  · intro c hc
    obtain ⟨hlt, hown, hnew⟩ := h.fresh c hc
    exact ⟨hlt, hown, fun k hx => hnew k (hback hx)⟩
  · exact update_of_ne (fun heq : x = t => h.outside ht (heq ▸ hx)) _ _

/-- A new table is hung into an entry that is not present. -/
theorem Apart.hang (h : Apart own u.mem u.supply) (hsupply : u.supply = some c :: rest)
    (ht : Reaches slChild u.mem 3 0 (k + 1) t) (hold : slChild (u.mem t i) = none) :
    let u' := ({ u with supply := rest }.zeroPage c).write t i
      ((c * pageSize &&& slpteAddrMask) ||| slpteRw)
    Keeps own u u' ∧ Reaches slChild u'.mem 3 0 k c := by
  intro u'
  obtain ⟨hlt, hown, hnew⟩ := h.fresh c (by rw [hsupply]; exact mem_cons_self)
  have hhead : c ∉ frames rest := (hsupply ▸ h).head_notMem
  have hchild := slChild_frame hlt
  -- the frame is cleared, which nobody notices
  have hsame : ∀ k x, Reaches slChild u.mem 3 0 k x → (u.zeroPage c).mem x = u.mem x :=
    fun k x hx => mem_zeroPage_of_ne fun heq => hnew k (heq ▸ hx)
  have hzero : Apart own (u.zeroPage c).mem rest :=
    h.congr (hsupply ▸ sublist_cons_self _ _) hsame Set.subset_union_left fun x hx =>
      (h.fresh x (by rw [hsupply]; exact mem_cons_of_mem _ hx)).2.1
  have hback : ∀ {k x}, Reaches slChild (u.zeroPage c).mem 3 0 k x →
      Reaches slChild u.mem 3 0 k x := fun hx => hx.of_same hsame
  have hforth : ∀ {k x}, Reaches slChild u.mem 3 0 k x →
      Reaches slChild (u.zeroPage c).mem 3 0 k x :=
    fun hx => hx.of_same fun k x hx => (hsame k x (hback hx)).symm
  have hunreached : ∀ k, ¬ Reaches slChild (u.zeroPage c).mem 3 0 k c := fun k hx =>
    hnew k (hback hx)
  have hblank : ∀ j, slChild ((u.zeroPage c).mem c j) = none := by
    intro j
    have hword : (u.zeroPage c).mem c j = 0 := congrFun (update_self c _ u.mem) j
    rw [hword, slChild_zero]
  -- then it is linked
  have hcases : ∀ {j x}, Reaches slChild u'.mem 3 0 j x →
      Reaches slChild (u.zeroPage c).mem 3 0 j x ∨ x = c ∧ j = k := fun hx =>
    Reaches.of_hang hzero.layered (hforth ht) hblank hunreached hchild hx
  refine ⟨⟨⟨?_, fun hx hmem => ?_, fun x hx => ?_, hzero.nodup⟩, hsupply ▸ suffix_cons _ _, ?_,
    rfl, rfl⟩, ?_⟩
  · exact Layered.of_hang hzero.layered (hforth ht) hblank hunreached hchild
  · rcases hcases hx with hx | ⟨rfl, -⟩
    · exact hzero.outside hx hmem
    · exact hown hmem
  · obtain ⟨hlt', hown', hnew'⟩ := hzero.fresh x hx
    refine ⟨hlt', hown', fun j hreach => ?_⟩
    rcases hcases hreach with hreach | ⟨rfl, -⟩
    · exact hnew' j hreach
    · exact hhead hx
  · intro x hx
    have hxt : x ≠ t := fun heq => h.outside ht (heq ▸ hx)
    have hxc : x ≠ c := fun heq => hown (heq ▸ hx)
    exact (update_of_ne hxt _ _).trans (mem_zeroPage_of_ne hxc)
  · refine .step i (Reaches.set ?_ (hforth ht)) ?_
    · exact (congrArg (fun words => slChild (words i)) (hsame _ _ ht)).trans hold
    · exact (congrArg slChild (set_self _ _ _ _)).trans hchild

/-! ### The calls -/

/-- The loop of `map_page` goes down through the tables at address zero. -/
theorem ensureTables_keeps (is : List ℕ) (h : Apart own u.mem u.supply)
    (ht : Reaches slChild u.mem 3 0 is.length t) :
    Keeps own u (ensureTables is t u).2 ∧
      ∀ pt ∈ (ensureTables is t u).1, Reaches slChild (ensureTables is t u).2.mem 3 0 0 pt := by
  induction is generalizing t u with
  | nil =>
    refine ⟨.refl h, ?_⟩
    rintro _ ⟨⟩
    exact ht
  | cons i is ih =>
    rw [ensureTables]
    split
    · rename_i hentry
      cases hsupply : u.supply with
      | nil =>
        simp only [allocPage, hsupply]
        exact ⟨.refl h, nofun⟩
      | cons answer rest =>
        cases answer with
        | none =>
          simp only [allocPage, hsupply]
          refine ⟨⟨h.congr (hsupply ▸ sublist_cons_self _ _) (fun _ _ _ => rfl)
            Set.subset_union_left fun x hx => ?_, hsupply ▸ suffix_cons _ _, fun _ _ => rfl,
            rfl, rfl⟩,
            nofun⟩
          exact (h.fresh x (by rw [hsupply]; exact mem_cons_of_mem _ hx)).2.1
        | some c =>
          simp only [allocPage, hsupply]
          obtain ⟨hkeeps, hreach⟩ := h.hang (i := i) hsupply ht (if_pos hentry)
          obtain ⟨hrest, hpt⟩ := ih hkeeps.apart hreach
          exact ⟨hkeeps.trans hrest, hpt⟩
    · rename_i hentry
      exact ih h (.step i ht (if_neg hentry))

/-- So does the loop of `unmap_page`. -/
theorem findTable_reaches (is : List ℕ) {pt : ℕ} (ht : Reaches slChild mem 3 0 is.length t)
    (h : findTable mem is t = some pt) : Reaches slChild mem 3 0 0 pt := by
  induction is generalizing t with
  | nil =>
    cases h
    exact ht
  | cons i is ih =>
    rw [findTable] at h
    split at h
    · cases h
    · rename_i hentry
      exact ih (.step i ht (if_neg hentry)) h

/-- The unit is set up for translation, in tables that are its own: the root
table leads to a context table, all entries of which lead to one blank
second-level table. -/
structure Wired (own : Set ℕ) (u : VtdUnit) (ctx slpt : ℕ) : Prop where
  mode : u.translationMode = .translate
  mem_own : u.rootTable ∈ own ∧ ctx ∈ own ∧ slpt ∈ own
  bounds : ctx < 2 ^ 40 ∧ slpt < 2 ^ 40
  root : u.mem u.rootTable 0 = ctx * 4096 + 1
  low : ∀ devfn < 256, u.mem ctx (2 * devfn) = slpt * 4096 + 1
  high : ∀ devfn < 256, u.mem ctx (2 * devfn + 1) = 2
  blank : ∀ i, u.mem slpt i = 0

variable {ctx slpt : ℕ}

theorem Wired.congr (h : Wired own u ctx slpt) (hown : own ⊆ own')
    (hsame : ∀ t ∈ own, u'.mem t = u.mem t) (hroot : u'.rootTable = u.rootTable)
    (hmode : u'.translationMode = u.translationMode) : Wired own' u' ctx slpt := by
  obtain ⟨hownRoot, hownCtx, hownSlpt⟩ := h.mem_own
  refine ⟨hmode.trans h.mode, ⟨hroot ▸ hown hownRoot, hown hownCtx, hown hownSlpt⟩, h.bounds, ?_,
    fun devfn hdev => ?_, fun devfn hdev => ?_, fun i => ?_⟩
  · rw [hroot, hsame _ hownRoot, h.root]
  · rw [hsame _ hownCtx, h.low devfn hdev]
  · rw [hsame _ hownCtx, h.high devfn hdev]
  · rw [hsame _ hownSlpt, h.blank]

theorem Wired.keeps (h : Wired own u ctx slpt) (hkeeps : Keeps own u u') : Wired own u' ctx slpt :=
  h.congr subset_rfl hkeeps.same hkeeps.rootTable hkeeps.mode

theorem Wired.contextTable (h : Wired own u ctx slpt) :
    ¬ u.mem u.rootTable 0 &&& presentBit = 0 ∧
      (u.mem u.rootTable 0 &&& pointerMask) / pageSize = ctx := by
  obtain ⟨hctx, -⟩ := h.bounds
  rw [and_presentBit, and_pointerMask, h.root, pageSize]
  omega

theorem Wired.getContextTable (h : Wired own u ctx slpt) :
    u.getContextTableForBus 0 = some ctx := by
  obtain ⟨hpresent, htable⟩ := h.contextTable
  rw [getContextTableForBus, Nat.mul_zero]
  exact (if_neg hpresent).trans (congrArg some htable)

/-- `map_page` takes the width of the addresses for a table. -/
theorem Wired.slptFrame (h : Wired own u ctx slpt) : u.slptFrame ctx = 0 := by
  rw [VtdUnit.slptFrame, h.high 0 (by decide)]
  rfl

section

variable (hwired : Wired own u ctx slpt) (h : Apart own u.mem u.supply)

include hwired h

theorem Wired.mapPage (dma phys : ℕ) : Keeps own u (u.mapPage dma phys).2 := by
  rw [VtdUnit.mapPage, hwired.getContextTable]
  dsimp only
  rw [hwired.slptFrame]
  obtain ⟨hkeeps, hpt⟩ := ensureTables_keeps (slPath dma) h (t := 0) .root
  generalize ensureTables (slPath dma) 0 u = res at hkeeps hpt
  obtain ⟨_ | pt, u'⟩ := res
  · exact hkeeps
  · exact hkeeps.trans (hkeeps.apart.write (hpt pt rfl) _ _)

theorem Wired.unmapPage (dma : ℕ) : Keeps own u (u.unmapPage dma) := by
  rw [VtdUnit.unmapPage, hwired.getContextTable]
  dsimp only
  rw [hwired.slptFrame]
  split
  · exact .refl h
  · rename_i pt hpt
    exact h.write (findTable_reaches (slPath dma) (t := 0) .root hpt) _ _

omit hwired h in
theorem Wired.mapLoop (hwired : Wired own u ctx slpt) (h : Apart own u.mem u.supply)
    (dma phys i n : ℕ) : Keeps own u (VtdUnit.mapLoop dma phys i n u).2 := by
  induction n generalizing i u with
  | zero => exact .refl h
  | succ n ih =>
    rw [VtdUnit.mapLoop]
    have hpage := hwired.mapPage h (u64Add dma (i * pageSize)) (u64Add phys (i * pageSize))
    generalize u.mapPage _ _ = res at hpage
    obtain ⟨_ | _, u'⟩ := res
    · exact hpage
    · exact hpage.trans (ih (hwired.keeps hpage) hpage.apart (i + 1))

omit hwired h in
theorem Wired.unmapLoop (hwired : Wired own u ctx slpt) (h : Apart own u.mem u.supply)
    (dma i n : ℕ) : Keeps own u (VtdUnit.unmapLoop dma i n u) := by
  induction n generalizing i u with
  | zero => exact .refl h
  | succ n ih =>
    have hpage := hwired.unmapPage h (u64Add dma (i * pageSize))
    exact hpage.trans (ih (hwired.keeps hpage) hpage.apart (i + 1))

/-- Whatever is mapped, only tables at address zero change. -/
theorem Wired.mapPages (phys size : ℕ) : Keeps own u (u.mapPages phys size).2 := by
  rw [VtdUnit.mapPages]
  split
  · rename_i hmode
    cases hmode.symm.trans hwired.mode
  have hwired' : Wired own { u with
      nextDmaAddr := u64Add u.nextDmaAddr (pagesFor size * pageSize) } ctx slpt :=
    hwired.congr subset_rfl (fun _ _ => rfl) rfl rfl
  have hloop := hwired'.mapLoop h u.nextDmaAddr phys 0 (pagesFor size)
  dsimp only
  generalize VtdUnit.mapLoop _ _ _ _ _ = res at hloop ⊢
  obtain ⟨_ | _, u'⟩ := res <;> exact ⟨hloop.1, hloop.2, hloop.3, hloop.4, hloop.5⟩

/-- And whatever is unmapped. -/
theorem Wired.unmapPages (dma size : ℕ) : Keeps own u (u.unmapPages dma size) := by
  rw [VtdUnit.unmapPages, hwired.mode]
  exact hwired.unmapLoop h dma 0 (pagesFor size)

end

/-! ### The hardware -/

/-- The hardware comes to the blank table and finds nothing. -/
theorem Wired.hardwareWalk (h : Wired own u ctx slpt) {devfn : ℕ} (hdev : devfn < 256) (dma : ℕ) :
    u.hardwareWalk devfn dma = none := by
  obtain ⟨hpresent, htable⟩ := h.contextTable
  have hslpt := h.bounds.2
  have hlow : ¬ (slpt * 4096 + 1) &&& presentBit = 0 := by
    rw [and_presentBit]
    omega
  have hkind : ¬ (slpt * 4096 + 1) &&& 12 = ctePassthrough := by
    rw [and_translationType, ctePassthrough]
    omega
  have hframe : ((slpt * 4096 + 1) &&& pointerMask) / pageSize = slpt := by
    rw [and_pointerMask, pageSize]
    omega
  rw [VtdUnit.hardwareWalk, if_neg hpresent]
  simp only [htable, h.low devfn hdev, if_neg hlow, if_neg hkind, hframe]
  split
  · rfl
  · have hzero : ¬ (0 &&& slpteRw ≠ 0) := by decide
    rw [slPath, cons_append, cons_append, cons_append, nil_append, hardwareTables, h.blank,
      if_pos (not_not.1 hzero)]
    · rfl
    · nofun

/-! ### Setting up -/

theorem writeContexts_fields (ctx low high n : ℕ) (u : VtdUnit) :
    (writeContexts ctx low high n u).supply = u.supply ∧
      (writeContexts ctx low high n u).rootTable = u.rootTable ∧
      (writeContexts ctx low high n u).translationMode = u.translationMode := by
  induction n with
  | zero => exact ⟨rfl, rfl, rfl⟩
  | succ n ih => exact ih

/-- The context entries that have been written, and nothing else. -/
theorem mem_writeContexts (ctx low high n : ℕ) (u : VtdUnit) :
    (∀ t ≠ ctx, (writeContexts ctx low high n u).mem t = u.mem t) ∧
      ∀ devfn < n, (writeContexts ctx low high n u).mem ctx (2 * devfn) = low ∧
        (writeContexts ctx low high n u).mem ctx (2 * devfn + 1) = high := by
  induction n with
  | zero => exact ⟨fun _ _ => rfl, nofun⟩
  | succ n ih =>
    have hmem : (writeContexts ctx low high (n + 1) u).mem
        = ((writeContexts ctx low high n u).mem.set ctx (2 * n) low).set ctx (2 * n + 1) high :=
      rfl
    rw [hmem]
    refine ⟨fun t ht => ?_, fun devfn hdev => ?_⟩
    · rw [Tables.set, update_of_ne ht, Tables.set, update_of_ne ht, ih.1 t ht]
    · rcases Nat.lt_succ_iff_lt_or_eq.1 hdev with hlt | rfl
      · obtain ⟨hlow, hhigh⟩ := ih.2 devfn hlt
        constructor
        · rw [set_of_ne (.inr (by omega)), set_of_ne (.inr (by omega)), hlow]
        · rw [set_of_ne (.inr (by omega)), set_of_ne (.inr (by omega)), hhigh]
      · exact ⟨by rw [set_of_ne (.inr (by omega)), set_self], set_self _ _ _ _⟩

/-- Memory with the root table linked to the context table. -/
def linked (mem : Tables ℕ) (root ctx : ℕ) : Tables ℕ :=
  ((Tables.set (update (update mem root fun _ => 0) ctx fun _ => 0) root 0
    ((ctx * pageSize &&& pointerMask) ||| presentBit))).set root 1 0

theorem linked_of_ne {root : ℕ} (hroot : t ≠ root) (hctx : t ≠ ctx) :
    linked mem root ctx t = mem t := by
  rw [linked, Tables.set, update_of_ne hroot, Tables.set, update_of_ne hroot,
    update_of_ne hctx, update_of_ne hroot]

theorem linked_root {root : ℕ} (hctx : ctx < 2 ^ 40) :
    linked mem root ctx root 0 = ctx * 4096 + 1 := by
  have hne : (0 : ℕ) ≠ 1 := by decide
  rw [linked, set_of_ne (.inr hne), set_self, pointer_or hctx]

/-- The unit before the context entries are written. -/
def linkedUnit (mem : Tables ℕ) (supply : List (Option ℕ)) (root : ℕ) (mode : TranslationMode) :
    VtdUnit :=
  ⟨mem, supply, root, mode, 0x1000⟩

variable {canPassThrough : Bool}

/-- What set-up makes of its first pages. -/
theorem init_cases {mode : TranslationMode}
    (hinit : (VtdUnit.new mem supply).init mode canPassThrough = .ok u) :
    ∃ root ctx rest, supply = some root :: some ctx :: rest ∧
      (mode = .passthrough ∧ u = writeContexts ctx 11 2 256
          (linkedUnit (linked mem root ctx) rest root .passthrough) ∨
        mode = .translate ∧ ∃ slpt rest', rest = some slpt :: rest' ∧
          u = writeContexts ctx (presentBit ||| cteUntranslated |||
            (slpt * pageSize &&& pointerMask))
            2 256 (linkedUnit (update (linked mem root ctx) slpt fun _ => 0) rest' root
              .translate)) := by
  have hinit' : ({ VtdUnit.new mem supply with translationMode := mode } : VtdUnit).initRootTable
      = .ok u := by
    rw [init] at hinit
    split at hinit
    · cases hinit
    · exact hinit
  match supply with
  | [] => cases hinit'
  | none :: _ => cases hinit'
  | [some _] => cases hinit'
  | some _ :: none :: _ => cases hinit'
  | some root :: some ctx :: rest =>
    refine ⟨root, ctx, rest, rfl, ?_⟩
    cases mode with
    | passthrough => exact .inl ⟨rfl, (Except.ok.inj hinit').symm⟩
    | translate =>
      match rest with
      | [] => cases hinit'
      | none :: _ => cases hinit'
      | some slpt :: rest => exact .inr ⟨rfl, slpt, rest, rfl, (Except.ok.inj hinit').symm⟩

/-- Set-up writes to pages that it got from the allocator. -/
theorem mem_init {mode : TranslationMode}
    (hinit : (VtdUnit.new mem supply).init mode canPassThrough = .ok u) (ht : t ∉ frames supply) :
    u.mem t = mem t := by
  obtain ⟨root, ctx, rest, rfl, hcase⟩ := init_cases hinit
  have hroot : t ≠ root := fun heq => ht (by simp [frames, heq])
  have hctx : t ≠ ctx := fun heq => ht (by simp [frames, heq])
  rcases hcase with ⟨-, rfl⟩ | ⟨-, slpt, rest, rfl, rfl⟩
  · rw [(mem_writeContexts _ _ _ _ _).1 t hctx]
    exact linked_of_ne hroot hctx
  · have hslpt : t ≠ slpt := fun heq => ht (by simp [frames, heq])
    rw [(mem_writeContexts _ _ _ _ _).1 t hctx]
    exact (update_of_ne hslpt _ _).trans (linked_of_ne hroot hctx)

/-- A unit that was set up for translation is wired in three pages that the
allocator gave. -/
theorem init_wired (h : Apart own mem supply)
    (hinit : (VtdUnit.new mem supply).init .translate canPassThrough = .ok u) :
    ∃ ctx slpt new, new ⊆ frames supply ∧ u.supply <+ supply ∧ Wired new u ctx slpt ∧
      Apart (own ∪ new) u.mem u.supply := by
  have hmem : ∀ t, t ∉ frames supply → u.mem t = mem t := fun t ht => mem_init hinit ht
  obtain ⟨root, ctx, rest, rfl, ⟨hmode, -⟩ | ⟨-, slpt, rest, rfl, hu⟩⟩ := init_cases hinit
  · cases hmode
  have hnodup := h.nodup
  simp only [filterMap_cons, id_eq, nodup_cons, mem_cons, not_or] at hnodup
  obtain ⟨⟨hrootCtx, hrootSlpt, hroot⟩, ⟨hctxSlpt, hctx⟩, hslpt, -⟩ := hnodup
  have hctx40 : ctx < 2 ^ 40 := (h.fresh ctx (by simp [frames])).1
  have hslpt40 : slpt < 2 ^ 40 := (h.fresh slpt (by simp [frames])).1
  have hlowWord : presentBit ||| cteUntranslated ||| (slpt * pageSize &&& pointerMask)
      = slpt * 4096 + 1 := by
    rw [show presentBit ||| cteUntranslated = presentBit from rfl, Nat.or_comm, pointer_or hslpt40]
  rw [hlowWord] at hu
  let u0 : VtdUnit :=
    linkedUnit (update (linked mem root ctx) slpt fun _ => 0) rest root .translate
  obtain rfl : u = writeContexts ctx (slpt * 4096 + 1) 2 256 u0 := hu
  obtain ⟨hfsupply, hfroot, hfmode⟩ := writeContexts_fields ctx (slpt * 4096 + 1) 2 256 u0
  obtain ⟨hother, hcontexts⟩ := mem_writeContexts ctx (slpt * 4096 + 1) 2 256 u0
  have hsub : rest <+ some root :: some ctx :: some slpt :: rest :=
    ((sublist_cons_self _ _).trans (sublist_cons_self _ _)).trans (sublist_cons_self _ _)
  have hnew : {root, ctx, slpt} ⊆ frames (some root :: some ctx :: some slpt :: rest) := by
    rintro c (rfl | rfl | rfl) <;> simp [frames]
  refine ⟨ctx, slpt, {root, ctx, slpt}, hnew, by rwa [hfsupply], ⟨hfmode, ?_, ⟨hctx40, hslpt40⟩, ?_,
    fun devfn hdev => (hcontexts devfn hdev).1, fun devfn hdev => (hcontexts devfn hdev).2,
    fun i => ?_⟩, ?_⟩
  · rw [hfroot]
    exact ⟨.inl rfl, .inr (.inl rfl), .inr (.inr rfl)⟩
  · rw [hfroot, hother u0.rootTable hrootCtx]
    exact (congrFun (update_of_ne hrootSlpt _ _) 0).trans (linked_root hctx40)
  · have hzero : u0.mem slpt = fun _ => 0 := update_self _ _ _
    rw [hother slpt (Ne.symm hctxSlpt), hzero]
  · rw [hfsupply]
    refine h.congr hsub (fun k t ht => hmem t fun hc => (h.fresh t hc).2.2 k ht)
      (Set.union_subset_union_right _ hnew) fun c hc => ?_
    have hcmem : c ∈ rest.filterMap id := mem_filterMap.2 ⟨some c, hc, rfl⟩
    rintro (hown | rfl | rfl | rfl)
    · exact (h.fresh c (hsub.subset hc)).2.1 hown
    · exact hroot hcmem
    · exact hctx hcmem
    · exact hslpt hcmem

end VtdUnit

end JanuaryOs.Dma

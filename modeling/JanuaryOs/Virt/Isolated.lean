import JanuaryOs.Virt.TxnSpec

/-!
# Copy-on-write isolation, as a property of the entries of all page tables

`S` says which pages lie in shared areas. Outside of them, a frame that two
address spaces map is writable in neither. An address space maps a frame at most
once; this is what makes it enough to look at one page when a frame gets a
second owner.

The lemmas follow the changes that the calls make: entries disappear, a page
gets a frame that nobody maps, a page gets other flags, a frame is mapped in a
second address space.
-/

namespace JanuaryOs.Virt

/-- Nobody else maps the frame outside shared areas. -/
def Exclusive (S : MmId → ℕ → Prop) (P : MmId → ℕ → Option Pte) (id : MmId) (f : Pfn) : Prop :=
  ∀ i m q, i ≠ id → P i m = some q → q.pfn = f → S i m

/-- Private frames with two owners are read-only. -/
structure Isolated (S : MmId → ℕ → Prop) (P : MmId → ℕ → Option Pte) : Prop where
  once : ∀ i n m p q, P i n = some p → P i m = some q → p.pfn = q.pfn → n = m
  readOnly : ∀ i j n m p q, i ≠ j → P i n = some p → P j m = some q → p.pfn = q.pfn →
    ¬ S i n → ¬ S j m → p.flags.writable = false

namespace Isolated

variable {S S' : MmId → ℕ → Prop} {P P' : MmId → ℕ → Option Pte} {id src dst : MmId} {n : ℕ}
  {f : Pfn} {p : Pte} {flags : PteFlags}

theorem empty (h : ∀ i n, P i n = none) : Isolated S P := by
  constructor
  · intro i n _ _ _ hp
    rw [h] at hp
    cases hp
  · intro i _ n _ _ _ _ hp
    rw [h] at hp
    cases hp

/-- Entries may go, and pages may come under shared areas. -/
theorem mono (h : Isolated S P) (hP : ∀ i m p, P' i m = some p → P i m = some p)
    (hS : ∀ i m p, P' i m = some p → S i m → S' i m) : Isolated S' P' :=
  ⟨fun i n m p q hp hq => h.once i n m p q (hP i n p hp) (hP i m q hq),
    fun i j n m p q hij hp hq heq hi hj =>
      h.readOnly i j n m p q hij (hP i n p hp) (hP j m q hq) heq
      (fun hs => hi (hS i n p hp hs)) fun hs => hj (hS j m q hq hs)⟩

/-- An entry for a frame that its own address space does not map; the other
private owners and the new one have it read-only. -/
theorem enter (h : Isolated S P) (hnew : ∀ m q, P id m = some q → q.pfn ≠ p.pfn)
    (hro : ∀ j m q, j ≠ id → P j m = some q → q.pfn = p.pfn → ¬ S id n → ¬ S j m →
      p.flags.writable = false ∧ q.flags.writable = false) :
    Isolated S (setEntry P id n (some p)) := by
  constructor
  · intro i n' m q q' hq hq' heq
    rcases setEntry_cases hq with ⟨rfl, rfl, ⟨⟩⟩ | hq0 <;>
      rcases setEntry_cases hq' with ⟨hi, rfl, ⟨⟩⟩ | hq0'
    · rfl
    · exact absurd heq.symm (hnew m q' hq0')
    · subst hi
      exact absurd heq (hnew n' q hq0)
    · exact h.once i n' m q q' hq0 hq0' heq
  · intro i j n' m q q' hij hq hq' heq hi hj
    rcases setEntry_cases hq with ⟨rfl, rfl, ⟨⟩⟩ | hq0 <;>
      rcases setEntry_cases hq' with ⟨rfl, rfl, ⟨⟩⟩ | hq0'
    · exact absurd rfl hij
    · exact (hro j m q' hij.symm hq0' heq.symm hi hj).1
    · exact (hro i n' q hij hq0 heq hj hi).2
    · exact h.readOnly i j n' m q q' hij hq0 hq0' heq hi hj

theorem install (h : Isolated S P) (hf : ∀ i m q, P i m = some q → q.pfn ≠ f) (flags : PteFlags) :
    Isolated S (setEntry P id n (some ⟨f, flags⟩)) :=
  h.enter (hf id) fun j m q _ hq heq => absurd heq (hf j m q hq)

/-- Pages get other flags. A page that becomes writable is shared, or its frame
is exclusive. -/
theorem reflag {pages : List ℕ} (h : Isolated S P)
    (hw : flags.writable = true → ∀ m ∈ pages, ∀ p, P id m = some p →
      S id m ∨ Exclusive S P id p.pfn) :
    Isolated S (Kernel.reflagPages P id pages flags) := by
  have hold : ∀ i m q, Kernel.reflagPages P id pages flags i m = some q →
      ∃ p, P i m = some p ∧ q.pfn = p.pfn ∧
        (q = p ∨ i = id ∧ m ∈ pages ∧ q.flags = flags) := by
    intro i m q hq
    unfold Kernel.reflagPages at hq
    split at hq
    · rename_i him
      obtain ⟨p, hp, rfl⟩ := Option.map_eq_some_iff.1 hq
      exact ⟨p, hp, rfl, .inr ⟨him.1, him.2, rfl⟩⟩
    · exact ⟨q, hq, rfl, .inl rfl⟩
  constructor
  · intro i n m p q hp hq heq
    obtain ⟨p0, hp0, hpf, -⟩ := hold i n p hp
    obtain ⟨q0, hq0, hqf, -⟩ := hold i m q hq
    exact h.once i n m p0 q0 hp0 hq0 (by rw [← hpf, ← hqf, heq])
  · intro i j n m p q hij hp hq heq hi hj
    obtain ⟨p0, hp0, hpf, hpcase⟩ := hold i n p hp
    obtain ⟨q0, hq0, hqf, -⟩ := hold j m q hq
    have heq0 : p0.pfn = q0.pfn := by rw [← hpf, ← hqf, heq]
    rcases hpcase with rfl | ⟨rfl, hn, rfl⟩
    · exact h.readOnly i j n m p q0 hij hp0 hq0 heq0 hi hj
    -- the page that changed: writable only if the other owner's page is shared
    by_contra hwr
    rw [Bool.not_eq_false] at hwr
    rcases hw hwr n hn p0 hp0 with hs | hex
    · exact hi hs
    · exact hj (hex j m q0 (Ne.symm hij) hq0 heq0.symm)

theorem setEntry_eq_reflagPages (hp : P id n = some p) :
    setEntry P id n (some ⟨p.pfn, flags⟩) = Kernel.reflagPages P id [n] flags := by
  funext i m
  by_cases him : i = id ∧ m = n
  · obtain ⟨rfl, rfl⟩ := him
    simp [Kernel.reflagPages, hp]
  · rw [setEntry_of_ne him, Kernel.reflagPages, if_neg (by simpa using him)]

/-- A page whose frame nobody else maps gets any flags. -/
theorem reuse (h : Isolated S P) (hp : P id n = some p)
    (hone : ∀ i m q, P i m = some q → q.pfn = p.pfn → i = id) (flags : PteFlags) :
    Isolated S (setEntry P id n (some ⟨p.pfn, flags⟩)) := by
  rw [setEntry_eq_reflagPages hp]
  refine h.reflag fun _ m hm q hq => .inr fun i m' q' hi hq' hpfn => absurd ?_ hi
  rw [List.mem_singleton.1 hm] at hq
  rw [hp] at hq
  cases hq
  exact hone i m' q' hq' hpfn

/-- A frame gets a second owner at the same page: read-only on both sides unless
the page is shared. -/
theorem share (h : Isolated S P) (hp : P src n = some p) (hne : src ≠ dst)
    (hnew : ∀ m q, P dst m = some q → q.pfn ≠ p.pfn) (hS : S src n → S dst n)
    (hro : ¬ S dst n → flags.writable = false ∧ p.flags.writable = false) :
    Isolated S (setEntry P dst n (some ⟨p.pfn, flags⟩)) := by
  refine h.enter hnew fun j m q hj hq hpfn hdst hjm => ⟨(hro hdst).1, ?_⟩
  by_cases hsrc : j = src
  · subst hsrc
    have hmn := h.once j m n q p hq hp hpfn
    subst hmn
    rw [hp] at hq
    cases hq
    exact (hro hdst).2
  · exact h.readOnly j src m n q p hsrc hq hp hpfn hjm fun hs => hdst (hS hs)

end Isolated

end JanuaryOs.Virt

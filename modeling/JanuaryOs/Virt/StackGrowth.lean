import JanuaryOs.Virt.Areas

/-!
# Growth of a stack at a page fault

An area that grows down is extended to the page of the fault, between the lowest
address of a stack and the bottom of the stack. The bottom is computed from the
number of pages of all areas that grow down, so any other such area moves it
down, and with it the window in which a fault is answered.
-/

namespace JanuaryOs.Virt

open Lib Libs.Mptree IntervalMap MapleTree

namespace Mm

variable {mm mm' : Mm} {vma m : Vma} {addr : ℕ}

/-- A fault below an area that grows down, with nothing in between, extends the
area. -/
theorem expandStackForFault_accepts (hm : m ∈ mm.vmaTree) (hgrow : m.value.flags.growsdown = true)
    (hbelow : pageAlignDown addr < m.start)
    (hfree : ∀ b ∈ mm.vmaTree, ¬ b.Meets (pageAlignDown addr) m.start)
    (hmin : mm.stackExpandMinAddr ≤ pageAlignDown addr)
    (hbottom : pageAlignDown addr < mm.stackTopAddr - mm.stackVm * pageSize % 2 ^ 64) :
    ∃ mm', mm.expandStackForFault addr = (some ⟨pageAlignDown addr, m.stop, m.value⟩, mm') := by
  unfold expandStackForFault expandStack
  generalize pageAlignDown addr = page at *
  have hproper := start_lt_stop hm
  have hfirst : mm.vmaTree.lowerBound page = some m :=
    lowerBound_eq_some hm hbelow.le fun b hb hle => by
      have := hfree b hb
      have := start_lt_stop hb
      unfold Interval.Meets at *
      omega
  have hmove : (mm.vmaTree.moveStart m.start page).1 = .ok () :=
    moveStart_accepts hm (by omega) fun b hb hne => by
      have := hfree b hb
      have := start_lt_stop hb
      have := apart_of_ne hb hm hne
      unfold Interval.Meets Interval.Apart at *
      simp only
      omega
  obtain ⟨a, ha, hstart, -, hmem⟩ := moveStart_ok hmove
  obtain rfl := eq_of_start_eq ha hm hstart
  rcases hres : mm.vmaTree.moveStart a.start page with ⟨r, tree⟩
  rw [hres] at hmove hmem
  cases hmove
  have hfind : tree.at? page = some ⟨page, a.stop, a.value⟩ :=
    at?_eq_some.2 ⟨(hmem _).2 (.inl rfl), le_rfl, hbelow.trans hproper⟩
  rw [if_neg (by omega), hfirst]
  simp only [hgrow, hbelow, and_self, if_true, if_neg (not_le.2 hbelow), hres]
  exact ⟨_, congrArg (·, _) hfind⟩

/-- Flags of a stack. -/
def growsFlags : VmFlags :=
  { read := true, write := true, mayWrite := true, anonymous := true, growsdown := true }

/-- An address space with a stack of one page. -/
def withStack : Mm :=
  (init.insertVma (userStackTop - pageSize) userStackTop { flags := growsFlags }).2

/-- The same with a second area of one page that grows down. -/
def withTwoStacks : Mm :=
  (withStack.insertVma userSpaceStart (userSpaceStart + pageSize) { flags := growsFlags }).2

end Mm

end JanuaryOs.Virt

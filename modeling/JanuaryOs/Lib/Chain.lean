import Mathlib

/-!
# Singly linked lists whose links are kept in the nodes, or anywhere else

All that is known of a node is the node after it, `next`. `Chain next head l`
says that following the links from `head` visits `l` and ends. The loops over
such a list are bounded by a number of rounds; on a chain that is not longer
they are what they are on the list: a search is `List.find?` (`findFrom_eq`), a
count the length (`countFrom_eq`), and unlinking a node erases it
(`unlink_spec`).
-/

namespace JanuaryOs.Lib

open Function List

variable {α : Type*}

/-- Following the links from a head visits the list and ends. -/
def Chain (next : α → Option α) : Option α → List α → Prop
  | head, [] => head = none
  | head, x :: xs => head = some x ∧ Chain next (next x) xs

variable {next next' : α → Option α} {head : Option α} {x : α} {l : List α} {n : ℕ}

theorem Chain.congr (h : Chain next head l) (hnext : ∀ x ∈ l, next' x = next x) :
    Chain next' head l := by
  induction l generalizing head with
  | nil => exact h
  | cons x xs ih =>
    rw [forall_mem_cons] at hnext
    refine ⟨h.1, ?_⟩
    rw [hnext.1]
    exact ih h.2 hnext.2

/-! ### Loops -/

def findFrom (next : α → Option α) (p : α → Bool) : ℕ → Option α → Option α
  | 0, _ => none
  | _ + 1, none => none
  | n + 1, some x => if p x then some x else findFrom next p n (next x)

theorem findFrom_eq {p : α → Bool} (h : Chain next head l) (hn : l.length ≤ n) :
    findFrom next p n head = l.find? p := by
  induction l generalizing head n with
  | nil =>
    obtain rfl : head = none := h
    cases n <;> rfl
  | cons x xs ih =>
    obtain ⟨rfl, hxs⟩ := h
    obtain _ | n := n
    · exact absurd hn (Nat.not_succ_le_zero _)
    rw [findFrom, find?_cons, ih hxs (Nat.le_of_succ_le_succ hn)]
    cases p x <;> rfl

/-- How many nodes there are, counted up to a limit. -/
def countFrom (next : α → Option α) : ℕ → Option α → ℕ
  | 0, _ => 0
  | _ + 1, none => 0
  | n + 1, some x => countFrom next n (next x) + 1

theorem countFrom_eq (h : Chain next head l) (hn : l.length ≤ n) :
    countFrom next n head = l.length := by
  induction l generalizing head n with
  | nil =>
    obtain rfl : head = none := h
    cases n <;> rfl
  | cons x xs ih =>
    obtain ⟨rfl, hxs⟩ := h
    cases n with
    | zero => exact absurd hn (Nat.not_succ_le_zero _)
    | succ n => rw [countFrom, ih hxs (Nat.le_of_succ_le_succ hn), length_cons]

/-! ### Unlinking -/

section Unlink

variable [DecidableEq α]

/-- The head of a list, and the links. -/
structure Links (α : Type*) where
  head : Option α
  next : α → Option α

/-- Look for a node and take it out; `prev` is the node in front of `curr`. -/
def unlinkFrom (target : α) : ℕ → Option α → Option α → Links α → Option (Links α)
  | 0, _, _, _ => none
  | _ + 1, _, none, _ => none
  | n + 1, prev, some curr, links =>
    let after := links.next curr
    if curr = target then
      match prev with
      | none => some ⟨after, update links.next curr none⟩
      | some p =>
        some ⟨links.head, update (update links.next p after) curr none⟩
    else unlinkFrom target n (some curr) after links

def unlink (target : α) (n : ℕ) (links : Links α) : Option (Links α) :=
  unlinkFrom target n none links.head links

/-- Behind a node that stays. -/
theorem unlinkFrom_spec {target p : α} {links : Links α} (h : Chain links.next (links.next p) l)
    (hl : (p :: l).Nodup) (ht : target ∈ l) (hn : l.length ≤ n) :
    ∃ links', unlinkFrom target n (some p) (links.next p) links = some links' ∧
      links'.head = links.head ∧ Chain links'.next (links'.next p) (l.erase target) ∧
      ∀ x, x ∉ p :: l → links'.next x = links.next x := by
  induction l generalizing p n with
  | nil => cases ht
  | cons x xs ih =>
    obtain ⟨hx, hxs⟩ := h
    obtain ⟨hp, hl'⟩ := nodup_cons.1 hl
    rw [mem_cons, not_or] at hp
    have hxn : x ∉ xs := (nodup_cons.1 hl').1
    obtain _ | n := n
    · exact absurd hn (Nat.not_succ_le_zero _)
    rw [hx, unlinkFrom]
    by_cases hxt : x = target
    · subst hxt
      rw [if_pos rfl]
      refine ⟨_, rfl, rfl, ?_, fun y hy => ?_⟩
      · rw [erase_cons_head]
        simp only [update_of_ne hp.1, update_self]
        refine hxs.congr fun y hy => ?_
        rw [update_of_ne (ne_of_mem_of_not_mem hy hxn),
          update_of_ne (ne_of_mem_of_not_mem hy hp.2)]
      · simp only [mem_cons, not_or] at hy
        simp only [update_of_ne hy.2.1, update_of_ne hy.1]
    · rw [if_neg hxt]
      have ht' : target ∈ xs := (mem_cons.1 ht).resolve_left fun h => hxt h.symm
      obtain ⟨links', hlinks', hhead, hchain, hsame⟩ :=
        ih (p := x) hxs hl' ht' (Nat.le_of_succ_le_succ hn)
      refine ⟨links', hlinks', hhead, ?_, fun y hy => hsame y fun h => ?_⟩
      · rw [erase_cons_tail (by simpa using hxt)]
        exact ⟨(hsame p fun h => (mem_cons.1 h).elim hp.1 hp.2).trans hx, hchain⟩
      · exact hy (mem_cons_of_mem _ h)

/-- The node is erased, and the links of other nodes stay. -/
theorem unlink_spec {target : α} (links : Links α) (h : Chain links.next links.head l)
    (hl : l.Nodup) (ht : target ∈ l) (hn : l.length ≤ n) :
    ∃ links', unlink target n links = some links' ∧
      Chain links'.next links'.head (l.erase target) ∧
      ∀ x, x ∉ l → links'.next x = links.next x := by
  unfold unlink
  obtain _ | ⟨x, xs⟩ := l
  · cases ht
  obtain ⟨hx, hxs⟩ := h
  have hxn : x ∉ xs := (nodup_cons.1 hl).1
  obtain _ | n := n
  · exact absurd hn (Nat.not_succ_le_zero _)
  rw [hx, unlinkFrom]
  by_cases hxt : x = target
  · subst hxt
    rw [if_pos rfl]
    refine ⟨_, rfl, ?_, fun y hy => ?_⟩
    · rw [erase_cons_head]
      exact hxs.congr fun y hy => update_of_ne (ne_of_mem_of_not_mem hy hxn) _ _
    · exact update_of_ne (ne_of_not_mem_cons hy) _ _
  · rw [if_neg hxt]
    have ht' : target ∈ xs := (mem_cons.1 ht).resolve_left fun h => hxt h.symm
    obtain ⟨links', hlinks', hhead, hchain, hsame⟩ :=
      unlinkFrom_spec hxs hl ht' (Nat.le_of_succ_le_succ hn)
    refine ⟨links', hlinks', ?_, hsame⟩
    rw [erase_cons_tail (by simpa using hxt)]
    exact ⟨hhead.trans hx, hchain⟩

end Unlink

end JanuaryOs.Lib

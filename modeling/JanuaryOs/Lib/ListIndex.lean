import Mathlib

/-!
# Vector surgery at the end of a known prefix

A proof about code that indexes a vector splits the vector once, `A ++ b :: B`,
and from then on reads and writes at index `A.length` or `A.length + 1`. These
are the rewrite rules for that index.
-/

namespace JanuaryOs.Lib

open List

variable {α : Type*} {l : List α}

theorem exists_split_of_lt {i : ℕ} (h : i < l.length) : ∃ A b B, l = A ++ b :: B ∧ A.length = i :=
  ⟨l.take i, l[i], l.drop (i + 1), by simp, by simp; omega⟩

theorem exists_concat {n : ℕ} (h : l.length = n + 1) : ∃ A b, l = A ++ [b] :=
  (eq_nil_or_concat' l).resolve_left (ne_nil_of_length_eq_add_one h)

variable (A B : List α) (b c x : α)

@[simp] theorem getElem?_at : (A ++ b :: B)[A.length]? = some b := by simp

@[simp] theorem getElem?_after : (A ++ b :: c :: B)[A.length + 1]? = some c := by
  rw [getElem?_append_right (Nat.le_succ _)]
  simp

@[simp] theorem set_at : (A ++ b :: B).set A.length x = A ++ x :: B := by simp

@[simp] theorem set_after : (A ++ b :: c :: B).set (A.length + 1) x = A ++ b :: x :: B := by
  rw [set_append_right _ _ (Nat.le_succ _)]
  simp

@[simp] theorem insertIdx_at : (A ++ B).insertIdx A.length x = A ++ x :: B := by
  induction A with
  | nil => simp
  | cons a A ih => simpa using ih

@[simp] theorem insertIdx_after : (A ++ b :: B).insertIdx (A.length + 1) x = A ++ b :: x :: B := by
  induction A with
  | nil => simp
  | cons a A ih => simpa using ih

@[simp] theorem eraseIdx_at : (A ++ b :: B).eraseIdx A.length = A ++ B := by
  induction A with
  | nil => simp
  | cons a A ih => simpa using ih

@[simp] theorem eraseIdx_after : (A ++ b :: c :: B).eraseIdx (A.length + 1) = A ++ b :: B := by
  induction A with
  | nil => simp
  | cons a A ih => simpa using ih

/-! The same where the index is known to be the length. -/

variable {A B b} {n : ℕ} (h : A.length = n)

include h

theorem getElem?_at_of : (A ++ b :: B)[n]? = some b := h ▸ getElem?_at A B b

theorem set_at_of : (A ++ b :: B).set n x = A ++ x :: B := h ▸ set_at A B b x

end JanuaryOs.Lib

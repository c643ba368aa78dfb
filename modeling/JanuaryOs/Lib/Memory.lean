import Mathlib

/-!
# Spans of addresses, and a memory of bytes with words in it

A span is a half-open range. Two spans are disjoint if no address is in both,
which is one comparison of their ends, so that it can be decided and is linear
arithmetic in proofs. Empty spans are disjoint from everything.

Words are eight bytes at any address, the lowest byte first. A word that was
stored is read back, and what is stored elsewhere does not change it.
-/

namespace JanuaryOs.Lib

/-! ### Spans -/

/-- The addresses from `start` up to, not including, `stop`. -/
structure Span where
  start : ℕ
  stop : ℕ
  deriving Repr, DecidableEq

namespace Span

def Has (a : Span) (x : ℕ) : Prop := a.start ≤ x ∧ x < a.stop
deriving Decidable

def Disjoint (a b : Span) : Prop := min a.stop b.stop ≤ max a.start b.start
deriving Decidable

def Within (a b : Span) : Prop := b.start ≤ a.start ∧ a.stop ≤ b.stop
deriving Decidable

variable {a b : Span}

theorem disjoint_iff : a.Disjoint b ↔ ∀ x, a.Has x → ¬ b.Has x := by
  simp only [Disjoint, Has]
  constructor
  · intro h x ha hb
    omega
  · intro h
    have := h (max a.start b.start)
    omega

theorem Disjoint.symm (h : a.Disjoint b) : b.Disjoint a := by
  simp only [Disjoint] at h ⊢
  omega

theorem Within.trans {c : Span} (h1 : a.Within b) (h2 : b.Within c) : a.Within c :=
  ⟨h2.1.trans h1.1, h1.2.trans h2.2⟩

theorem Within.has (h : a.Within b) {x : ℕ} (hx : a.Has x) : b.Has x :=
  ⟨h.1.trans hx.1, hx.2.trans_le h.2⟩

theorem Disjoint.mono {a' b' : Span} (h : a.Disjoint b) (ha : a'.Within a) (hb : b'.Within b) :
    a'.Disjoint b' :=
  disjoint_iff.2 fun x hx hx' => disjoint_iff.1 h x (ha.has hx) (hb.has hx')

end Span

/-! ### Bytes and words -/

/-- The contents of all addresses. -/
abbrev ByteMem := ℕ → UInt8

namespace ByteMem

/-- The number in `n` bytes from an address on. -/
def loadBytes (mem : ByteMem) : ℕ → ℕ → ℕ
  | 0, _ => 0
  | n + 1, addr => (mem addr).toNat + 256 * loadBytes mem n (addr + 1)

def load (mem : ByteMem) (addr : ℕ) : ℕ := mem.loadBytes 8 addr

def store (mem : ByteMem) (addr word : ℕ) : ByteMem := fun x =>
  if addr ≤ x ∧ x < addr + 8 then UInt8.ofNat (word / 256 ^ (x - addr)) else mem x

variable {mem : ByteMem} {addr word : ℕ} {mem' : ByteMem}

theorem loadBytes_eq {n : ℕ} (h : ∀ i < n, mem (addr + i) = UInt8.ofNat (word / 256 ^ i)) :
    mem.loadBytes n addr = word % 256 ^ n := by
  induction n generalizing addr word with
  | zero => simp [loadBytes, Nat.mod_one]
  | succ n ih =>
    have hrest : mem.loadBytes n (addr + 1) = word / 256 % 256 ^ n := by
      refine ih fun i hi => ?_
      rw [Nat.add_assoc, Nat.add_comm 1 i, h (i + 1) (by omega), pow_succ, Nat.mul_comm,
        Nat.div_div_eq_div_mul]
    have hfirst : (mem addr).toNat = word % 256 := by
      have := h 0 (by omega)
      rw [Nat.add_zero, pow_zero, Nat.div_one] at this
      rw [this, UInt8.toNat_ofNat']
    rw [loadBytes, hfirst, hrest, pow_succ, Nat.mul_comm (256 ^ n), Nat.mod_mul]

theorem load_store (h : word < 2 ^ 64) : (mem.store addr word).load addr = word := by
  have hbytes : (mem.store addr word).loadBytes 8 addr = word % 256 ^ 8 :=
    loadBytes_eq fun i hi => by rw [store, if_pos (by omega), Nat.add_sub_cancel_left]
  rw [load, hbytes]
  exact Nat.mod_eq_of_lt h

theorem loadBytes_congr {n : ℕ} (h : ∀ x, addr ≤ x → x < addr + n → mem' x = mem x) :
    mem'.loadBytes n addr = mem.loadBytes n addr := by
  induction n generalizing addr with
  | zero => rfl
  | succ n ih =>
    rw [loadBytes, loadBytes, h addr le_rfl (by omega),
      ih fun x h1 h2 => h x (by omega) (by omega)]

theorem load_congr (h : ∀ x, addr ≤ x → x < addr + 8 → mem' x = mem x) :
    mem'.load addr = mem.load addr :=
  loadBytes_congr h

theorem store_of_not_has {x : ℕ} (h : ¬ Span.Has ⟨addr, addr + 8⟩ x) :
    mem.store addr word x = mem x := if_neg h

theorem load_store_of_disjoint {addr' : ℕ} (h : addr + 8 ≤ addr' ∨ addr' + 8 ≤ addr) :
    (mem.store addr' word).load addr = mem.load addr :=
  load_congr fun x h1 h2 => store_of_not_has fun hx => by
    have := hx.1
    have := hx.2
    simp only at *
    omega

end ByteMem

end JanuaryOs.Lib

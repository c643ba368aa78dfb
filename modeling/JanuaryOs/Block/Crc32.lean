import Mathlib

/-!
# The checksum of partition tables (`drivers/block/gpt.rs`)

A round of `crc32` is linear and loses nothing of the register. So the
difference of two checksums is a function of the difference of the strings, and
a difference within four bytes, which is all that the register holds, does not
vanish.
-/

namespace JanuaryOs.Block

open Function List

/-- A round of the inner loop. -/
def crcBit (crc : BitVec 32) : BitVec 32 :=
  if crc.getLsbD 0 then crc >>> 1 ^^^ 0xEDB88320 else crc >>> 1

/-- A round of the outer loop. -/
def crcByte (crc : BitVec 32) (b : BitVec 8) : BitVec 32 := crcBit^[8] (crc ^^^ b.setWidth 32)

def crc32 (bytes : List (BitVec 8)) : BitVec 32 := ~~~(bytes.foldl crcByte 0xFFFFFFFF)

variable {a b : List (BitVec 8)} {x y : BitVec 32} {n : ℕ}

theorem crcBits_xor (n : ℕ) (x y : BitVec 32) :
    crcBit^[n] (x ^^^ y) = crcBit^[n] x ^^^ crcBit^[n] y := by
  induction n generalizing x y with
  | zero => rfl
  | succ n ih =>
    have hbit : crcBit (x ^^^ y) = crcBit x ^^^ crcBit y := by
      unfold crcBit
      rw [BitVec.getLsbD_xor, BitVec.ushiftRight_xor_distrib]
      cases x.getLsbD 0 <;> cases y.getLsbD 0 <;> simp <;> ac_nf
      simp
    rw [iterate_succ_apply, hbit, ih]
    rfl

theorem crcByte_xor (x y : BitVec 32) (p q : BitVec 8) :
    crcByte (x ^^^ y) (p ^^^ q) = crcByte x p ^^^ crcByte y q := by
  rw [crcByte, crcByte, crcByte, ← crcBits_xor, BitVec.setWidth_xor]
  ac_rfl

theorem foldl_xor (hlen : a.length = b.length) (x y : BitVec 32) :
    (zipWith (· ^^^ ·) a b).foldl crcByte (x ^^^ y) = a.foldl crcByte x ^^^ b.foldl crcByte y := by
  induction a generalizing b x y with
  | nil =>
    obtain rfl := length_eq_zero_iff.1 hlen.symm
    rfl
  | cons p a ih =>
    obtain ⟨q, b, rfl⟩ := exists_cons_of_length_eq_add_one hlen.symm
    rw [zipWith_cons_cons, foldl_cons, crcByte_xor, ih (by simpa using hlen)]
    rfl

/-- The bit that is shifted out shows in the highest one. -/
theorem crcBit_injective : Injective crcBit := by
  intro x y h
  have hzero : crcBit (x ^^^ y) = 0 := (crcBits_xor 1 x y).trans (BitVec.xor_eq_zero_iff.2 h)
  rw [← BitVec.xor_eq_zero_iff]
  generalize x ^^^ y = z at hzero
  unfold crcBit at hzero
  split at hzero
  · have htop := congrArg (·.getLsbD 31) (BitVec.xor_eq_zero_iff.1 hzero)
    simp at htop
  · rename_i hlow
    have hlow : z.toNat % 2 = 0 := by simpa [BitVec.getLsbD] using hlow
    have hhigh : z.toNat / 2 = 0 := by simpa [Nat.shiftRight_one] using congrArg BitVec.toNat hzero
    exact BitVec.eq_of_toNat_eq (by simp; omega)

theorem foldl_injective (bytes : List (BitVec 8)) : Injective (bytes.foldl crcByte) := by
  induction bytes with
  | nil => exact injective_id
  | cons b bytes ih =>
    intro x y h
    simpa using (crcBit_injective.iterate 8) (ih h)

/-- Zeros are only shifted out. -/
theorem crcBits_of_mul (h : x.toNat = y.toNat * 2 ^ n) : crcBit^[n] x = y := by
  induction n generalizing x with
  | zero => exact BitVec.eq_of_toNat_eq (by simpa using h)
  | succ n ih =>
    rw [Nat.pow_succ, ← Nat.mul_assoc] at h
    rw [iterate_succ_apply]
    refine ih ?_
    rw [crcBit, if_neg (by simp [BitVec.getLsbD, h]), BitVec.toNat_ushiftRight, h,
      Nat.shiftRight_one, Nat.mul_div_cancel _ Nat.two_pos]

/-- Registers that two short strings bring to the same value differ in the bytes
of the strings only. -/
theorem foldl_eq (hlen : a.length = b.length) (ha : a.length ≤ 4)
    (h : a.foldl crcByte x = b.foldl crcByte y) :
    (x ^^^ y).toNat < 2 ^ (8 * a.length) ∧ (x = y → a = b) := by
  induction a generalizing b x y with
  | nil =>
    obtain rfl := length_eq_zero_iff.1 hlen.symm
    have hxy : x = y := h
    simp [hxy]
  | cons p a ih =>
    obtain ⟨q, b, rfl⟩ := exists_cons_of_length_eq_add_one hlen.symm
    rw [length_cons] at ha
    have h : a.foldl crcByte (crcByte x p) = b.foldl crcByte (crcByte y q) := h
    obtain ⟨hlt, htail⟩ := ih (by simpa using hlen) (by omega) h
    have hpow : 2 ^ (8 * a.length) ≤ 2 ^ 24 := Nat.pow_le_pow_right (by decide) (by omega)
    have hnext : 2 ^ (8 * (a.length + 1)) = 2 ^ (8 * a.length) * 2 ^ 8 := Nat.pow_add 2 _ 8
    have hxor := crcByte_xor x y p q
    generalize crcByte x p ^^^ crcByte y q = z at *
    have hshift : (z <<< 8).toNat = z.toNat * 2 ^ 8 := by
      rw [BitVec.toNat_shiftLeft, Nat.shiftLeft_eq, Nat.mod_eq_of_lt (by omega)]
    have hlow := (p ^^^ q).isLt
    have hbyte : ((p ^^^ q).setWidth 32).toNat = (p ^^^ q).toNat := by
      rw [BitVec.toNat_setWidth, Nat.mod_eq_of_lt (by omega)]
    -- what comes out as `z` went in as `z` and eight zeros
    have hin : x ^^^ y ^^^ (p ^^^ q).setWidth 32 = z <<< 8 :=
      (crcBit_injective.iterate 8) (hxor.trans (crcBits_of_mul hshift).symm)
    constructor
    · rw [← BitVec.xor_zero (x := x ^^^ y), ← BitVec.xor_self (x := (p ^^^ q).setWidth 32),
        ← BitVec.xor_assoc, hin, BitVec.toNat_xor, length_cons]
      exact Nat.xor_lt_two_pow (by omega) (by omega)
    · rintro rfl
      rw [BitVec.xor_self, BitVec.zero_xor] at hin
      rw [hin, hshift] at hbyte
      have hpq : (p ^^^ q).toNat = 0 := by omega
      obtain rfl : p = q := BitVec.xor_eq_zero_iff.1 (BitVec.eq_of_toNat_eq hpq)
      rw [htail rfl]

/-- Strings that differ, but only within four bytes, have different checksums,
and the difference of two checksums depends on the difference of the strings
only. -/
theorem crc32_detects :
    (∀ s a b t : List (BitVec 8), a.length = b.length → a.length ≤ 4 → a ≠ b →
      crc32 (s ++ a ++ t) ≠ crc32 (s ++ b ++ t)) ∧
    ∀ a b a' b' : List (BitVec 8), a.length = b.length → a'.length = b'.length →
      zipWith (· ^^^ ·) a b = zipWith (· ^^^ ·) a' b' →
      crc32 a ^^^ crc32 b = crc32 a' ^^^ crc32 b' := by
  have hxor : ∀ a b, a.length = b.length → crc32 a ^^^ crc32 b
      = (zipWith (· ^^^ ·) a b).foldl crcByte (0xFFFFFFFF ^^^ 0xFFFFFFFF) := by
    intro a b hlen
    rw [foldl_xor hlen, crc32, crc32]
    ext i
    simp
  refine ⟨fun s a b t hlen ha hne heq => ?_, fun a b a' b' hlen hlen' heq => ?_⟩
  · have hfold := BitVec.not_inj.1 heq
    rw [foldl_append, foldl_append, foldl_append, foldl_append] at hfold
    exact hne ((foldl_eq hlen ha (foldl_injective t hfold)).2 rfl)
  · rw [hxor a b hlen, hxor a' b' hlen', heq]

theorem crc32_detects_byte : crc32 [1, 2, 3] ≠ crc32 [1, 7, 3] :=
  crc32_detects.1 [1] [2] [7] [3] rfl (by decide) (by decide)

end JanuaryOs.Block

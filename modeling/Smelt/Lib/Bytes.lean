/-
# Byte memory, words in it, and alignment

A memory is a byte at every address.  A number is stored in `n` bytes, the low one first, and loaded
again (`load_store`); a load does not see what is stored outside of its bytes (`load_congr`,
`store_of_not_mem`).

Rounding an address up to a power of two is done with a mask, `(x + (a - 1)) & -a`.  `alignUp_spec`
says that this is the first multiple from `x` on, in any width, as long as the sum does not wrap.
-/
import Mathlib.Algebra.Group.Nat.Defs
import Mathlib.Data.Nat.Notation
import Mathlib.Logic.Function.Basic
import Mathlib.Data.Nat.Init

/-! ## 1. Bytes -/

/-- A memory. -/
abbrev Bytes := ℕ → UInt8

namespace Bytes

/-- Store `v` in `n` bytes from address `a` on, the low one first. -/
def store (mem : Bytes) (a : ℕ) : ℕ → ℕ → Bytes
  | 0, _ => mem
  | n + 1, v => store (Function.update mem a (UInt8.ofNat v)) (a + 1) n (v / 256)

/-- Load `n` bytes from address `a` on. -/
def load (mem : Bytes) (a : ℕ) : ℕ → ℕ
  | 0 => 0
  | n + 1 => (mem a).toNat + 256 * load mem (a + 1) n

variable {mem mem' : Bytes} {a n v x : ℕ}

/-- **The frame of a store.** -/
theorem store_of_not_mem (h : x < a ∨ a + n ≤ x) : mem.store a n v x = mem x := by
  induction n generalizing mem a v with
  | zero => rfl
  | succ n ih =>
    rw [store, ih (by omega), Function.update_of_ne (by omega)]

/-- **The footprint of a load.** -/
theorem load_congr (h : ∀ x, a ≤ x → x < a + n → mem x = mem' x) :
    mem.load a n = mem'.load a n := by
  induction n generalizing a with
  | zero => rfl
  | succ n ih =>
    rw [load, load, h a (Nat.le_refl a) (by omega), ih fun x h1 h2 => h x (by omega) (by omega)]

/-- **What is stored is loaded again**, as far as it fits. -/
theorem load_store : (mem.store a n v).load a n = v % 256 ^ n := by
  induction n generalizing mem a v with
  | zero => simp [load, Nat.mod_one]
  | succ n ih =>
    have hbyte : (UInt8.ofNat v).toNat = v % 256 := UInt8.toNat_ofNat'
    rw [load, store, ih, store_of_not_mem (.inl (Nat.lt_succ_self a)), Function.update_self, hbyte,
      Nat.pow_succ, Nat.mul_comm (256 ^ n), Nat.mod_mul]

end Bytes

/-! ## 2. Alignment -/

namespace Align

variable {w : ℕ}

/-- The test for a power of two. -/
def isPowerOfTwo (x : BitVec w) : Bool := 0 < x && x &&& (x - 1) == 0

/-- Rounding up with a mask. -/
def alignUp (x a : BitVec w) : BitVec w := (x + (a - 1)) &&& -a

theorem toNat_sub_one {x : BitVec w} (h : 0 < x.toNat) : (x - 1).toNat = x.toNat - 1 := by
  have hlt := x.isLt
  have hone : (1 : BitVec w).toNat = 1 := by
    simp only [BitVec.ofNat_eq_ofNat, BitVec.toNat_ofNat]
    exact Nat.mod_eq_of_lt (by omega)
  rw [BitVec.toNat_sub_of_le, hone]
  rw [BitVec.le_def, hone]
  exact h

theorem isPowerOfTwo_iff {x : BitVec w} : isPowerOfTwo x = true ↔ ∃ k, x.toNat = 2 ^ k := by
  have hzero : (0 : BitVec w).toNat = 0 := by simp
  rw [isPowerOfTwo, Bool.and_eq_true, decide_eq_true_iff, beq_iff_eq, BitVec.lt_def, hzero,
    ← BitVec.toNat_inj, BitVec.toNat_and, hzero]
  constructor
  · rintro ⟨hpos, hand⟩
    rw [toNat_sub_one hpos] at hand
    exact (Nat.and_sub_one_eq_zero_iff_isPowerOfTwo (Nat.ne_of_gt hpos)).mp hand
  · rintro ⟨k, hk⟩
    have hpos : 0 < x.toNat := hk ▸ Nat.two_pow_pos k
    refine ⟨hpos, ?_⟩
    rw [toNat_sub_one hpos]
    exact (Nat.and_sub_one_eq_zero_iff_isPowerOfTwo (Nat.ne_of_gt hpos)).mpr ⟨k, hk⟩

/-- The mask clears the low bits. -/
theorem toNat_and_neg {x a : BitVec w} {k : ℕ} (ha : a.toNat = 2 ^ k) :
    (x &&& -a).toNat = x.toNat / 2 ^ k * 2 ^ k := by
  have halt := a.isLt
  rw [ha] at halt
  have hneg : (-a).toNat = 2 ^ w - (2 ^ k - 1 + 1) := by
    have hpos := Nat.two_pow_pos k
    rw [BitVec.toNat_neg, ha, Nat.mod_eq_of_lt (by omega)]
    omega
  have hk : 2 ^ k - 1 < 2 ^ w := by omega
  refine Nat.eq_of_testBit_eq fun i => ?_
  rw [BitVec.toNat_and, hneg, Nat.testBit_and, Nat.testBit_two_pow_sub_succ hk,
    Nat.testBit_mul_two_pow, Nat.testBit_div_two_pow, Nat.testBit_two_pow_sub_one]
  by_cases hki : k ≤ i
  · have hsum : i - k + k = i := Nat.sub_add_cancel hki
    by_cases hiw : i < w
    · simp [hki, hiw, hsum]
    · have hle : 2 ^ w ≤ 2 ^ i := Nat.pow_le_pow_right (by decide) (Nat.not_lt.mp hiw)
      have hout : x.toNat.testBit i = false :=
        Nat.testBit_lt_two_pow (Nat.lt_of_lt_of_le x.isLt hle)
      simp [hki, hsum, hout]
  · have hik : i < k := Nat.not_le.mp hki
    simp [hki, hik]

/-- **The first multiple of `a` from `x` on**, when `a` is a power of two and nothing wraps. -/
theorem alignUp_spec {x a : BitVec w} {k : ℕ} (ha : a.toNat = 2 ^ k)
    (hwrap : x.toNat + a.toNat ≤ 2 ^ w) :
    a.toNat ∣ (alignUp x a).toNat ∧ x.toNat ≤ (alignUp x a).toNat ∧
      (alignUp x a).toNat < x.toNat + a.toNat := by
  have hpos : 0 < a.toNat := ha ▸ Nat.two_pow_pos k
  have hsum : (x + (a - 1)).toNat = x.toNat + (a.toNat - 1) := by
    rw [BitVec.toNat_add, toNat_sub_one hpos]
    exact Nat.mod_eq_of_lt (by omega)
  rw [alignUp, toNat_and_neg ha, hsum, ← ha]
  have hdm := Nat.div_add_mod (x.toNat + (a.toNat - 1)) a.toNat
  have hlt := Nat.mod_lt (x.toNat + (a.toNat - 1)) hpos
  rw [Nat.mul_comm] at hdm
  exact ⟨Nat.dvd_mul_left _ _, by omega, by omega⟩

end Align

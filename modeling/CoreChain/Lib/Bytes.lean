import Mathlib

/-!
# Little-endian words in a byte memory

A memory is a function from addresses to bytes. `readLe data ptr n` is the number the `n` bytes from `ptr` hold,
least significant first, and `writeLe data ptr n v` stores `v` there. A read gives back what was written
(`readLe_writeLe_self`), and a write leaves every byte outside its range.

A word may carry a flag bit above a field of `k` bits, `field ||| 2 ^ k`; `&&& 2 ^ k` reads the flag and `% 2 ^ k`
the field (`flag_and`, `flag_mod`, `field_and`).
-/

namespace CoreChain

/-- The number the `n` bytes from `ptr` hold, least significant first. -/
def readLe (data : Nat → UInt8) (ptr : Nat) : Nat → Nat
  | 0 => 0
  | n + 1 => (data ptr).toNat + 256 * readLe data (ptr + 1) n

/-- The memory with `v` stored little-endian in the `n` bytes from `ptr`. -/
def writeLe (data : Nat → UInt8) (ptr n v : Nat) : Nat → UInt8 := fun a =>
  if ptr ≤ a ∧ a < ptr + n then UInt8.ofNat (v / 256 ^ (a - ptr)) else data a

variable {data data' : Nat → UInt8}

theorem readLe_congr : ∀ {ptr n : Nat}, (∀ a, ptr ≤ a → a < ptr + n → data a = data' a) →
    readLe data ptr n = readLe data' ptr n
  | _, 0, _ => rfl
  | ptr, n + 1, h => by
    simp only [readLe]
    rw [h ptr (Nat.le_refl _) (by omega), readLe_congr fun a h₁ h₂ => h a (by omega) (by omega)]

/-- The bytes from `ptr + 1` of a word stored at `ptr` hold the word shifted down by a byte. -/
theorem writeLe_succ_tail (ptr n v : Nat) {a : Nat} (h₁ : ptr + 1 ≤ a) (h₂ : a < ptr + 1 + n) :
    writeLe data ptr (n + 1) v a = writeLe data (ptr + 1) n (v / 256) a := by
  unfold writeLe
  rw [if_pos ⟨by omega, by omega⟩, if_pos ⟨h₁, h₂⟩, Nat.div_div_eq_div_mul, ← pow_succ']
  congr 3
  omega

theorem readLe_writeLe_self : ∀ (ptr n v : Nat), v < 256 ^ n → readLe (writeLe data ptr n v) ptr n = v
  | _, 0, v, hv => by
    simp only [pow_zero] at hv
    simp only [readLe]
    omega
  | ptr, n + 1, v, hv => by
    have hhead : (writeLe data ptr (n + 1) v ptr).toNat = v % 256 := by
      simp [writeLe]
    have htail : readLe (writeLe data ptr (n + 1) v) (ptr + 1) n =
        readLe (writeLe data (ptr + 1) n (v / 256)) (ptr + 1) n :=
      readLe_congr fun _ h₁ h₂ => writeLe_succ_tail ptr n v h₁ h₂
    have hv' : v / 256 < 256 ^ n := by
      rw [Nat.div_lt_iff_lt_mul (by decide), ← pow_succ]
      exact hv
    simp only [readLe]
    rw [hhead, htail, readLe_writeLe_self (ptr + 1) n (v / 256) hv']
    omega

/-! ## A flag bit above a field -/

section Flag

variable {d k : Nat}

theorem field_or_flag (h : d < 2 ^ k) : d ||| 2 ^ k = 2 ^ k + d := by
  have hor := Nat.two_pow_add_eq_or_of_lt h 1
  rw [Nat.mul_one] at hor
  rw [hor, Nat.lor_comm]

theorem field_and (h : d < 2 ^ k) : d &&& 2 ^ k = 0 := by
  rw [Nat.and_two_pow, Nat.testBit_lt_two_pow h]
  simp

theorem flag_and : (d ||| 2 ^ k) &&& 2 ^ k = 2 ^ k := by
  rw [Nat.and_two_pow, Nat.testBit_or, Nat.testBit_two_pow_self, Bool.or_true]
  simp

theorem flag_mod (h : d < 2 ^ k) : (d ||| 2 ^ k) % 2 ^ k = d := by
  rw [field_or_flag h, Nat.add_mod_left, Nat.mod_eq_of_lt h]

theorem flag_lt {n : Nat} (h : d < 2 ^ k) (hk : k < n) : d ||| 2 ^ k < 2 ^ n := by
  rw [field_or_flag h]
  have hpow : 2 ^ (k + 1) ≤ 2 ^ n := Nat.pow_le_pow_right (by decide) hk
  rw [pow_succ] at hpow
  omega

end Flag

end CoreChain

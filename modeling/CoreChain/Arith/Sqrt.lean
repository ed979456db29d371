import CoreChain.Arith.Helpers128
import CoreChain.Lib.Word
import Mathlib

/-!
# `helpers_128bit::sqrt`

The integer square root of a `u128` digit by digit, in base two. `bit` starts at the largest power of four not
above `n` and drops by a factor of four each round; `result` holds the root found so far, scaled by the current
weight, and `n` what is left of the radicand. A round at `bit = 4^j` sets the next binary digit of the root when
`result + bit` is left, and then halves `result`.

The source's `+` on `u128` panics where it overflows, and so does its `u32` subtraction and the shift; the model
returns `none` there (`Word.checkedAdd`, and the guards of `sqrt`). So `sqrt n = some r` also says that no operation
overflows.

- `rootStep` is one round on the root `y` found so far and the remainder `x`; it keeps `RootInv`, which says that
  `y` and `x` make up the radicand and that `x` is below the next square (`rootStep_inv`).
- `sqrtLoop_step`: a round of the loop at `bit = 4^j`, with `result = y * 4^(j+1)`, does not overflow
  (`add_bit_lt`) and is `rootStep`; `sqrtLoop_spec` runs the rounds down to `bit = 0`.
- `sqrt_spec`: for every `u128`, `sqrt` returns the `r` with `r * r ≤ n < (r + 1) * (r + 1)`.
-/

namespace CoreChain.Arith

/-- `u128::leading_zeros`. -/
def leadingZeros (n : U128) : Nat :=
  if n.val = 0 then 128 else 127 - n.val.log2

/-- `a >> 2` on `u128`. -/
def shr2 (a : U128) : U128 :=
  ⟨a.val / 4, by omega⟩

/-- The `while bit != 0` loop of `sqrt` over `n`, `result` and `bit`: where `result + bit` is left of `n`, it is taken
off and `result` becomes `(result >> 1) + bit`, else `result >> 1`; then `bit >>= 2`. -/
def sqrtLoop (n result bit : U128) : Option U128 :=
  if bit = 0 then some result
  else
    match Word.checkedAdd result bit with
    | none => none
    | some sum =>
      if sum ≤ n then
        match Word.checkedAdd (shr1 result) bit with
        | none => none
        | some result' => sqrtLoop ⟨n.val - sum.val, by omega⟩ result' (shr2 bit)
      else sqrtLoop n (shr1 result) (shr2 bit)
termination_by bit.val
decreasing_by
  all_goals
    have hbit : bit.val ≠ 0 := fun h => ‹¬bit = 0› (Fin.ext h)
    simp only [shr2]
    omega

/-- `sqrt`: `0` for `0`; else the loop from `bit`, the largest power of four not above `n`. `max_shift` and
`shift` are `u32`s, and `!1` on a `u32` is `2^32 - 2`. -/
def sqrt (n : U128) : Option U128 :=
  if n = 0 then some 0
  else
    let maxShift := leadingZeros 0 - 1
    if leadingZeros n ≤ maxShift then
      let shift := (maxShift - leadingZeros n) &&& (2 ^ 32 - 2)
      if h : shift < 128 then
        sqrtLoop n 0 ⟨1 <<< shift, by
          rw [Nat.shiftLeft_eq, Nat.one_mul]
          exact Nat.pow_lt_pow_right (by norm_num) h⟩
      else none
    else none

/-! ## The digit-by-digit root -/

section Digits

variable {N e j y x : Nat}

/-- What the rounds keep at weight `4^e`: the root found so far `y` and the remainder `x` make up `N`, and `x` is
below `(2y + 1) 4^e`, so that `y` is the root of `N` in digits of weight `4^e` and up. -/
def RootInv (N e y x : Nat) : Prop :=
  y ^ 2 * 4 ^ e + x = N ∧ x < (2 * y + 1) * 4 ^ e

/-- One round at weight `4^j`: the next binary digit of the root is `1` just when `(4y + 1) 4^j` is left. -/
def rootStep (j y x : Nat) : Nat × Nat :=
  if (4 * y + 1) * 4 ^ j ≤ x then (2 * y + 1, x - (4 * y + 1) * 4 ^ j) else (2 * y, x)

theorem rootStep_inv (h : RootInv N (j + 1) y x) : RootInv N j (rootStep j y x).1 (rootStep j y x).2 := by
  obtain ⟨hN, hx⟩ := h
  unfold rootStep
  -- everything is a multiple of `D = 4^j`, with `4^(j+1) = 4 D`
  have hpow : 4 ^ (j + 1) = 4 * 4 ^ j := by rw [pow_succ, Nat.mul_comm]
  set D := 4 ^ j with hD
  have hsq : y ^ 2 * 4 ^ (j + 1) = 4 * (y * y * D) := by rw [hpow]; ring
  have hlt : (2 * y + 1) * 4 ^ (j + 1) = 8 * (y * D) + 4 * D := by rw [hpow]; ring
  have hstep : (4 * y + 1) * D = 4 * (y * D) + D := by ring
  rw [hsq] at hN
  rw [hlt] at hx
  split_ifs with htake
  · have hsq' : (2 * y + 1) ^ 2 * D = 4 * (y * y * D) + 4 * (y * D) + D := by ring
    have hlt' : (2 * (2 * y + 1) + 1) * D = 4 * (y * D) + 3 * D := by ring
    constructor
    · rw [hsq']
      omega
    · rw [hlt']
      omega
  · have hsq' : (2 * y) ^ 2 * D = 4 * (y * y * D) := by ring
    have hlt' : (2 * (2 * y) + 1) * D = 4 * (y * D) + D := by ring
    constructor
    · rw [hsq']
      omega
    · rw [hlt']
      omega

/-- At weight `1` the invariant says that `y` is the integer square root of `N`. -/
theorem RootInv.sq_le_lt (h : RootInv N 0 y x) : y * y ≤ N ∧ N < (y + 1) * (y + 1) := by
  obtain ⟨hN, hx⟩ := h
  have hsq : y ^ 2 * 4 ^ 0 = y * y := by ring
  have hsucc : (y + 1) * (y + 1) = y * y + (2 * y + 1) * 4 ^ 0 := by ring
  rw [hsq] at hN
  rw [hsucc]
  omega

end Digits

/-! ## The loop -/

/-- `result + bit` does not overflow: at weight `4^(j+1)` the root so far is below `2^64 / 2^(j+1)`, and `bit` is at
most `4^63`. -/
theorem add_bit_lt {y j : Nat} (hy : y ^ 2 * 4 ^ (j + 1) < 2 ^ 128) (hj : 4 ^ j < 2 ^ 128) :
    y * 4 ^ (j + 1) + 4 ^ j < 2 ^ 128 := by
  rcases Nat.eq_zero_or_pos y with rfl | hpos
  · simpa using hj
  · -- a root digit of weight `4^(j+1)` fits only for `j + 1 ≤ 63`
    have hj62 : j + 1 ≤ 63 := by
      have h4 : 4 ^ (j + 1) < 4 ^ 64 := by
        calc 4 ^ (j + 1) ≤ y ^ 2 * 4 ^ (j + 1) := Nat.le_mul_of_pos_left _ (by positivity)
          _ < 2 ^ 128 := hy
          _ = 4 ^ 64 := by norm_num
      exact Nat.lt_succ_iff.mp ((Nat.pow_lt_pow_iff_right (by norm_num)).mp h4)
    have hP : 4 ^ (j + 1) = 2 ^ (j + 1) * 2 ^ (j + 1) := by
      rw [← Nat.mul_pow]
    have hyP : y * 2 ^ (j + 1) < 2 ^ 64 := by
      apply Nat.mul_self_lt_mul_self_iff.mp
      calc y * 2 ^ (j + 1) * (y * 2 ^ (j + 1)) = y ^ 2 * 4 ^ (j + 1) := by rw [hP]; ring
        _ < 2 ^ 128 := hy
        _ = 2 ^ 64 * 2 ^ 64 := by norm_num
    have h1 : y * 4 ^ (j + 1) ≤ (2 ^ 64 - 1) * 2 ^ 63 := by
      rw [hP, ← Nat.mul_assoc]
      exact Nat.mul_le_mul (by omega) (Nat.pow_le_pow_right (by norm_num) hj62)
    have h2 : 4 ^ j ≤ 4 ^ 62 := Nat.pow_le_pow_right (by norm_num) (by omega)
    have hbound : (2 ^ 64 - 1) * 2 ^ 63 + 4 ^ 62 < 2 ^ 128 := by decide
    omega

/-- One round of the loop at `bit = 4^j` with `result = y * 4^(j+1)`: neither addition overflows, and the loop goes
on from what `rootStep` computes, with `result` scaled to the new weight. -/
theorem sqrtLoop_step {N j y : Nat} {n result bit : U128} (hN : N < 2 ^ 128) (hbit : bit.val = 4 ^ j)
    (hresult : result.val = y * 4 ^ (j + 1)) (hinv : RootInv N (j + 1) y n.val) :
    ∃ n' result' : U128, sqrtLoop n result bit = sqrtLoop n' result' (shr2 bit) ∧
      n'.val = (rootStep j y n.val).2 ∧ result'.val = (rootStep j y n.val).1 * 4 ^ j := by
  unfold rootStep
  set D := 4 ^ j with hD
  have hbit0 : bit ≠ 0 := fun h => by
    have : bit.val = 0 := by rw [h]; rfl
    have hpos : 0 < D := by positivity
    omega
  have hfit : y ^ 2 * 4 ^ (j + 1) < 2 ^ 128 := by
    have := hinv.1
    omega
  have hsum : result.val + bit.val < 2 ^ 128 := by
    rw [hresult, hbit]
    exact add_bit_lt hfit (hD ▸ hbit ▸ bit.isLt)
  -- `result = 4 y D`, so `result + bit = (4y + 1) D` and `result >> 1 = 2 y D`
  have hres : result.val = 4 * (y * D) := by rw [hresult, pow_succ, ← hD]; ring
  have hstep : (4 * y + 1) * D = 4 * (y * D) + D := by ring
  have hhalf : (shr1 result).val = 2 * (y * D) := by
    show result.val / 2 = _
    omega
  rw [sqrtLoop, if_neg hbit0, Word.checkedAdd_of_lt hsum]
  dsimp only
  by_cases htake : (4 * y + 1) * D ≤ n.val
  · have hle : (⟨result.val + bit.val, hsum⟩ : U128) ≤ n := by
      show result.val + bit.val ≤ n.val
      omega
    have hsum' : (shr1 result).val + bit.val < 2 ^ 128 := by omega
    rw [if_pos hle, Word.checkedAdd_of_lt hsum', if_pos htake]
    refine ⟨_, _, rfl, ?_, ?_⟩
    · show n.val - (result.val + bit.val) = _
      omega
    · show (shr1 result).val + bit.val = _
      rw [hhalf, hbit]
      ring
  · have hle : ¬ (⟨result.val + bit.val, hsum⟩ : U128) ≤ n := by
      show ¬ result.val + bit.val ≤ n.val
      omega
    rw [if_neg hle, if_neg htake]
    refine ⟨_, _, rfl, rfl, ?_⟩
    rw [hhalf]
    ring

/-- The loop from `bit = 4^j` with `result = y * 4^(j+1)` returns the integer square root of `N`. -/
theorem sqrtLoop_spec {N : Nat} (hN : N < 2 ^ 128) (j : Nat) :
    ∀ (y : Nat) (n result bit : U128), bit.val = 4 ^ j → result.val = y * 4 ^ (j + 1) →
      RootInv N (j + 1) y n.val → ∃ r, sqrtLoop n result bit = some r ∧ r.val * r.val ≤ N ∧
        N < (r.val + 1) * (r.val + 1) := by
  induction j with
  | zero =>
    -- the last round: `bit` becomes `0` and the loop returns `result`
    intro y n result bit hbit hresult hinv
    obtain ⟨n', result', hloop, -, hresult'⟩ := sqrtLoop_step hN hbit hresult hinv
    have hzero : shr2 bit = 0 := Fin.ext (by show bit.val / 4 = 0; rw [hbit]; rfl)
    have hinv' := rootStep_inv hinv
    rw [pow_zero, Nat.mul_one] at hresult'
    refine ⟨result', ?_, ?_⟩
    · rw [hloop, hzero, sqrtLoop, if_pos rfl]
    · rw [hresult']
      exact hinv'.sq_le_lt
  | succ j ih =>
    intro y n result bit hbit hresult hinv
    obtain ⟨n', result', hloop, hn', hresult'⟩ := sqrtLoop_step hN hbit hresult hinv
    have hbit' : (shr2 bit).val = 4 ^ j := by
      show bit.val / 4 = _
      rw [hbit, pow_succ, Nat.mul_div_cancel _ (by norm_num)]
    have hinv' := rootStep_inv hinv
    rw [← hn'] at hinv'
    rw [hloop]
    exact ih _ n' result' (shr2 bit) hbit' hresult' hinv'

/-! ## `sqrt` -/

/-- `& !1` on a `u32` clears the low bit; the shifts of `sqrt` are below `128`. -/
theorem land_not_one {x : Nat} (hx : x < 128) : x &&& (2 ^ 32 - 2) = 2 * (x / 2) := by
  have h : ∀ x < 128, x &&& (2 ^ 32 - 2) = 2 * (x / 2) := by decide
  exact h x hx

/-- The first `bit` is `4^j` for `j = log2 n / 2`, the largest power of four not above `n`. -/
theorem sqrt_eq_loop {n : U128} (hn : n ≠ 0) :
    ∃ bit : U128, bit.val = 4 ^ (n.val.log2 / 2) ∧ sqrt n = sqrtLoop n 0 bit := by
  have hn0 : n.val ≠ 0 := fun h => hn (Fin.ext h)
  have hlog : n.val.log2 < 128 := (Nat.log2_lt hn0).mpr n.isLt
  have hlz : leadingZeros n = 127 - n.val.log2 := by rw [leadingZeros, if_neg hn0]
  have hlz0 : leadingZeros 0 = 128 := rfl
  have hshift : (leadingZeros 0 - 1 - leadingZeros n) &&& (2 ^ 32 - 2) = 2 * (n.val.log2 / 2) := by
    rw [hlz, hlz0, show 128 - 1 - (127 - n.val.log2) = n.val.log2 by omega]
    exact land_not_one hlog
  have hs : (leadingZeros 0 - 1 - leadingZeros n) &&& (2 ^ 32 - 2) < 128 := by
    rw [hshift]
    omega
  have hcond : leadingZeros n ≤ leadingZeros 0 - 1 := by
    rw [hlz, hlz0]
    omega
  refine ⟨⟨1 <<< ((leadingZeros 0 - 1 - leadingZeros n) &&& (2 ^ 32 - 2)), by
    rw [Nat.shiftLeft_eq, Nat.one_mul]
    exact Nat.pow_lt_pow_right (by norm_num) hs⟩, ?_, ?_⟩
  · show 1 <<< _ = _
    rw [hshift, Nat.shiftLeft_eq, Nat.one_mul, pow_mul]
    norm_num
  · rw [sqrt, if_neg hn]
    dsimp only
    rw [if_pos hcond, dif_pos hs]

/-- `sqrt` returns the integer square root of every `u128`, and no operation on the way overflows. -/
theorem sqrt_spec (n : U128) :
    ∃ r, sqrt n = some r ∧ r.val * r.val ≤ n.val ∧ n.val < (r.val + 1) * (r.val + 1) := by
  by_cases hn : n = 0
  · subst hn
    exact ⟨0, by rw [sqrt, if_pos rfl], Nat.le_refl _, by decide⟩
  · obtain ⟨bit, hbit, heq⟩ := sqrt_eq_loop hn
    have hn0 : n.val ≠ 0 := fun h => hn (Fin.ext h)
    -- the radicand is below `4^(j+1)`, the weight above that of `bit`
    have hbelow : n.val < 4 ^ (n.val.log2 / 2 + 1) := by
      calc n.val < 2 ^ (n.val.log2 + 1) := Nat.lt_log2_self
        _ ≤ 2 ^ (2 * (n.val.log2 / 2 + 1)) := Nat.pow_le_pow_right (by norm_num) (by omega)
        _ = 4 ^ (n.val.log2 / 2 + 1) := by rw [pow_mul]; norm_num
    have hinv : RootInv n.val (n.val.log2 / 2 + 1) 0 n.val := by
      refine ⟨by simp, ?_⟩
      rw [Nat.mul_zero, Nat.zero_add, Nat.one_mul]
      exact hbelow
    rw [heq]
    exact sqrtLoop_spec n.isLt (n.val.log2 / 2) 0 n 0 bit hbit (Nat.zero_mul _).symm hinv

end CoreChain.Arith

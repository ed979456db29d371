import CoreChain.Arith.Rounding
import CoreChain.Lib.Word
import Mathlib

/-!
# 128-bit helpers

`helpers_128bit.rs` of `sp_arithmetic`: the binary `gcd`, `split`, and the 256-bit arithmetic of `Double128` behind
`multiply_by_rational_with_rounding`. A `u128` is a `Fin (2 ^ 128)`, whose `+` and `*` wrap as `wrapping_add` and
`wrapping_mul` do; where the source uses a plain `*` the model shows the product does not wrap.

`Double128::div` divides a 256-bit number by a `u128` with a loop: with `q = 2^128 / b` and `r = 2^128 % b` it
trades the high half `h` for `h * q` in the quotient and `h * r` in the dividend, until the high half is zero. It
runs by well-founded recursion on the 256-bit value, which each round lowers since `r < 2^128`.

- `value_productOf`: `product_of` is the exact product; `value_add`: `add` is exact when the sum fits 256 bits.
- `div_spec`: `div` returns the quotient and the remainder of the 256-bit value, for every divisor `≥ 1`.
- `multiplyByRationalWithRounding_eq`: the result is the rounded quotient `roundDiv r (a * b) c`, and `None` exactly
  when `c = 0` or that quotient does not fit `u128`.
- `gcd_eq`: the binary `gcd` is `Nat.gcd` on every pair of `u128`.
-/

namespace CoreChain.Arith

/-- `u128`. -/
abbrev U128 := Fin (2 ^ 128)

/-- `a >> 1` on `u128`. -/
def shr1 (a : U128) : U128 :=
  ⟨a.val / 2, by omega⟩

/-- `a << 1` on `u128`, which drops the top bit. -/
def shl1 (a : U128) : U128 :=
  ⟨a.val * 2 % 2 ^ 128, Nat.mod_lt _ (by positivity)⟩

/-- The binary `gcd` of `helpers_128bit`: equal arguments, a zero, one even argument, both even, both odd. -/
def gcd (a b : U128) : U128 :=
  if a = b then b
  else if a = 0 then b
  else if b = 0 then a
  else if a.val % 2 = 0 ∧ b.val % 2 = 1 then gcd (shr1 a) b
  else if a.val % 2 = 1 ∧ b.val % 2 = 0 then gcd (shr1 b) a
  else if a.val % 2 = 0 ∧ b.val % 2 = 0 then shl1 (gcd (shr1 a) (shr1 b))
  else gcd (shr1 (max a b - min a b)) (min a b)
termination_by a.val + b.val
decreasing_by
  all_goals
    have ha : 0 < a.val := Nat.pos_of_ne_zero fun h => ‹¬a = 0› (Fin.ext h)
    have hb : 0 < b.val := Nat.pos_of_ne_zero fun h => ‹¬b = 0› (Fin.ext h)
    simp only [shr1]
  · omega
  · omega
  · omega
  · rw [Fin.sub_val_of_le (min_le_max), Fin.coe_max, Fin.coe_min]
    omega

/-- Halving an even argument keeps the gcd with an odd one. -/
theorem gcd_half_left {a b : Nat} (ha : a % 2 = 0) (hb : b % 2 = 1) : Nat.gcd (a / 2) b = Nat.gcd a b := by
  have h2 : Nat.gcd 2 b = 1 := by rw [Nat.gcd_rec, hb]; rfl
  conv_rhs => rw [← Nat.mul_div_cancel' (Nat.dvd_of_mod_eq_zero ha)]
  exact (Nat.gcd_mul_right_left_of_gcd_eq_one h2).symm

/-- The binary `gcd` is the greatest common divisor, on every pair of `u128`. -/
theorem gcd_eq (a b : U128) : (gcd a b).val = Nat.gcd a.val b.val := by
  fun_induction gcd a b with
  | case1 => exact (Nat.gcd_self _).symm
  | case2 => exact (Nat.gcd_zero_left _).symm
  | case3 => exact (Nat.gcd_zero_right _).symm
  | case4 a b _ _ _ hpar ih =>
    rw [ih]
    exact gcd_half_left hpar.1 hpar.2
  | case5 a b _ _ _ _ hpar ih =>
    rw [ih]
    exact (gcd_half_left hpar.2 hpar.1).trans (Nat.gcd_comm _ _)
  | case6 a b _ ha0 _ _ _ hpar ih =>
    -- both even: the gcd of the halves, doubled, and the doubling does not wrap
    have hg : Nat.gcd (a.val / 2) (b.val / 2) ≤ a.val / 2 :=
      Nat.gcd_le_left _ (Nat.pos_of_ne_zero fun h => ha0 (Fin.ext (by have := a.isLt; simp at h ⊢; omega)))
    have ha := a.isLt
    show (gcd (shr1 a) (shr1 b)).val * 2 % 2 ^ 128 = _
    rw [ih]
    simp only [shr1]
    rw [Nat.mod_eq_of_lt (by omega), Nat.mul_comm _ 2, ← Nat.gcd_mul_left,
      Nat.mul_div_cancel' (Nat.dvd_of_mod_eq_zero hpar.1), Nat.mul_div_cancel' (Nat.dvd_of_mod_eq_zero hpar.2)]
  | case7 a b _ _ _ hp1 hp2 hp3 ih =>
    -- both odd: the difference is even, and the smaller one odd
    have hodd : a.val % 2 = 1 ∧ b.val % 2 = 1 := by omega
    rw [ih]
    simp only [shr1]
    rw [Fin.sub_val_of_le min_le_max, Fin.coe_max, Fin.coe_min]
    rcases le_total a.val b.val with hle | hle
    · rw [max_eq_right hle, min_eq_left hle, gcd_half_left (by omega) (by omega), Nat.gcd_sub_self_left hle,
        Nat.gcd_comm]
    · rw [max_eq_left hle, min_eq_right hle, gcd_half_left (by omega) (by omega), Nat.gcd_sub_self_left hle]

/-- `split`: the high and the low 64 bits of a `u128`. -/
def split (a : U128) : Fin (2 ^ 64) × Fin (2 ^ 64) :=
  (⟨a.val / 2 ^ 64, by omega⟩, ⟨a.val % 2 ^ 64, Nat.mod_lt _ (by positivity)⟩)

/-- `low_64`: `a & ((1 << 64) - 1)`. -/
def low64 (a : U128) : U128 :=
  ⟨a.val % 2 ^ 64, by omega⟩

/-- `high_64`: `a >> 64`. -/
def high64 (a : U128) : U128 :=
  ⟨a.val / 2 ^ 64, by omega⟩

/-- `neg128`: `(!a).wrapping_add(1)`, that is `2^128 - a` modulo `2^128`. -/
def neg128 (a : U128) : U128 :=
  ⟨(2 ^ 128 - 1 - a.val + 1) % 2 ^ 128, Nat.mod_lt _ (by positivity)⟩

/-- `div128`: `(neg128(a) / a).wrapping_add(1)`, which is `2^128 / a` for `a ≥ 2` (and wraps to `0` for `a = 1`). -/
def div128 (a : U128) : U128 :=
  ⟨((neg128 a).val / a.val + 1) % 2 ^ 128, Nat.mod_lt _ (by positivity)⟩

/-- `mod128`: `neg128(a) % a`, which is `2^128 % a`. -/
def mod128 (a : U128) : U128 :=
  ⟨(neg128 a).val % a.val, lt_of_le_of_lt (Nat.mod_le _ _) (neg128 a).isLt⟩

/-- `Double128`: a 256-bit number as its high and low 128 bits. -/
structure Double128 where
  high : U128
  low : U128
  deriving DecidableEq, Repr

namespace Double128

/-- The number a `Double128` stands for. -/
def value (x : Double128) : Nat :=
  x.high.val * 2 ^ 128 + x.low.val

/-- `try_into_u128`. -/
def tryIntoU128 (x : Double128) : Option U128 :=
  if x.high.val = 0 then some x.low else none

/-- `zero`. -/
def zero : Double128 :=
  ⟨0, 0⟩

/-- `left_shift_64`: `scaled_value << 64`, the low half shifted with `<<` on `u128`, which drops the top bits. -/
def leftShift64 (scaledValue : U128) : Double128 :=
  ⟨⟨scaledValue.val / 2 ^ 64, by omega⟩, ⟨scaledValue.val * 2 ^ 64 % 2 ^ 128, Nat.mod_lt _ (by positivity)⟩⟩

/-- `from_low`. -/
def fromLow (low : U128) : Double128 :=
  ⟨0, low⟩

/-- `low_part`. -/
def lowPart (x : Double128) : Double128 :=
  ⟨0, x.low⟩

/-- `add`: `overflowing_add` on the low halves, and the carry added to the high halves with `wrapping_add`. -/
def add (x b : Double128) : Double128 :=
  let low := x.low + b.low
  let carry : U128 := if 2 ^ 128 ≤ x.low.val + b.low.val then 1 else 0
  ⟨x.high + b.high + carry, low⟩

/-- `product_of`: `a * b` from the four products of the 64-bit halves. -/
def productOf (a b : U128) : Double128 :=
  let aLow := low64 a
  let aHigh := high64 a
  let bLow := low64 b
  let bHigh := high64 b
  let f := aLow * bLow
  let o := aLow * bHigh
  let i := aHigh * bLow
  let l := aHigh * bHigh
  let fl : Double128 := ⟨l, f⟩
  (fl.add (leftShift64 i)).add (leftShift64 o)

/-! ## Exactness of `add` and `product_of` -/

theorem value_lt (x : Double128) : x.value < 2 ^ 256 := by
  unfold value
  have := x.high.isLt
  have := x.low.isLt
  omega

theorem value_add {x b : Double128} (h : x.value + b.value < 2 ^ 256) : (x.add b).value = x.value + b.value := by
  unfold value at h ⊢
  unfold add
  have hxl := x.low.isLt
  have hbl := b.low.isLt
  simp only [Fin.val_add]
  split
  · -- the low halves carry one into the high half
    have hc : ((1 : U128) : Nat) = 1 := rfl
    rw [hc]
    have hhigh : x.high.val + b.high.val + 1 < 2 ^ 128 := by omega
    rw [Nat.mod_eq_of_lt (by omega : x.high.val + b.high.val < 2 ^ 128), Nat.mod_eq_of_lt hhigh]
    omega
  · have hc : ((0 : U128) : Nat) = 0 := rfl
    rw [hc]
    have hhigh : x.high.val + b.high.val < 2 ^ 128 := by omega
    rw [Nat.mod_eq_of_lt hhigh, Nat.add_zero, Nat.mod_eq_of_lt hhigh, Nat.mod_eq_of_lt (by omega)]
    omega

theorem value_leftShift64 (v : U128) : (leftShift64 v).value = v.val * 2 ^ 64 := by
  unfold leftShift64 value
  dsimp only
  have hv := v.isLt
  omega

theorem val_mul_half {a b : U128} (ha : a.val < 2 ^ 64) (hb : b.val < 2 ^ 64) : (a * b).val = a.val * b.val := by
  rw [Fin.val_mul]
  exact Nat.mod_eq_of_lt (by have := Nat.mul_lt_mul'' ha hb; omega)

theorem value_productOf (a b : U128) : (productOf a b).value = a.val * b.val := by
  have ha := a.isLt
  have hb := b.isLt
  have hal : (low64 a).val < 2 ^ 64 := Nat.mod_lt _ (by positivity)
  have hah : (high64 a).val < 2 ^ 64 := by unfold high64; dsimp only; omega
  have hbl : (low64 b).val < 2 ^ 64 := Nat.mod_lt _ (by positivity)
  have hbh : (high64 b).val < 2 ^ 64 := by unfold high64; dsimp only; omega
  -- the halves put back together
  have hasplit : a.val = (high64 a).val * 2 ^ 64 + (low64 a).val := by unfold high64 low64; dsimp only; omega
  have hbsplit : b.val = (high64 b).val * 2 ^ 64 + (low64 b).val := by unfold high64 low64; dsimp only; omega
  have hab : a.val * b.val < 2 ^ 256 := by have := Nat.mul_lt_mul'' ha hb; omega
  have hexpand : a.val * b.val = (high64 a).val * (high64 b).val * 2 ^ 128 + (low64 a).val * (low64 b).val +
      (high64 a).val * (low64 b).val * 2 ^ 64 + (low64 a).val * (high64 b).val * 2 ^ 64 := by
    rw [hasplit, hbsplit]
    ring
  unfold productOf
  dsimp only
  have hfl : (⟨high64 a * high64 b, low64 a * low64 b⟩ : Double128).value =
      (high64 a).val * (high64 b).val * 2 ^ 128 + (low64 a).val * (low64 b).val := by
    unfold value
    rw [val_mul_half hah hbh, val_mul_half hal hbl]
  have hi := value_leftShift64 (high64 a * low64 b)
  have ho := value_leftShift64 (low64 a * high64 b)
  rw [val_mul_half hah hbl] at hi
  rw [val_mul_half hal hbh] at ho
  rw [value_add (by rw [value_add (by omega), hfl, hi, ho]; omega), value_add (by omega), hfl, hi, ho]
  omega

/-! ## Division -/

/-- The loop of `div`: while the high half is not zero, `x += high * q` and `self = high * r + low`. -/
def divLoop (q r : U128) (x self : Double128) : Double128 × Double128 :=
  if self.high = 0 then (x, self)
  else divLoop q r (x.add (productOf self.high q)) ((productOf self.high r).add self.lowPart)
termination_by self.value
decreasing_by
  rename_i h
  have hr := r.isLt
  have hhigh : 0 < self.high.val := Nat.pos_of_ne_zero (fun h' => h (Fin.ext h'))
  have hlow := self.low.isLt
  have hhr : self.high.val * r.val < self.high.val * 2 ^ 128 := Nat.mul_lt_mul_of_pos_left hr hhigh
  have hlow' : (lowPart self).value = self.low.val := by unfold lowPart value; simp
  rw [value_add (by rw [value_productOf, hlow']; have := self.high.isLt; omega), value_productOf, hlow']
  unfold value
  omega

/-- `div`: the quotient and the remainder of a division by `rhs`. -/
def div (self : Double128) (rhs : U128) : Double128 × U128 :=
  if rhs = 1 then (self, 0)
  else
    let (x, self) := divLoop (div128 rhs) (mod128 rhs) zero self
    (x.add (fromLow (self.low / rhs)), self.low % rhs)

/-- For a divisor of at least two, `div128` and `mod128` are the quotient and the remainder of `2^128`. -/
theorem div128_mod128 {b : U128} (hb : 2 ≤ b.val) :
    (div128 b).val = 2 ^ 128 / b.val ∧ (mod128 b).val = 2 ^ 128 % b.val := by
  have hblt := b.isLt
  have hneg : (neg128 b).val = 2 ^ 128 - b.val * 1 := by
    unfold neg128
    dsimp only
    rw [Nat.mod_eq_of_lt (by omega)]
    omega
  have hle : b.val * 1 ≤ 2 ^ 128 := by omega
  have hq : 2 ^ 128 / b.val < 2 ^ 128 := Nat.div_lt_self (by positivity) (by omega)
  have hq1 : 1 ≤ 2 ^ 128 / b.val := (Nat.le_div_iff_mul_le (by omega)).2 (by omega)
  constructor
  · unfold div128
    dsimp only
    rw [hneg, Nat.sub_mul_div, Nat.sub_add_cancel hq1, Nat.mod_eq_of_lt hq]
  · unfold mod128
    dsimp only
    rw [hneg, Nat.sub_mul_mod hle]

/-- One round of the loop: `x * b + self` is kept when `q * b + r = 2^128`. -/
theorem divLoop_step_identity (X H L Q R B : Nat) (h : Q * B + R = 2 ^ 128) :
    (X + H * Q) * B + (H * R + L) = X * B + (H * 2 ^ 128 + L) := by
  rw [← h]
  ring

/-- The loop keeps `x * b + self` and ends with a zero high half. -/
theorem divLoop_spec {b : U128} (hb : 2 ≤ b.val) (x self : Double128) (h : x.value * b.val + self.value < 2 ^ 256) :
    (divLoop (div128 b) (mod128 b) x self).1.value * b.val + (divLoop (div128 b) (mod128 b) x self).2.value =
        x.value * b.val + self.value ∧ (divLoop (div128 b) (mod128 b) x self).2.high = 0 := by
  obtain ⟨hq, hr⟩ := div128_mod128 hb
  have hqr : (div128 b).val * b.val + (mod128 b).val = 2 ^ 128 := by
    rw [hq, hr, Nat.mul_comm]
    exact Nat.div_add_mod _ _
  fun_induction divLoop (div128 b) (mod128 b) x self with
  | case1 x self hhigh => exact ⟨rfl, hhigh⟩
  | case2 x self hhigh ih =>
    have hlow : (lowPart self).value = self.low.val := by unfold lowPart value; simp
    have hself : self.value = self.high.val * 2 ^ 128 + self.low.val := rfl
    have hH := self.high.isLt
    have hL := self.low.isLt
    have hR := (mod128 b).isLt
    -- the new dividend is `high * r + low`, without wrapping
    have hs' : ((productOf self.high (mod128 b)).add self.lowPart).value =
        self.high.val * (mod128 b).val + self.low.val := by
      have hHR := Nat.mul_le_mul_left self.high.val (show (mod128 b).val ≤ 2 ^ 128 - 1 by omega)
      rw [value_add (by rw [value_productOf, hlow]; omega), value_productOf, hlow]
    have hid := divLoop_step_identity x.value self.high.val self.low.val (div128 b).val (mod128 b).val b.val hqr
    -- the quotient grows by `high * q`: it stays below the whole dividend over `b`
    have hgrow : x.value + self.high.val * (div128 b).val < 2 ^ 256 := by
      have hle := Nat.le_mul_of_pos_right (x.value + self.high.val * (div128 b).val) (by omega : 0 < b.val)
      omega
    have hx' : (x.add (productOf self.high (div128 b))).value = x.value + self.high.val * (div128 b).val := by
      rw [value_add (by rw [value_productOf]; exact hgrow), value_productOf]
    have hkeep : (x.add (productOf self.high (div128 b))).value * b.val +
        ((productOf self.high (mod128 b)).add self.lowPart).value = x.value * b.val + self.value := by
      rw [hx', hs', hself, hid]
    obtain ⟨h1, h2⟩ := ih (by rw [hkeep]; exact h)
    exact ⟨h1.trans hkeep, h2⟩

/-- `div` returns the quotient and the remainder of the 256-bit value, for every divisor of at least one. -/
theorem div_spec (self : Double128) {b : U128} (hb : 1 ≤ b.val) :
    (self.div b).1.value = self.value / b.val ∧ (self.div b).2.val = self.value % b.val := by
  unfold div
  split
  · rename_i h1
    subst h1
    have h1 : ((1 : U128) : Nat) = 1 := rfl
    rw [h1, Nat.div_one, Nat.mod_one]
    exact ⟨rfl, rfl⟩
  · rename_i h1
    have hb2 : 2 ≤ b.val := by
      have : b.val ≠ 1 := fun h => h1 (Fin.ext h)
      omega
    have hzero : zero.value = 0 := rfl
    obtain ⟨hkeep, hhigh⟩ := divLoop_spec hb2 zero self (by rw [hzero]; simpa using self.value_lt)
    rw [hzero, Nat.zero_mul, Nat.zero_add] at hkeep
    generalize divLoop (div128 b) (mod128 b) zero self = p at hkeep hhigh
    obtain ⟨x, s⟩ := p
    dsimp only at hkeep hhigh ⊢
    have hs : s.value = s.low.val := by unfold value; rw [hhigh]; simp
    rw [hs] at hkeep
    have hlow : (fromLow (s.low / b)).value = s.low.val / b.val := by
      unfold fromLow value
      simp [Fin.div_val]
    -- `self = x * b + low`, so the quotient is `x + low / b` and the remainder `low % b`
    have hdiv : self.value / b.val = x.value + s.low.val / b.val := by
      rw [← hkeep, Nat.add_comm, Nat.add_mul_div_right _ _ (by omega), Nat.add_comm]
    have hmod : self.value % b.val = s.low.val % b.val := by
      rw [← hkeep, Nat.add_comm, Nat.add_mul_mod_self_right]
    refine ⟨?_, by rw [hmod, Fin.val_mod]⟩
    rw [value_add (by rw [hlow, ← hdiv]; exact lt_of_le_of_lt (Nat.div_le_self _ _) self.value_lt), hlow, hdiv]

end Double128

/-- `multiply_by_rational_with_rounding`: `a * b / c` rounded by `r`, or `None` when `c = 0` or it overflows. -/
def multiplyByRationalWithRounding (a b c : U128) (r : Rounding) : Option U128 :=
  if c = 0 then none
  else
    let (result, remainder) := (Double128.productOf a b).div c
    match result.tryIntoU128 with
    | none => none
    | some result =>
      if r.bump remainder.val c.val then
        -- `checked_add(1)`
        if h : result.val + 1 < 2 ^ 128 then some ⟨result.val + 1, h⟩ else none
      else some result

/-- `try_into_u128` succeeds exactly when the value fits 128 bits, and then it is the value. -/
theorem Double128.tryIntoU128_eq (x : Double128) :
    (x.tryIntoU128).map Fin.val = if x.value < 2 ^ 128 then some x.value else none := by
  unfold tryIntoU128 value
  have hl := x.low.isLt
  by_cases h : x.high.val = 0
  · rw [if_pos h, h, Nat.zero_mul, Nat.zero_add, if_pos hl]
    rfl
  · rw [if_neg h, if_neg (by omega)]
    rfl

/-- `multiply_by_rational_with_rounding` is the rounded quotient of `a * b` by `c`, and `None` exactly when `c = 0`
or that quotient does not fit `u128`. -/
theorem multiplyByRationalWithRounding_eq (a b c : U128) (r : Rounding) :
    (multiplyByRationalWithRounding a b c r).map Fin.val =
      if c.val = 0 ∨ 2 ^ 128 ≤ roundDiv r (a.val * b.val) c.val then none
      else some (roundDiv r (a.val * b.val) c.val) := by
  unfold multiplyByRationalWithRounding
  by_cases hc : c = 0
  · subst hc
    rfl
  have hc1 : 1 ≤ c.val := Nat.pos_of_ne_zero (fun h => hc (Fin.ext h))
  obtain ⟨hq, hrem⟩ := (Double128.productOf a b).div_spec hc1
  rw [Double128.value_productOf] at hq hrem
  have hround : roundDiv r (a.val * b.val) c.val =
      a.val * b.val / c.val + if r.RoundsUp (a.val * b.val % c.val) c.val then 1 else 0 := rfl
  rw [if_neg hc]
  generalize (Double128.productOf a b).div c = d at hq hrem
  obtain ⟨result, remainder⟩ := d
  dsimp only at hq hrem ⊢
  have htry := result.tryIntoU128_eq
  rw [hq] at htry
  cases ht : result.tryIntoU128 with
  | none =>
    -- the exact quotient does not fit, so neither does the rounded one
    rw [ht] at htry
    have hbig : 2 ^ 128 ≤ a.val * b.val / c.val := by
      by_contra hlt
      rw [if_pos (by omega)] at htry
      cases htry
    rw [if_pos (Or.inr (by omega))]
    rfl
  | some v =>
    rw [ht] at htry
    have hfits : a.val * b.val / c.val < 2 ^ 128 := by
      by_contra hge
      rw [if_neg hge] at htry
      cases htry
    rw [if_pos hfits] at htry
    have hv : v.val = a.val * b.val / c.val := Option.some.inj htry
    dsimp only
    by_cases hb : r.bump remainder.val c.val
    · -- rounding up adds one, which `checked_add` refuses at the top
      have hup : r.RoundsUp (a.val * b.val % c.val) c.val := by rw [← hrem]; exact (r.bump_iff _ _).1 hb
      rw [if_pos hb, hround, if_pos hup]
      by_cases hlt : v.val + 1 < 2 ^ 128
      · rw [dif_pos hlt, if_neg (by omega)]
        simp only [Option.map_some, hv]
      · rw [dif_neg hlt, if_pos (Or.inr (by omega))]
        rfl
    · have hdown : ¬ r.RoundsUp (a.val * b.val % c.val) c.val := by rw [← hrem, ← r.bump_iff]; exact hb
      rw [if_neg hb, hround, if_neg hdown, if_neg (by omega)]
      simp only [Option.map_some, hv, Nat.add_zero]

end CoreChain.Arith

import CoreChain.Arith.Helpers128
import CoreChain.Lib.Machine
import Mathlib

/-!
# Rationals and the rational multiply

`rational.rs` of `sp_arithmetic`. `MultiplyRational::multiply_rational` multiplies by `n / d` with a rounding: for
`u8` to `u64` by widening to the type of twice the width (`impl_rrm`), for `u128` through
`multiply_by_rational_with_rounding`. Every one of them is the rounded quotient of the exact product, or `None`
when `d = 0` or that quotient does not fit (`multiplyRational_eq`, `multiply_rational_rounds`).

`Rational128` is a pair of `u128`, numerator and denominator. Its `lcm` goes through the binary `gcd` and the 256-bit
multiply-divide; `to_den` rescales with the nearest rounding; `checked_add` and `checked_sub` bring both sides to
the `lcm` and add or subtract the numerators. Since the `lcm` is a multiple of both denominators, the rescaling is
exact, and a result that is returned is the exact sum or difference over the `lcm` (`rational_checked_add_exact`).
-/

namespace CoreChain.Arith

/-! ## The rational multiply -/

/-- `multiply_rational` of `impl_rrm!($ulow, $uhi)`, for `$ulow` of `w` bits and `$uhi` of `2 * w`: the product is
taken in `$uhi`, the remainder cast back with `as $ulow`, and the result checked against `$ulow::MAX`. -/
def multiplyRational (w : Nat) (self n d : Fin (2 ^ w)) (r : Rounding) : Option (Fin (2 ^ w)) :=
  if d.val = 0 then none
  else
    let sn := self.val * n.val
    let result := sn / d.val
    let remainder := sn % d.val % 2 ^ w
    let result := if r.bump remainder d.val then result + 1 else result
    if h : result ≤ 2 ^ w - 1 then some ⟨result, by have := Nat.one_le_two_pow (n := w); omega⟩ else none

/-- The widening multiply is the rounded quotient, and `None` exactly when `d = 0` or that quotient does not fit. -/
theorem multiplyRational_eq (w : Nat) (a n d : Fin (2 ^ w)) (r : Rounding) :
    (multiplyRational w a n d r).map Fin.val =
      if d.val = 0 ∨ 2 ^ w ≤ roundDiv r (a.val * n.val) d.val then none
      else some (roundDiv r (a.val * n.val) d.val) := by
  unfold multiplyRational
  by_cases hd : d.val = 0
  · rw [if_pos hd, if_pos (Or.inl hd)]
    rfl
  have hrem : a.val * n.val % d.val % 2 ^ w = a.val * n.val % d.val :=
    Nat.mod_eq_of_lt (lt_trans (Nat.mod_lt _ (Nat.pos_of_ne_zero hd)) d.isLt)
  have hround : (if r.bump (a.val * n.val % d.val % 2 ^ w) d.val then a.val * n.val / d.val + 1
      else a.val * n.val / d.val) = roundDiv r (a.val * n.val) d.val := by
    unfold roundDiv
    rw [hrem]
    by_cases hb : r.bump (a.val * n.val % d.val) d.val
    · rw [if_pos hb, if_pos ((r.bump_iff _ _).1 hb)]
    · rw [if_neg hb, if_neg (fun h => hb ((r.bump_iff _ _).2 h)), Nat.add_zero]
  rw [if_neg hd]
  dsimp only
  simp only [hround]
  have hpow := Nat.one_le_two_pow (n := w)
  split
  · rename_i hfit
    split
    · rename_i hover
      omega
    · rfl
  · rename_i hfit
    split
    · rfl
    · rename_i hover
      omega

/-- `MultiplyRational for u128`. -/
def multiplyRational128 (self n d : U128) (r : Rounding) : Option U128 :=
  multiplyByRationalWithRounding self n d r

/-- Every `multiply_rational` of the crate, and the 256-bit division under the `u128` one, is exact: `a * b / c` rounded
by `r`, `None` exactly when `c = 0` or the result does not fit; the division loop ends for every divisor `≥ 1` with
`quotient * divisor + remainder = dividend`. -/
theorem multiply_rational_rounds :
    (∀ (a b c : U128) (r : Rounding), (multiplyRational128 a b c r).map Fin.val =
      if c.val = 0 ∨ 2 ^ 128 ≤ roundDiv r (a.val * b.val) c.val then none
      else some (roundDiv r (a.val * b.val) c.val)) ∧
    (∀ (x : Double128) (b : U128), 1 ≤ b.val →
      (x.div b).1.value * b.val + (x.div b).2.val = x.value ∧ (x.div b).2.val < b.val) ∧
    (∀ (w : Nat) (a b c : Fin (2 ^ w)) (r : Rounding), (multiplyRational w a b c r).map Fin.val =
      if c.val = 0 ∨ 2 ^ w ≤ roundDiv r (a.val * b.val) c.val then none
      else some (roundDiv r (a.val * b.val) c.val)) := by
  refine ⟨multiplyByRationalWithRounding_eq, fun x b hb => ?_, multiplyRational_eq⟩
  obtain ⟨hq, hr⟩ := x.div_spec hb
  rw [hq, hr]
  exact ⟨Nat.div_add_mod' _ _, Nat.mod_lt _ hb⟩

/-! ## `Rational128` -/

/-- `Rational128`: a numerator and a denominator. -/
structure Rational128 where
  n : U128
  d : U128
  deriving DecidableEq, Repr

namespace Rational128

/-- `to_den`: the same number over `den`, if the nearest rounding of `n * den / d` fits. -/
def toDen (self : Rational128) (den : U128) : Option Rational128 :=
  if den = self.d then some self
  else (multiplyByRationalWithRounding self.n den self.d .nearestPrefDown).map fun n => ⟨n, den⟩

/-- `lcm` of the denominators: `d1 * d2 / gcd(d1, d2)` through the 256-bit multiply-divide. -/
def lcm (self other : Rational128) : Option U128 :=
  if self.d = other.d then some self.d
  else multiplyByRationalWithRounding self.d other.d (gcd self.d other.d) .nearestPrefDown

/-- `checked_add`: both sides over the `lcm`, then the numerators added with `checked_add`. -/
def checkedAdd (self other : Rational128) : Except String Rational128 := do
  let lcm ← (self.lcm other).elim (throw "failed to scale to denominator") pure
  let selfScaled ← (self.toDen lcm).elim (throw "failed to scale to denominator") pure
  let otherScaled ← (other.toDen lcm).elim (throw "failed to scale to denominator") pure
  let n ← if h : selfScaled.n.val + otherScaled.n.val < 2 ^ 128 then pure (⟨_, h⟩ : U128)
    else throw "overflow while adding numerators"
  pure ⟨n, selfScaled.d⟩

/-- `checked_sub`: both sides over the `lcm`, then the numerators subtracted with `checked_sub`. -/
def checkedSub (self other : Rational128) : Except String Rational128 := do
  let lcm ← (self.lcm other).elim (throw "failed to scale to denominator") pure
  let selfScaled ← (self.toDen lcm).elim (throw "failed to scale to denominator") pure
  let otherScaled ← (other.toDen lcm).elim (throw "failed to scale to denominator") pure
  let n ← if h : otherScaled.n.val ≤ selfScaled.n.val then
      pure (⟨selfScaled.n.val - otherScaled.n.val, by have := selfScaled.n.isLt; omega⟩ : U128)
    else throw "overflow while subtracting numerators"
  pure ⟨n, selfScaled.d⟩

/-- The `lcm` of two positive denominators is `Nat.lcm`, whenever it is returned. -/
theorem lcm_eq {self other : Rational128} (hd : 0 < self.d.val) {l : U128} (h : self.lcm other = some l) :
    l.val = Nat.lcm self.d.val other.d.val := by
  unfold lcm at h
  split at h
  · rename_i heq
    cases h
    rw [heq, Nat.lcm_self]
  · have hg := gcd_eq self.d other.d
    have hgpos : 0 < (gcd self.d other.d).val := by rw [hg]; exact Nat.gcd_pos_of_pos_left _ hd
    have hdvd : (gcd self.d other.d).val ∣ self.d.val * other.d.val := by
      rw [hg]
      exact Nat.dvd_trans (Nat.gcd_dvd_left _ _) (Nat.dvd_mul_right _ _)
    have hm := multiplyByRationalWithRounding_eq self.d other.d (gcd self.d other.d) .nearestPrefDown
    rw [h, roundDiv_of_dvd _ hgpos hdvd] at hm
    split at hm
    · cases hm
    · rw [Option.map_some, Option.some.injEq] at hm
      rw [hm, hg]
      rfl

theorem toDen_of_dvd {self : Rational128} {den : U128} (hd : 0 < self.d.val) (hdvd : self.d.val ∣ den.val)
    {x : Rational128} (h : self.toDen den = some x) : x.d = den ∧ x.n.val = self.n.val * (den.val / self.d.val) := by
  unfold toDen at h
  split at h
  · rename_i heq
    cases h
    rw [heq, Nat.div_self hd, Nat.mul_one]
    exact ⟨rfl, rfl⟩
  · have hm := multiplyByRationalWithRounding_eq self.n den self.d .nearestPrefDown
    have hdvd' : self.d.val ∣ self.n.val * den.val := Nat.dvd_trans hdvd (Nat.dvd_mul_left _ _)
    rw [roundDiv_of_dvd _ hd hdvd', Nat.mul_div_assoc _ hdvd] at hm
    obtain ⟨m, hm', rfl⟩ := Option.map_eq_some_iff.1 h
    rw [hm'] at hm
    split at hm
    · cases hm
    · exact ⟨rfl, Option.some.inj hm⟩

/-- A numerator rescaled to a multiple of its denominator stands for the same number. -/
theorem cast_scaled {n d L : Nat} (hd : 0 < d) (hL : 0 < L) (h : d ∣ L) :
    ((n * (L / d) : Nat) : ℚ) / L = (n : ℚ) / d := by
  have hd' : (d : ℚ) ≠ 0 := by exact_mod_cast hd.ne'
  have hL' : (L : ℚ) ≠ 0 := by exact_mod_cast hL.ne'
  rw [Nat.cast_mul, Nat.cast_div h hd']
  field_simp

/-- What `checked_add` and `checked_sub` find before their last step: the `lcm` and both numerators over it. -/
theorem scaled_of_lcm {a b : Rational128} (hd1 : 0 < a.d.val) (hd2 : 0 < b.d.val) {l : U128} (hl : a.lcm b = some l)
    {x y : Rational128} (hx : a.toDen l = some x) (hy : b.toDen l = some y) :
    0 < l.val ∧ l.val = Nat.lcm a.d.val b.d.val ∧ x.d = l ∧ x.n.val = a.n.val * (l.val / a.d.val) ∧
      y.n.val = b.n.val * (l.val / b.d.val) := by
  have hlv := lcm_eq hd1 hl
  have hlpos : 0 < l.val := by rw [hlv]; exact Nat.lcm_pos hd1 hd2
  obtain ⟨hxd, hxn⟩ := toDen_of_dvd hd1 (by rw [hlv]; exact Nat.dvd_lcm_left _ _) hx
  obtain ⟨-, hyn⟩ := toDen_of_dvd hd2 (by rw [hlv]; exact Nat.dvd_lcm_right _ _) hy
  exact ⟨hlpos, hlv, hxd, hxn, hyn⟩

theorem elim_throw_eq_ok {α : Type} {o : Option α} {e : String} {x : α} :
    (o.elim (throw e) pure : Except String α) = .ok x ↔ o = some x := by
  cases o with
  | none => exact ⟨fun h => (nomatch h), fun h => (nomatch h)⟩
  | some v => exact ⟨fun h => by cases h; rfl, fun h => by cases h; rfl⟩

/-- What a successful `checked_add` computed: the `lcm`, both rescaled numbers, and the sum of the numerators. -/
theorem checkedAdd_eq_ok {a b c : Rational128} (h : a.checkedAdd b = .ok c) :
    ∃ l x y, a.lcm b = some l ∧ a.toDen l = some x ∧ b.toDen l = some y ∧ c.d = x.d ∧
      c.n.val = x.n.val + y.n.val := by
  unfold checkedAdd at h
  obtain ⟨l, hl, h⟩ := Except.bind_eq_ok.1 h
  obtain ⟨x, hx, h⟩ := Except.bind_eq_ok.1 h
  obtain ⟨y, hy, h⟩ := Except.bind_eq_ok.1 h
  dsimp only at h
  split at h
  · cases h
    exact ⟨l, x, y, elim_throw_eq_ok.1 hl, elim_throw_eq_ok.1 hx, elim_throw_eq_ok.1 hy, rfl, rfl⟩
  · cases h

/-- What a successful `checked_sub` computed: the `lcm`, both rescaled numbers, and the difference of the
numerators, which does not go below zero. -/
theorem checkedSub_eq_ok {a b c : Rational128} (h : a.checkedSub b = .ok c) :
    ∃ l x y, a.lcm b = some l ∧ a.toDen l = some x ∧ b.toDen l = some y ∧ c.d = x.d ∧
      y.n.val ≤ x.n.val ∧ c.n.val = x.n.val - y.n.val := by
  unfold checkedSub at h
  obtain ⟨l, hl, h⟩ := Except.bind_eq_ok.1 h
  obtain ⟨x, hx, h⟩ := Except.bind_eq_ok.1 h
  obtain ⟨y, hy, h⟩ := Except.bind_eq_ok.1 h
  dsimp only at h
  split at h
  · rename_i hle
    cases h
    exact ⟨l, x, y, elim_throw_eq_ok.1 hl, elim_throw_eq_ok.1 hx, elim_throw_eq_ok.1 hy, rfl, hle, rfl⟩
  · cases h

end Rational128

/-- For rationals with positive denominators: a sum `checked_add` returns is exact and over the `lcm` of the
denominators, a difference `checked_sub` returns is exact, a returned `lcm` is the least common multiple, and the binary
`gcd` is the greatest common divisor of every pair of `u128`. -/
theorem rational_checked_add_exact (a b : Rational128) (hd1 : 0 < a.d.val) (hd2 : 0 < b.d.val) :
    (∀ c, a.checkedAdd b = .ok c → c.d.val = Nat.lcm a.d.val b.d.val ∧
      (c.n.val : ℚ) / c.d.val = (a.n.val : ℚ) / a.d.val + (b.n.val : ℚ) / b.d.val) ∧
    (∀ c, a.checkedSub b = .ok c → c.d.val = Nat.lcm a.d.val b.d.val ∧
      (c.n.val : ℚ) / c.d.val = (a.n.val : ℚ) / a.d.val - (b.n.val : ℚ) / b.d.val) ∧
    (∀ l, a.lcm b = some l → l.val = Nat.lcm a.d.val b.d.val) ∧
    (∀ x y : U128, (gcd x y).val = Nat.gcd x.val y.val) := by
  refine ⟨fun c h => ?_, fun c h => ?_, fun l h => Rational128.lcm_eq hd1 h, gcd_eq⟩
  · obtain ⟨l, x, y, hl, hx, hy, hcd, hcn⟩ := Rational128.checkedAdd_eq_ok h
    obtain ⟨hlpos, hlv, hxd, hxn, hyn⟩ := Rational128.scaled_of_lcm hd1 hd2 hl hx hy
    have hdvd1 : a.d.val ∣ l.val := by rw [hlv]; exact Nat.dvd_lcm_left _ _
    have hdvd2 : b.d.val ∣ l.val := by rw [hlv]; exact Nat.dvd_lcm_right _ _
    rw [hcd, hxd, hcn, hxn, hyn, ← hlv]
    refine ⟨rfl, ?_⟩
    rw [Nat.cast_add, add_div, Rational128.cast_scaled hd1 hlpos hdvd1, Rational128.cast_scaled hd2 hlpos hdvd2]
  · obtain ⟨l, x, y, hl, hx, hy, hcd, hle, hcn⟩ := Rational128.checkedSub_eq_ok h
    obtain ⟨hlpos, hlv, hxd, hxn, hyn⟩ := Rational128.scaled_of_lcm hd1 hd2 hl hx hy
    have hdvd1 : a.d.val ∣ l.val := by rw [hlv]; exact Nat.dvd_lcm_left _ _
    have hdvd2 : b.d.val ∣ l.val := by rw [hlv]; exact Nat.dvd_lcm_right _ _
    rw [hcd, hxd, hcn, hxn, hyn, ← hlv]
    rw [hxn, hyn] at hle
    refine ⟨rfl, ?_⟩
    rw [Nat.cast_sub hle, sub_div, Rational128.cast_scaled hd1 hlpos hdvd1, Rational128.cast_scaled hd2 hlpos hdvd2]

theorem rational_checked_add_exact_halfThird :
    0 < (2 : U128).val ∧ 0 < (3 : U128).val ∧
      ((∀ c, (Rational128.mk 1 2).checkedAdd ⟨1, 3⟩ = .ok c → c.d.val = Nat.lcm 2 3 ∧
        (c.n.val : ℚ) / c.d.val = (1 : ℚ) / 2 + (1 : ℚ) / 3) ∧
      (∀ c, (Rational128.mk 1 2).checkedSub ⟨1, 3⟩ = .ok c → c.d.val = Nat.lcm 2 3 ∧
        (c.n.val : ℚ) / c.d.val = (1 : ℚ) / 2 - (1 : ℚ) / 3) ∧
      (∀ l, (Rational128.mk 1 2).lcm ⟨1, 3⟩ = some l → l.val = Nat.lcm 2 3) ∧
      (∀ x y : U128, (gcd x y).val = Nat.gcd x.val y.val)) :=
  ⟨by decide, by decide, rational_checked_add_exact ⟨1, 2⟩ ⟨1, 3⟩ (by decide) (by decide)⟩

end CoreChain.Arith

import CoreChain.Lib.Word
import CoreChain.Arith.Rational

/-!
# Per-things

`PerThing` of `sp_arithmetic` (`per_things.rs`): a fraction in `[0, 1]` stored as a number of parts out of
`ACCURACY`, in an `Inner` type, with an `Upper` type twice as wide for products. The five types of the crate
(`Percent`, `PerU16`, `Permill`, `Perbill`, `Perquintill`) are values of `PerThing`; a value of one of them is a
`Fraction`, whose parts are at most `ACCURACY` by construction.

Multiplying an operand `x` of any unsigned type of `w` bits by a fraction, `overflow_prune_mul`, never forms
`x * parts`: it takes `(x / ACCURACY) * parts` and adds `rational_mul_correction`, the rounded product of the
remainder, computed in `Upper`. Both pieces fit, no operation panics, and the sum is the exactly rounded
`x * parts / ACCURACY` (`overflowPruneMul_eq`). The reciprocal multiply swaps the roles of `parts` and `ACCURACY`
and saturates (`saturatingReciprocalMul_eq`). `from_rational_with_rounding` goes through `MultiplyRational` of the
operand type, whose specification every implementation of the crate meets (`RationalArg`).
-/

namespace CoreChain.Arith

open Word

/-- A per-thing type: `Inner` of `bits` bits, `Upper` of `upperBits` bits, and `ACCURACY`. -/
structure PerThing where
  bits : Nat
  upperBits : Nat
  accuracy : Nat
  accuracy_pos : 0 < accuracy
  accuracy_lt : accuracy < 2 ^ bits
  /-- `P::Upper` always fits `P::Inner::max_value().pow(2)`. -/
  upper_fits : 2 * bits ≤ upperBits

/-- `Percent`: `u8` parts of `100`, `Upper = u16`. -/
def percent : PerThing := ⟨8, 16, 100, by decide, by decide, by decide⟩

/-- `PerU16`: `u16` parts of `65535`, `Upper = u32`. -/
def perU16 : PerThing := ⟨16, 32, 65535, by decide, by decide, by decide⟩

/-- `Permill`: `u32` parts of `1_000_000`, `Upper = u64`. -/
def permill : PerThing := ⟨32, 64, 1000000, by decide, by decide, by decide⟩

/-- `Perbill`: `u32` parts of `1_000_000_000`, `Upper = u64`. -/
def perbill : PerThing := ⟨32, 64, 1000000000, by decide, by decide, by decide⟩

/-- `Perquintill`: `u64` parts of `1_000_000_000_000_000_000`, `Upper = u128`. -/
def perquintill : PerThing := ⟨64, 128, 1000000000000000000, by decide, by decide, by decide⟩

namespace PerThing

variable (P : PerThing)

/-- `ACCURACY` in `Inner`. -/
def accuracyInner : Fin (2 ^ P.bits) := ⟨P.accuracy, P.accuracy_lt⟩

@[simp] theorem val_accuracyInner : P.accuracyInner.val = P.accuracy := rfl

theorem bits_le_upperBits : P.bits ≤ P.upperBits := by
  have := P.upper_fits
  omega

theorem bits_pos : 0 < P.bits := by
  rcases Nat.eq_zero_or_pos P.bits with h | h
  · have := P.accuracy_lt
    have := P.accuracy_pos
    rw [h, Nat.pow_zero] at *
    omega
  · exact h

theorem mul_lt_upper {a b : Nat} (ha : a < 2 ^ P.bits) (hb : b < 2 ^ P.bits) : a * b < 2 ^ P.upperBits :=
  calc a * b < 2 ^ P.bits * 2 ^ P.bits := Nat.mul_lt_mul'' ha hb
    _ = 2 ^ (2 * P.bits) := by rw [← Nat.pow_add, Nat.two_mul]
    _ ≤ 2 ^ P.upperBits := Nat.pow_le_pow_right Nat.two_pos P.upper_fits

end PerThing

/-- A value of a per-thing type: a number of parts, at most `ACCURACY`. -/
structure Fraction (P : PerThing) where
  parts : Fin (2 ^ P.bits)
  le_accuracy : parts.val ≤ P.accuracy

namespace Fraction

variable {P : PerThing}

/-- `deconstruct`. -/
def deconstruct (self : Fraction P) : Fin (2 ^ P.bits) :=
  self.parts

/-- `from_parts`: the parts, saturated at `ACCURACY`. -/
def fromParts (parts : Fin (2 ^ P.bits)) : Fraction P :=
  ⟨Min.min parts P.accuracyInner, by
    rw [Fin.coe_min]
    exact Nat.min_le_right _ _⟩

/-- `zero`. -/
def zero : Fraction P :=
  ⟨⟨0, Nat.two_pow_pos _⟩, Nat.zero_le _⟩

/-- `one`: all of `ACCURACY`. -/
def one : Fraction P :=
  ⟨P.accuracyInner, Nat.le_refl _⟩

@[simp] theorem val_fromParts (parts : Fin (2 ^ P.bits)) :
    (fromParts parts : Fraction P).parts.val = Min.min parts.val P.accuracy := by
  simp only [fromParts, Fin.coe_min]
  rfl

end Fraction

/-! ## The multiplies -/

section Multiply

variable (P : PerThing) {w : Nat} (hw : P.bits ≤ w)

/-- `rational_mul_correction`: the rounded `(x % denom) * numer / denom`, computed in `Upper`, as a value of the
operand type. -/
def rationalMulCorrection (x : Fin (2 ^ w)) (numer denom : Fin (2 ^ P.bits)) (rounding : Rounding) :
    Option (Fin (2 ^ w)) := do
  let numerUpper : Fin (2 ^ P.upperBits) := widen P.bits_le_upperBits numer
  let denomN : Fin (2 ^ w) := widen hw denom
  let denomUpper : Fin (2 ^ P.upperBits) := widen P.bits_le_upperBits denom
  let rem := x % denomN
  let remInner : Fin (2 ^ P.bits) := saturatedInto rem
  let remMulUpper ← checkedMul (widen P.bits_le_upperBits remInner) numerUpper
  let remMulDivInner : Fin (2 ^ P.bits) := saturatedInto (remMulUpper / denomUpper)
  -- the `match rounding`: `Down` keeps the quotient, the others add one on their test of the remainder
  let remMulDivInner ← if rounding.bump (remMulUpper % denomUpper).val denomUpper.val then
      checkedAdd remMulDivInner 1
    else pure remMulDivInner
  pure (widen hw remMulDivInner)

/-- `overflow_prune_mul`: `(x / ACCURACY) * part + rational_mul_correction(x, part, ACCURACY)`. -/
def overflowPruneMul (x : Fin (2 ^ w)) (part : Fin (2 ^ P.bits)) (rounding : Rounding) : Option (Fin (2 ^ w)) := do
  let maximum : Fin (2 ^ w) := widen hw P.accuracyInner
  let partN : Fin (2 ^ w) := widen hw part
  let c ← rationalMulCorrection P hw x part P.accuracyInner rounding
  let m ← checkedMul (x / maximum) partN
  checkedAdd m c

/-- `saturating_reciprocal_mul`: `(x / part) * ACCURACY + rational_mul_correction(x, ACCURACY, part)`,
saturating. -/
def saturatingReciprocalMul (x : Fin (2 ^ w)) (part : Fin (2 ^ P.bits)) (rounding : Rounding) :
    Option (Fin (2 ^ w)) := do
  let maximum : Fin (2 ^ w) := widen hw P.accuracyInner
  let c ← rationalMulCorrection P hw x P.accuracyInner part rounding
  pure (saturatingAdd (saturatingMul (x / widen hw part) maximum) c)

/-- The correction is the rounded product of the remainder: nothing in it overflows. -/
theorem rationalMulCorrection_eq (x : Fin (2 ^ w)) (numer denom : Fin (2 ^ P.bits)) (rounding : Rounding)
    (hd : 0 < denom.val) :
    (rationalMulCorrection P hw x numer denom rounding).map Fin.val =
      some (roundDiv rounding (x.val % denom.val * numer.val) denom.val) := by
  have hrem : x.val % denom.val < 2 ^ P.bits := lt_trans (Nat.mod_lt _ hd) denom.isLt
  have hprod : x.val % denom.val * numer.val < 2 ^ P.upperBits := P.mul_lt_upper hrem numer.isLt
  -- the rounded quotient is at most `numer`, so it fits in `Inner` with its `+ 1`
  have hle : roundDiv rounding (x.val % denom.val * numer.val) denom.val ≤ numer.val :=
    roundDiv_mod_mul_le rounding hd _ _
  have hq : x.val % denom.val * numer.val / denom.val < 2 ^ P.bits :=
    lt_of_le_of_lt (le_trans (div_le_roundDiv rounding _ _) hle) numer.isLt
  unfold rationalMulCorrection
  obtain ⟨m, hm, hmv⟩ : ∃ m, checkedMul (widen P.bits_le_upperBits
      (saturatedInto (x % widen hw denom) : Fin (2 ^ P.bits))) (widen P.bits_le_upperBits numer) = some m ∧
      m.val = x.val % denom.val * numer.val := by
    have hval := val_checkedMul (a := widen P.bits_le_upperBits
      (saturatedInto (x % widen hw denom) : Fin (2 ^ P.bits))) (b := widen P.bits_le_upperBits numer)
      (by rw [val_widen, val_widen, val_saturatedInto_of_lt (by rw [Fin.mod_val, val_widen]; exact hrem),
        Fin.mod_val, val_widen]; exact hprod)
    obtain ⟨m, hm, hmv⟩ := Option.map_eq_some_iff.1 hval
    rw [val_widen, val_widen, val_saturatedInto_of_lt (by rw [Fin.mod_val, val_widen]; exact hrem),
      Fin.mod_val, val_widen] at hmv
    exact ⟨m, hm, hmv⟩
  simp only [hm, Option.bind_eq_bind, Option.bind_some]
  have hdiv : (saturatedInto (m / widen P.bits_le_upperBits denom) : Fin (2 ^ P.bits)).val =
      x.val % denom.val * numer.val / denom.val := by
    rw [val_saturatedInto_of_lt (by rw [Fin.div_val, val_widen, hmv]; exact hq), Fin.div_val, val_widen, hmv]
  have hmod : (m % widen P.bits_le_upperBits denom).val = x.val % denom.val * numer.val % denom.val := by
    rw [Fin.mod_val, val_widen, hmv]
  rw [val_widen, hmod]
  unfold roundDiv
  by_cases hb : rounding.bump (x.val % denom.val * numer.val % denom.val) denom.val
  · -- rounding up: the `+ 1` stays below `numer + 1`
    have hup := (rounding.bump_iff _ _).1 hb
    have hone : (1 : Fin (2 ^ P.bits)).val = 1 := by
      rw [Fin.val_one', Nat.mod_eq_of_lt (Nat.one_lt_two_pow (Nat.pos_iff_ne_zero.1 P.bits_pos))]
    have hfit : (saturatedInto (m / widen P.bits_le_upperBits denom) : Fin (2 ^ P.bits)).val +
        (1 : Fin (2 ^ P.bits)).val < 2 ^ P.bits := by
      unfold roundDiv at hle
      rw [if_pos hup] at hle
      rw [hdiv, hone]
      have := numer.isLt
      omega
    obtain ⟨s, hs, hsv⟩ := Option.map_eq_some_iff.1 (val_checkedAdd hfit)
    rw [if_pos hb, hs, if_pos hup]
    simp only [Option.pure_def, Option.bind_some, Option.map_some, val_widen, hsv, hdiv, hone]
  · rw [if_neg hb, if_neg (fun h => hb ((rounding.bump_iff _ _).2 h))]
    simp only [Option.pure_def, Option.bind_some, Option.map_some, val_widen, hdiv, Nat.add_zero]

/-- The integer part times the parts, and the remainder times the parts, make up `x * parts`. -/
theorem div_mul_mul_add_mod_mul (x p d : Nat) : x / d * p * d + x % d * p = x * p := by
  rw [Nat.mul_right_comm, ← Nat.add_mul, Nat.div_add_mod']

/-- `overflow_prune_mul` is the exactly rounded `x * part / ACCURACY`, and nothing in it overflows. -/
theorem overflowPruneMul_eq (x : Fin (2 ^ w)) (part : Fin (2 ^ P.bits)) (rounding : Rounding)
    (hp : part.val ≤ P.accuracy) :
    (overflowPruneMul P hw x part rounding).map Fin.val = some (roundDiv rounding (x.val * part.val) P.accuracy) := by
  have hA := P.accuracy_pos
  obtain ⟨c, hc, hcv⟩ := Option.map_eq_some_iff.1
    (rationalMulCorrection_eq P hw x part P.accuracyInner rounding hA)
  -- the integer part times `part` is at most `x`
  have hint : x.val / P.accuracy * part.val ≤ x.val :=
    calc x.val / P.accuracy * part.val ≤ x.val / P.accuracy * P.accuracy := Nat.mul_le_mul_left _ hp
      _ ≤ x.val := Nat.div_mul_le_self _ _
  have hsum : x.val / P.accuracy * part.val + roundDiv rounding (x.val % P.accuracy * part.val) P.accuracy =
      roundDiv rounding (x.val * part.val) P.accuracy := by
    rw [← roundDiv_mul_add rounding hA, div_mul_mul_add_mod_mul]
  have htotal : roundDiv rounding (x.val * part.val) P.accuracy ≤ x.val :=
    roundDiv_le_of_le rounding hA (Nat.mul_le_mul_left _ hp)
  have hm := val_checkedMul (a := x / widen hw P.accuracyInner) (b := widen hw part)
    (by rw [Fin.div_val, val_widen, val_widen]; exact lt_of_le_of_lt hint x.isLt)
  obtain ⟨m, hm, hmv⟩ := Option.map_eq_some_iff.1 hm
  rw [Fin.div_val, val_widen, val_widen] at hmv
  have hfit : m.val + c.val < 2 ^ w := by
    rw [hmv, hcv]
    exact lt_of_eq_of_lt hsum (lt_of_le_of_lt htotal x.isLt)
  unfold overflowPruneMul
  simp only [hc, hm, Option.bind_eq_bind, Option.bind_some]
  rw [val_checkedAdd hfit, hmv, hcv]
  exact congrArg some hsum

/-- `saturating_reciprocal_mul` by a positive part is the exactly rounded `x * ACCURACY / part`, saturated at
`MAX`. -/
theorem saturatingReciprocalMul_eq (x : Fin (2 ^ w)) (part : Fin (2 ^ P.bits)) (rounding : Rounding)
    (hp : 0 < part.val) :
    (saturatingReciprocalMul P hw x part rounding).map Fin.val =
      some (Min.min (roundDiv rounding (x.val * P.accuracy) part.val) (2 ^ w - 1)) := by
  obtain ⟨c, hc, hcv⟩ := Option.map_eq_some_iff.1
    (rationalMulCorrection_eq P hw x P.accuracyInner part rounding hp)
  unfold saturatingReciprocalMul
  simp only [hc, Option.bind_eq_bind, Option.bind_some, Option.pure_def, Option.map_some]
  rw [saturatingAdd_saturatingMul, Fin.div_val, val_widen, val_widen, hcv]
  -- the integer part of `x / part`, times `ACCURACY`, comes out of the rounding
  have hsum : x.val / part.val * P.accuracy + roundDiv rounding (x.val % part.val * P.accuracy) part.val =
      roundDiv rounding (x.val * P.accuracy) part.val := by
    rw [← roundDiv_mul_add rounding hp, div_mul_mul_add_mod_mul]
  exact congrArg some (congrArg (Min.min · (2 ^ w - 1)) hsum)

end Multiply

/-! ## The methods of `PerThing` -/

namespace Fraction

variable {P : PerThing} {w : Nat} (hw : P.bits ≤ w)

/-- `mul_floor`. -/
def mulFloor (self : Fraction P) (b : Fin (2 ^ w)) : Option (Fin (2 ^ w)) :=
  overflowPruneMul P hw b self.deconstruct .down

/-- `mul_ceil`. -/
def mulCeil (self : Fraction P) (b : Fin (2 ^ w)) : Option (Fin (2 ^ w)) :=
  overflowPruneMul P hw b self.deconstruct .up

/-- `impl Mul<N>`: rounds to the nearest, ties down. -/
def mul (self : Fraction P) (b : Fin (2 ^ w)) : Option (Fin (2 ^ w)) :=
  overflowPruneMul P hw b self.deconstruct .nearestPrefDown

/-- `saturating_reciprocal_mul`: rounds to the nearest, ties up. -/
def saturatingReciprocalMul (self : Fraction P) (b : Fin (2 ^ w)) : Option (Fin (2 ^ w)) :=
  CoreChain.Arith.saturatingReciprocalMul P hw b self.deconstruct .nearestPrefUp

/-- `saturating_reciprocal_mul_floor`. -/
def saturatingReciprocalMulFloor (self : Fraction P) (b : Fin (2 ^ w)) : Option (Fin (2 ^ w)) :=
  CoreChain.Arith.saturatingReciprocalMul P hw b self.deconstruct .down

/-- `saturating_reciprocal_mul_ceil`. -/
def saturatingReciprocalMulCeil (self : Fraction P) (b : Fin (2 ^ w)) : Option (Fin (2 ^ w)) :=
  CoreChain.Arith.saturatingReciprocalMul P hw b self.deconstruct .up

end Fraction

/-- Every multiply by a fraction, for every operand width that holds `Inner`, is the exactly rounded product (floor,
ceiling, nearest with ties down for `mul_floor`, `mul_ceil`, `Mul`) and never overflows; every reciprocal multiply by a
positive fraction is the exactly rounded `x * ACCURACY / parts`, saturated at `MAX`. -/
theorem per_thing_mul_exact (P : PerThing) {w : Nat} (hw : P.bits ≤ w) (p : Fraction P) (x : Fin (2 ^ w)) :
    (∀ r, (overflowPruneMul P hw x p.parts r).map Fin.val = some (roundDiv r (x.val * p.parts.val) P.accuracy)) ∧
    (p.mulFloor hw x).map Fin.val = some (x.val * p.parts.val / P.accuracy) ∧
    (p.mulCeil hw x).map Fin.val = some (roundDiv .up (x.val * p.parts.val) P.accuracy) ∧
    (p.mul hw x).map Fin.val = some (roundDiv .nearestPrefDown (x.val * p.parts.val) P.accuracy) ∧
    (0 < p.parts.val →
      (p.saturatingReciprocalMul hw x).map Fin.val =
        some (Min.min (2 ^ w - 1) (roundDiv .nearestPrefUp (x.val * P.accuracy) p.parts.val)) ∧
      (p.saturatingReciprocalMulFloor hw x).map Fin.val =
        some (Min.min (2 ^ w - 1) (x.val * P.accuracy / p.parts.val)) ∧
      (p.saturatingReciprocalMulCeil hw x).map Fin.val =
        some (Min.min (2 ^ w - 1) (roundDiv .up (x.val * P.accuracy) p.parts.val))) := by
  have hprune := fun r => overflowPruneMul_eq P hw x p.parts r p.le_accuracy
  have hrecip := fun r (hp : 0 < p.parts.val) => saturatingReciprocalMul_eq P hw x p.parts r hp
  refine ⟨hprune, ?_, hprune .up, hprune .nearestPrefDown, fun hp => ⟨?_, ?_, ?_⟩⟩
  · rw [Fraction.mulFloor, Fraction.deconstruct, hprune, roundDiv_down]
  · rw [Fraction.saturatingReciprocalMul, Fraction.deconstruct, hrecip _ hp, Nat.min_comm]
  · rw [Fraction.saturatingReciprocalMulFloor, Fraction.deconstruct, hrecip _ hp, roundDiv_down, Nat.min_comm]
  · rw [Fraction.saturatingReciprocalMulCeil, Fraction.deconstruct, hrecip _ hp, Nat.min_comm]

theorem per_thing_mul_exact_perbill : perbill.bits ≤ 64 ∧
    (∀ r, (overflowPruneMul perbill (w := 64) (by decide) 7 ⟨500000000, by decide⟩ r).map Fin.val =
      some (roundDiv r (7 * 500000000) 1000000000)) ∧
    ((Fraction.mk (P := perbill) ⟨500000000, by decide⟩ (by decide)).mulFloor (w := 64) (by decide) 7).map Fin.val =
      some (7 * 500000000 / 1000000000) ∧
    ((Fraction.mk (P := perbill) ⟨500000000, by decide⟩ (by decide)).mulCeil (w := 64) (by decide) 7).map Fin.val =
      some (roundDiv .up (7 * 500000000) 1000000000) ∧
    ((Fraction.mk (P := perbill) ⟨500000000, by decide⟩ (by decide)).mul (w := 64) (by decide) 7).map Fin.val =
      some (roundDiv .nearestPrefDown (7 * 500000000) 1000000000) ∧
    (0 < 500000000 →
      ((Fraction.mk (P := perbill) ⟨500000000, by decide⟩ (by decide)).saturatingReciprocalMul (w := 64)
        (by decide) 7).map Fin.val =
        some (Min.min (2 ^ 64 - 1) (roundDiv .nearestPrefUp (7 * 1000000000) 500000000)) ∧
      ((Fraction.mk (P := perbill) ⟨500000000, by decide⟩ (by decide)).saturatingReciprocalMulFloor (w := 64)
        (by decide) 7).map Fin.val =
        some (Min.min (2 ^ 64 - 1) (7 * 1000000000 / 500000000)) ∧
      ((Fraction.mk (P := perbill) ⟨500000000, by decide⟩ (by decide)).saturatingReciprocalMulCeil (w := 64)
        (by decide) 7).map Fin.val =
        some (Min.min (2 ^ 64 - 1) (roundDiv .up (7 * 1000000000) 500000000))) :=
  ⟨by decide, per_thing_mul_exact perbill (w := 64) (by decide) ⟨⟨500000000, by decide⟩, by decide⟩ 7⟩

/-! ## Fractions from rationals -/

/-- `MultiplyRational` of an unsigned type of `w` bits, with the specification that both implementations of the
crate meet: `self * n / d` rounded, `None` when `d = 0` or the rounded quotient does not fit. -/
structure RationalArg (w : Nat) where
  multiplyRational : Fin (2 ^ w) → Fin (2 ^ w) → Fin (2 ^ w) → Rounding → Option (Fin (2 ^ w))
  multiplyRational_eq : ∀ a n d r, (multiplyRational a n d r).map Fin.val =
    if d.val = 0 ∨ 2 ^ w ≤ roundDiv r (a.val * n.val) d.val then none else some (roundDiv r (a.val * n.val) d.val)

namespace RationalArg

variable {w : Nat}

/-- `impl_rrm!` on `u8`, `u16`, `u32` and `u64`. -/
def implRrm (w : Nat) : RationalArg w :=
  ⟨CoreChain.Arith.multiplyRational w, CoreChain.Arith.multiplyRational_eq w⟩

/-- `MultiplyRational for u128`, through `multiply_by_rational_with_rounding`. -/
def u128 : RationalArg 128 :=
  ⟨multiplyRational128, multiplyByRationalWithRounding_eq⟩

/-- Multiplying by a fraction `n / d` at most one never grows the value. -/
theorem val_le_of_eq_some (N : RationalArg w) {a n d x : Fin (2 ^ w)} {r : Rounding} (hnd : n.val ≤ d.val)
    (h : N.multiplyRational a n d r = some x) : x.val ≤ a.val := by
  have hspec := N.multiplyRational_eq a n d r
  rw [h, Option.map_some] at hspec
  split at hspec
  · cases hspec
  · rename_i hfit
    rw [Option.some.injEq] at hspec
    rw [hspec]
    exact roundDiv_le_of_le r (by omega) (Nat.mul_le_mul_left _ hnd)

end RationalArg

/-- `from_rational_with_rounding`: `Err` for `q = 0` or `p > q`, otherwise `ACCURACY * p / q` rounded by
`MultiplyRational` of the operand type and brought back to `Inner` with `try_into`. -/
def fromRationalWithRounding (P : PerThing) {w : Nat} (N : RationalArg w) (hw : P.bits ≤ w) (p q : Fin (2 ^ w))
    (r : Rounding) : Except Unit (Fraction P) :=
  if q.val = 0 then .error ()
  else if hpq : q.val < p.val then .error ()
  else
    let max : Fin (2 ^ w) := widen hw P.accuracyInner
    match hm : N.multiplyRational max p q r with
    | none => .error ()
    | some x =>
      -- `Self(x)` after `try_into`: `x` is at most `max`, since `p ≤ q`
      if hx : x.val < 2 ^ P.bits then .ok ⟨⟨x.val, hx⟩, N.val_le_of_eq_some (Nat.le_of_not_lt hpq) hm⟩
      else .error ()

/-- `from_rational`: rounds down, and `one` where `from_rational_with_rounding` fails. -/
def fromRational (P : PerThing) {w : Nat} (N : RationalArg w) (hw : P.bits ≤ w) (p q : Fin (2 ^ w)) : Fraction P :=
  match fromRationalWithRounding P N hw p q .down with
  | .ok x => x
  | .error () => Fraction.one

/-- `from_rational_with_rounding` fails exactly for `q = 0` or `p > q`, and otherwise has the parts
`ACCURACY * p / q` rounded by `r`. -/
theorem fromRationalWithRounding_eq (P : PerThing) {w : Nat} (N : RationalArg w) (hw : P.bits ≤ w)
    (p q : Fin (2 ^ w)) (r : Rounding) :
    (fromRationalWithRounding P N hw p q r).toOption.map (fun f => f.parts.val) =
      if q.val = 0 ∨ q.val < p.val then none else some (roundDiv r (P.accuracy * p.val) q.val) := by
  unfold fromRationalWithRounding
  by_cases hq : q.val = 0
  · rw [if_pos hq, if_pos (Or.inl hq)]
    rfl
  rw [if_neg hq]
  by_cases hpq : q.val < p.val
  · rw [dif_pos hpq, if_pos (Or.inr hpq)]
    rfl
  rw [dif_neg hpq, if_neg (by omega)]
  -- the rounded quotient is at most `ACCURACY`, so it fits in `Inner` and in the operand type
  have hle : roundDiv r (P.accuracy * p.val) q.val ≤ P.accuracy :=
    roundDiv_le_of_le r (by omega) (Nat.mul_le_mul_left _ (by omega))
  have hinner : roundDiv r (P.accuracy * p.val) q.val < 2 ^ P.bits := lt_of_le_of_lt hle P.accuracy_lt
  have hfit : roundDiv r (P.accuracy * p.val) q.val < 2 ^ w :=
    lt_of_lt_of_le hinner (Nat.pow_le_pow_right Nat.two_pos hw)
  have hspec := N.multiplyRational_eq (widen hw P.accuracyInner) p q r
  rw [val_widen, PerThing.val_accuracyInner, if_neg (by omega)] at hspec
  dsimp only
  split
  · rename_i hm
    rw [hm] at hspec
    cases hspec
  · rename_i x hm
    rw [hm, Option.map_some, Option.some.injEq] at hspec
    rw [dif_pos (by rw [hspec]; exact hinner)]
    exact congrArg some hspec

/-- For `n ≤ d`, `d > 0` in `u128`: `from_rational_with_rounding(n, d, Down)` gives `ACCURACY * n / d` parts; `d` times
it is at most `n`, and `n` times its reciprocal, rounded down, at least `d`. For every operand type,
`from_rational_with_rounding(p, q, r)` fails exactly when `q = 0` or `p > q`, else gives `ACCURACY * p / q` rounded by
`r`. -/
theorem from_rational_floor_bounds (P : PerThing) (hw : P.bits ≤ 128) (n d : U128) (hnd : n.val ≤ d.val)
    (hd : 0 < d.val) :
    (∃ q : Fraction P, fromRationalWithRounding P RationalArg.u128 hw n d .down = .ok q ∧
      q.parts.val = P.accuracy * n.val / d.val ∧ q.parts.val ≤ P.accuracy ∧
      (∃ m, q.mul hw d = some m ∧ m.val ≤ n.val) ∧
      (0 < q.parts.val → ∃ s, q.saturatingReciprocalMulFloor hw n = some s ∧ d.val ≤ s.val)) ∧
    (∀ (w : Nat) (N : RationalArg w) (hw' : P.bits ≤ w) (a b : Fin (2 ^ w)) (r : Rounding),
      (fromRationalWithRounding P N hw' a b r).toOption.map (fun f => f.parts.val) =
        if b.val = 0 ∨ b.val < a.val then none else some (roundDiv r (P.accuracy * a.val) b.val)) := by
  refine ⟨?_, fun w N hw' a b r => fromRationalWithRounding_eq P N hw' a b r⟩
  have hres := fromRationalWithRounding_eq P RationalArg.u128 hw n d .down
  rw [if_neg (by omega), roundDiv_down] at hres
  cases hq : fromRationalWithRounding P RationalArg.u128 hw n d .down with
  | error e => rw [hq] at hres; cases hres
  | ok q =>
    rw [hq] at hres
    have hqv : q.parts.val = P.accuracy * n.val / d.val := Option.some.inj hres
    refine ⟨q, rfl, hqv, q.le_accuracy, ?_, fun hqpos => ?_⟩
    · -- `q * d` rounds `d * q / ACCURACY`, and `d * q ≤ n * ACCURACY`
      obtain ⟨m, hm, hmv⟩ := Option.map_eq_some_iff.1
        (overflowPruneMul_eq P hw d q.parts .nearestPrefDown q.le_accuracy)
      refine ⟨m, hm, ?_⟩
      rw [hmv, hqv]
      refine roundDiv_le_of_le _ P.accuracy_pos ?_
      rw [Nat.mul_comm n.val]
      exact Nat.mul_div_le _ _
    · -- `n * ACCURACY / q` is at least `d`, since `q * d ≤ ACCURACY * n`
      obtain ⟨s, hs, hsv⟩ := Option.map_eq_some_iff.1
        (saturatingReciprocalMul_eq P hw n q.parts .down hqpos)
      refine ⟨s, hs, ?_⟩
      rw [hsv, roundDiv_down]
      have hqd : q.parts.val * d.val ≤ n.val * P.accuracy := by
        rw [hqv, Nat.mul_comm n.val]
        exact Nat.div_mul_le_self _ _
      have hdiv : d.val ≤ n.val * P.accuracy / q.parts.val :=
        (Nat.le_div_iff_mul_le hqpos).2 (by rw [Nat.mul_comm]; exact hqd)
      have hdmax : d.val ≤ 2 ^ 128 - 1 := by have := d.isLt; omega
      exact Nat.le_min.2 ⟨hdiv, hdmax⟩

theorem from_rational_floor_bounds_perbill : perbill.bits ≤ 128 ∧ (1 : U128).val ≤ (3 : U128).val ∧
    0 < (3 : U128).val ∧
    ((∃ q : Fraction perbill, fromRationalWithRounding perbill RationalArg.u128 (by decide) 1 3 .down = .ok q ∧
      q.parts.val = perbill.accuracy * (1 : U128).val / (3 : U128).val ∧ q.parts.val ≤ perbill.accuracy ∧
      (∃ m, q.mul (w := 128) (by decide) 3 = some m ∧ m.val ≤ (1 : U128).val) ∧
      (0 < q.parts.val → ∃ s, q.saturatingReciprocalMulFloor (w := 128) (by decide) 1 = some s ∧
        (3 : U128).val ≤ s.val)) ∧
    (∀ (w : Nat) (N : RationalArg w) (hw' : perbill.bits ≤ w) (a b : Fin (2 ^ w)) (r : Rounding),
      (fromRationalWithRounding perbill N hw' a b r).toOption.map (fun f => f.parts.val) =
        if b.val = 0 ∨ b.val < a.val then none else some (roundDiv r (perbill.accuracy * a.val) b.val))) :=
  ⟨by decide, by decide, by decide, from_rational_floor_bounds perbill (by decide) 1 3 (by decide) (by decide)⟩

/-! ## Arithmetic of fractions

The operators of `implement_per_thing!` on two fractions, as a release build runs them: `+` and `-` take the sum or
difference of the parts in `Inner`, wrapping (the `debug_assert` of `+` is not compiled), and saturate it at
`ACCURACY` with `from_parts`; `*` rounds the product of the parts down; `int_div` panics on a zero divisor, which is
`none` here. The order is the derived one, on the parts. -/

namespace Fraction

variable {P : PerThing}

theorem ext_parts {a b : Fraction P} (h : a.parts.val = b.parts.val) : a = b := by
  cases a
  cases b
  cases Fin.ext h
  rfl

instance : DecidableEq (Fraction P) := fun a b =>
  decidable_of_iff (a.parts.val = b.parts.val) ⟨ext_parts, fun h => h ▸ rfl⟩

instance : LE (Fraction P) := ⟨fun a b => a.parts.val ≤ b.parts.val⟩

instance : LT (Fraction P) := ⟨fun a b => a.parts.val < b.parts.val⟩

instance (a b : Fraction P) : Decidable (a ≤ b) := inferInstanceAs (Decidable (a.parts.val ≤ b.parts.val))

instance (a b : Fraction P) : Decidable (a < b) := inferInstanceAs (Decidable (a.parts.val < b.parts.val))

/-- `Ord::min`: `self` unless `other` is smaller. -/
instance : Min (Fraction P) := ⟨fun a b => if a ≤ b then a else b⟩

/-- `Ord::max`: `other` unless it is smaller. -/
instance : Max (Fraction P) := ⟨fun a b => if a ≤ b then b else a⟩

/-- `Add`: `from_parts` of the `Inner` sum. -/
instance : Add (Fraction P) := ⟨fun a b => fromParts (a.parts + b.parts)⟩

/-- `Sub`: `from_parts` of the `Inner` difference. -/
instance : Sub (Fraction P) := ⟨fun a b => fromParts (a.parts - b.parts)⟩

/-- `Mul`: `a * b / ACCURACY` in `Upper`, cast back to `Inner` with `as`. -/
instance : Mul (Fraction P) :=
  ⟨fun a b => fromParts ⟨a.parts.val * b.parts.val / P.accuracy % 2 ^ P.bits, Nat.mod_lt _ (Nat.two_pow_pos _)⟩⟩

/-- `saturating_mul`: `self * rhs`. -/
def saturatingMul (self rhs : Fraction P) : Fraction P :=
  self * rhs

/-- `int_mul`: `from_parts` of the saturating `Inner` product. -/
def intMul (self : Fraction P) (b : Fin (2 ^ P.bits)) : Fraction P :=
  fromParts (Word.saturatingMul self.parts b)

/-- `int_div`: the quotient of the parts, rounding down. -/
def intDiv (self b : Fraction P) : Option (Fin (2 ^ P.bits)) :=
  if b.parts.val = 0 then none else some (self.parts / b.parts)

/-- `less_epsilon`: one part less, or zero. -/
def lessEpsilon (self : Fraction P) : Fraction P :=
  if self.parts.val = 0 then self
  else fromParts ⟨self.parts.val - 1, lt_of_le_of_lt (Nat.sub_le _ _) self.parts.isLt⟩

/-- `saturating_div`: `from_rational_with_rounding` of the two parts in `Inner`, or `one` where it fails. -/
def saturatingDiv (self rhs : Fraction P) (r : Rounding) : Fraction P :=
  match fromRationalWithRounding P (RationalArg.implRrm P.bits) (Nat.le_refl _) self.parts rhs.parts r with
  | .ok x => x
  | .error () => one

theorem le_def {a b : Fraction P} : a ≤ b ↔ a.parts.val ≤ b.parts.val := Iff.rfl

theorem lt_def {a b : Fraction P} : a < b ↔ a.parts.val < b.parts.val := Iff.rfl

@[simp] theorem val_zero : (zero : Fraction P).parts.val = 0 := rfl

@[simp] theorem val_one : (one : Fraction P).parts.val = P.accuracy := rfl

@[simp] theorem val_min (a b : Fraction P) : (min a b).parts.val = Min.min a.parts.val b.parts.val := by
  change (if a ≤ b then a else b).parts.val = _
  split
  · rename_i h
    exact (Nat.min_eq_left h).symm
  · rename_i h
    exact (Nat.min_eq_right (Nat.le_of_not_le h)).symm

@[simp] theorem val_max (a b : Fraction P) : (max a b).parts.val = Max.max a.parts.val b.parts.val := by
  change (if a ≤ b then b else a).parts.val = _
  split
  · rename_i h
    exact (Nat.max_eq_right h).symm
  · rename_i h
    exact (Nat.max_eq_left (Nat.le_of_not_le h)).symm

/-- A sum that fits `Inner` is saturated at `ACCURACY`. -/
theorem val_add {a b : Fraction P} (h : a.parts.val + b.parts.val < 2 ^ P.bits) :
    (a + b).parts.val = Min.min (a.parts.val + b.parts.val) P.accuracy := by
  change (fromParts (a.parts + b.parts)).parts.val = _
  rw [val_fromParts, Fin.val_add, Nat.mod_eq_of_lt h]

theorem val_sub {a b : Fraction P} (h : b ≤ a) : (a - b).parts.val = a.parts.val - b.parts.val := by
  change (fromParts (a.parts - b.parts)).parts.val = _
  rw [val_fromParts, Fin.sub_val_of_le h]
  have := a.le_accuracy
  omega

/-- The product of two fractions is the product of the parts over `ACCURACY`, rounded down; the cast to `Inner`
never truncates. -/
@[simp] theorem val_mul (a b : Fraction P) : (a * b).parts.val = a.parts.val * b.parts.val / P.accuracy := by
  have hle : a.parts.val * b.parts.val / P.accuracy ≤ P.accuracy :=
    Nat.div_le_of_le_mul (Nat.mul_le_mul a.le_accuracy b.le_accuracy)
  change (fromParts _).parts.val = _
  rw [val_fromParts]
  dsimp only
  rw [Nat.mod_eq_of_lt (lt_of_le_of_lt hle P.accuracy_lt)]
  omega

@[simp] theorem val_intMul (a : Fraction P) (b : Fin (2 ^ P.bits)) :
    (a.intMul b).parts.val = Min.min (a.parts.val * b.val) P.accuracy := by
  have := P.accuracy_lt
  rw [intMul, val_fromParts, Word.val_saturatingMul]
  omega

@[simp] theorem val_lessEpsilon (a : Fraction P) : a.lessEpsilon.parts.val = a.parts.val - 1 := by
  have := a.le_accuracy
  unfold lessEpsilon
  split
  · omega
  · rw [val_fromParts]
    dsimp only
    omega

/-- `saturating_div` of a fraction by a larger non-zero one rounds `ACCURACY * p / q`; otherwise it is `one`. -/
theorem val_saturatingDiv (a b : Fraction P) (r : Rounding) :
    (a.saturatingDiv b r).parts.val =
      if b.parts.val = 0 ∨ b.parts.val < a.parts.val then P.accuracy
      else roundDiv r (P.accuracy * a.parts.val) b.parts.val := by
  have hspec := fromRationalWithRounding_eq P (RationalArg.implRrm P.bits) (Nat.le_refl _) a.parts b.parts r
  unfold saturatingDiv
  split
  · rename_i x hx
    rw [hx] at hspec
    split at hspec
    · cases hspec
    · rename_i hok
      rw [if_neg hok]
      exact Option.some.inj hspec
  · rename_i hx
    rw [hx] at hspec
    split at hspec
    · rename_i hfail
      rw [if_pos hfail]
      rfl
    · cases hspec

/-- `from_rational` of a fraction at most one rounds `ACCURACY * p / q` down. -/
theorem val_fromRational {w : Nat} (N : RationalArg w) (hw : P.bits ≤ w) {p q : Fin (2 ^ w)} (hq : 0 < q.val)
    (hpq : p.val ≤ q.val) : (fromRational P N hw p q).parts.val = P.accuracy * p.val / q.val := by
  have hspec := fromRationalWithRounding_eq P N hw p q .down
  rw [if_neg (by omega), roundDiv_down] at hspec
  unfold fromRational
  split
  · rename_i x hx
    rw [hx] at hspec
    exact Option.some.inj hspec
  · rename_i hx
    rw [hx] at hspec
    cases hspec

end Fraction

end CoreChain.Arith

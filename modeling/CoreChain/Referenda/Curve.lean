import CoreChain.Arith.FixedPoint

/-!
# Referenda curves

`Curve` of `pallet_referenda` (`types.rs`): the approval and support thresholds of a track, as functions of the
elapsed part `x` of the decision period, both `Perbill`. `threshold(x)` is the curve's `y` at `x`, `passing(x, y)`
says that `y` reaches it, and `delay(y)` is documented as the smallest `x` with `passing(x, y)`, or `Perbill::one()`
where there is none; `Pallet::decision_time` sets the alarm of a referendum at the `delay` of its tally.

The arithmetic is the release build's: `Perbill` sums and differences saturate through `from_parts`, `FixedI64` sums
and differences wrap; an `int_div` by zero panics, which is `none`.

The two directions are computed separately and round separately. The threshold falls as `x` grows for every
linear curve with a positive `length` and every stepped curve with a positive `period`
(`threshold_linear_antitone`, `threshold_stepped_antitone`), and for a reciprocal curve as long as `x + x_offset`
and the curve's value at `0` are within `i64` (`threshold_reciprocal_antitone`). The stepped `delay` is exactly the
smallest passing `x` while the sum `begin - y + step.less_epsilon()` does not saturate (`delay_stepped_least`).
-/

namespace CoreChain.Referenda

open Arith

/-- `Perbill`. -/
abbrev Perbill := Fraction perbill

/-- `FixedI64`. -/
abbrev FixedI64 := Fixed fixedI64

theorem perbill_bits_le : perbill.bits ≤ 128 := by decide

/-- `Curve`. -/
inductive Curve where
  /-- From `(0, ceil)` linearly down to `(length, floor)`, then `floor`. -/
  | linearDecreasing (length floor ceil : Perbill)
  /-- From `begin`, down by `step` after each `period`, and never below `end`. -/
  | steppedDecreasing (begin «end» step period : Perbill)
  /-- `factor / (x + x_offset) + y_offset`. -/
  | reciprocal (factor xOffset yOffset : FixedI64)
  deriving DecidableEq

namespace Curve

/-- `threshold`: the `y` value of the curve at `x`; `none` where it panics, at `int_div` by a zero `period`. -/
def threshold : Curve → Perbill → Option Perbill
  | .linearDecreasing length floor ceil, x =>
    some (ceil - (min x length).saturatingDiv length .down * (ceil - floor))
  | .steppedDecreasing begin «end» step period, x =>
    (x.intDiv period).map fun k => max (begin - min (step.intMul k) begin) «end»
  | .reciprocal factor xOffset yOffset, x =>
    some <|
      match factor.checkedRoundingDiv (Fixed.fromPerThing fixedI64 perbill perbill_bits_le x + xOffset) .low with
      | some yp => (yp + yOffset).intoClampedPerthing perbill perbill_bits_le
      | none => Fraction.one

/-- `delay`: documented as the smallest `x` with `passing(x, y)`, or `one` where there is none; `none` where it
panics, at `int_div` by a zero `step`. -/
def delay : Curve → Perbill → Option Perbill
  | .linearDecreasing length floor ceil, y =>
    some <|
      if y < floor then Fraction.one
      else if ceil < y then Fraction.zero
      else ((ceil - y).saturatingDiv (ceil - floor) .up).saturatingMul length
  | .steppedDecreasing begin «end» step period, y =>
    if y < «end» then some Fraction.one
    else ((begin - min y begin + step.lessEpsilon).intDiv step).map fun k => period.intMul k
  | .reciprocal factor xOffset yOffset, y =>
    let y := Fixed.fromPerThing fixedI64 perbill perbill_bits_le y
    some <|
      match factor.checkedRoundingDiv (y - yOffset) .high with
      | some term =>
        match (term - xOffset).tryIntoPerthing perbill perbill_bits_le with
        | .ok x => x
        | .error _ => Fraction.one
      | none => Fraction.one

/-- `passing`: whether `y` reaches the threshold at `x`. -/
def passing (c : Curve) (x y : Perbill) : Option Bool :=
  (c.threshold x).map fun t => decide (t ≤ y)

/-- The threshold never rises as `x` grows. -/
def ThresholdAntitone (c : Curve) : Prop :=
  ∀ x x' t t', x ≤ x' → c.threshold x = some t → c.threshold x' = some t' → t' ≤ t

theorem passing_of_threshold {c : Curve} {x y t : Perbill} (ht : c.threshold x = some t) :
    c.passing x y = some (decide (t.parts.val ≤ y.parts.val)) := by
  rw [passing, ht, Option.map_some]
  rfl

/-- `FixedI64::from` keeps the parts of a `Perbill`, since one is `10^9` in both. -/
@[simp] theorem val_fromPerbill (x : Perbill) :
    (Fixed.fromPerThing fixedI64 perbill perbill_bits_le x).val = x.parts.val :=
  Fixed.val_fromPerThing perbill perbill_bits_le rfl x

/-! ## `LinearDecreasing` -/

section Linear

variable {length floor ceil : Perbill}

/-- The linear threshold: `ceil` less the part `min(x, length) / length`, rounded down, of `ceil - floor`, rounded
down. -/
theorem threshold_linear (hlen : 0 < length.parts.val) (hfc : floor ≤ ceil) (x : Perbill) :
    ((linearDecreasing length floor ceil).threshold x).map (·.parts.val) =
      some (ceil.parts.val - perbill.accuracy * Min.min x.parts.val length.parts.val / length.parts.val *
        (ceil.parts.val - floor.parts.val) / perbill.accuracy) := by
  have hpart : ((min x length).saturatingDiv length .down).parts.val =
      perbill.accuracy * Min.min x.parts.val length.parts.val / length.parts.val := by
    rw [Fraction.val_saturatingDiv, Fraction.val_min, if_neg (by omega), roundDiv_down]
  have hle : ((min x length).saturatingDiv length .down * (ceil - floor)).parts.val ≤ ceil.parts.val := by
    have hr := ((min x length).saturatingDiv length .down).le_accuracy
    rw [Fraction.val_mul, Fraction.val_sub hfc]
    calc _ ≤ perbill.accuracy * (ceil.parts.val - floor.parts.val) / perbill.accuracy :=
          Nat.div_le_div_right (Nat.mul_le_mul_right _ hr)
      _ = ceil.parts.val - floor.parts.val := Nat.mul_div_cancel_left _ perbill.accuracy_pos
      _ ≤ ceil.parts.val := Nat.sub_le _ _
  rw [threshold, Option.map_some, Fraction.val_sub hle, Fraction.val_mul, hpart, Fraction.val_sub hfc]

theorem threshold_linear_antitone (hlen : 0 < length.parts.val) (hfc : floor ≤ ceil) :
    (linearDecreasing length floor ceil).ThresholdAntitone := by
  intro x x' t t' hx ht ht'
  have h := threshold_linear hlen hfc x
  have h' := threshold_linear hlen hfc x'
  rw [ht, Option.map_some, Option.some.injEq] at h
  rw [ht', Option.map_some, Option.some.injEq] at h'
  rw [Fraction.le_def, h, h']
  apply Nat.sub_le_sub_left
  apply Nat.div_le_div_right
  apply Nat.mul_le_mul_right
  apply Nat.div_le_div_right
  apply Nat.mul_le_mul_left
  rw [Fraction.le_def] at hx
  omega

end Linear

/-! ## `SteppedDecreasing` -/

section Stepped

variable {begin «end» step period : Perbill}

theorem intDiv_eq_some (a : Perbill) {b : Perbill} (hb : 0 < b.parts.val) : a.intDiv b = some (a.parts / b.parts) := by
  rw [Fraction.intDiv, if_neg (by omega)]

/-- The stepped threshold: `begin` less `step` for each whole `period` in `x`, saturated, and at least `end`. -/
theorem threshold_stepped (hp : 0 < period.parts.val) (x : Perbill) :
    ((steppedDecreasing begin «end» step period).threshold x).map (·.parts.val) =
      some (Max.max (begin.parts.val - Min.min (Min.min (step.parts.val * (x.parts.val / period.parts.val))
        perbill.accuracy) begin.parts.val) «end».parts.val) := by
  have hmin : (min (step.intMul (x.parts / period.parts)) begin) ≤ begin := by
    rw [Fraction.le_def, Fraction.val_min]
    exact Nat.min_le_right _ _
  rw [threshold, intDiv_eq_some x hp, Option.map_some, Option.map_some, Fraction.val_max, Fraction.val_sub hmin,
    Fraction.val_min, Fraction.val_intMul, Fin.div_val]

theorem threshold_stepped_antitone (hp : 0 < period.parts.val) :
    (steppedDecreasing begin «end» step period).ThresholdAntitone := by
  intro x x' t t' hx ht ht'
  have h := @threshold_stepped begin «end» step period hp x
  have h' := @threshold_stepped begin «end» step period hp x'
  rw [ht, Option.map_some, Option.some.injEq] at h
  rw [ht', Option.map_some, Option.some.injEq] at h'
  have hk : step.parts.val * (x.parts.val / period.parts.val) ≤ step.parts.val * (x'.parts.val / period.parts.val) :=
    Nat.mul_le_mul_left _ (Nat.div_le_div_right hx)
  rw [Fraction.le_def, h, h']
  omega

/-- The stepped `delay` of a `y` at least `end`: `period` times the number of steps that cover `begin - y`, both
saturated. -/
theorem delay_stepped (hs : 0 < step.parts.val) {y : Perbill} (hy : ¬ y < «end»)
    (hsum : begin.parts.val - Min.min y.parts.val begin.parts.val + (step.parts.val - 1) ≤ perbill.accuracy) :
    ((steppedDecreasing begin «end» step period).delay y).map (·.parts.val) =
      some (Min.min (period.parts.val * ((begin.parts.val - Min.min y.parts.val begin.parts.val +
        (step.parts.val - 1)) / step.parts.val)) perbill.accuracy) := by
  have hmin : min y begin ≤ begin := by
    rw [Fraction.le_def, Fraction.val_min]
    exact Nat.min_le_right _ _
  have hfit : (begin - min y begin).parts.val + step.lessEpsilon.parts.val < 2 ^ perbill.bits := by
    rw [Fraction.val_sub hmin, Fraction.val_min, Fraction.val_lessEpsilon]
    have : perbill.accuracy < 2 ^ perbill.bits := perbill.accuracy_lt
    have : perbill.accuracy * 2 < 2 ^ perbill.bits := by decide
    omega
  have hgap : (begin - min y begin + step.lessEpsilon).parts.val =
      begin.parts.val - Min.min y.parts.val begin.parts.val + (step.parts.val - 1) := by
    rw [Fraction.val_add hfit, Fraction.val_sub hmin, Fraction.val_min, Fraction.val_lessEpsilon]
    omega
  have hacc : perbill.accuracy < 2 ^ perbill.bits := perbill.accuracy_lt
  rw [delay, if_neg hy, intDiv_eq_some _ hs, Option.map_some, Option.map_some, Fraction.val_intMul, Fin.div_val, hgap]

/-- `(g + s - 1) / s` steps of `s` cover `g`, and overshoot it by less than one step. -/
theorem steps_cover (g : Nat) {s : Nat} (hs : 0 < s) :
    g ≤ s * ((g + (s - 1)) / s) ∧ s * ((g + (s - 1)) / s) ≤ g + (s - 1) := by
  have hlt := Nat.lt_div_mul_add (a := g + (s - 1)) hs
  have hle := Nat.div_mul_le_self (g + (s - 1)) s
  rw [Nat.mul_comm]
  omega

/-- While `begin - y + step.less_epsilon()` does not saturate, the stepped `delay` is `one` or a passing `x`, and no
smaller `x` passes. -/
theorem delay_stepped_least (hs : 0 < step.parts.val) (hp : 0 < period.parts.val) (y : Perbill)
    (hsum : begin.parts.val - Min.min y.parts.val begin.parts.val + (step.parts.val - 1) ≤ perbill.accuracy) :
    ∃ d, (steppedDecreasing begin «end» step period).delay y = some d ∧
      (d = Fraction.one ∨ (steppedDecreasing begin «end» step period).passing d y = some true) ∧
      ∀ x, x < d → (steppedDecreasing begin «end» step period).passing x y = some false := by
  have hthr := fun x => @threshold_stepped begin «end» step period hp x
  have hb := begin.le_accuracy
  by_cases hy : y < «end»
  · -- below `end` nothing passes, and `delay` says `one`
    refine ⟨Fraction.one, by rw [delay, if_pos hy], Or.inl rfl, fun x _ => ?_⟩
    obtain ⟨t, ht, htv⟩ := Option.map_eq_some_iff.1 (hthr x)
    rw [passing_of_threshold ht, htv]
    rw [Fraction.lt_def] at hy
    simp only [Option.some.injEq, decide_eq_false_iff_not]
    omega
  · obtain ⟨d, hd, hdv⟩ := Option.map_eq_some_iff.1 (@delay_stepped begin «end» step period hs y hy hsum)
    obtain ⟨hcover, hexact⟩ := steps_cover (begin.parts.val - Min.min y.parts.val begin.parts.val) hs
    generalize hk : (begin.parts.val - Min.min y.parts.val begin.parts.val + (step.parts.val - 1)) /
      step.parts.val = k at hdv hcover hexact
    rw [Fraction.lt_def] at hy
    refine ⟨d, hd, ?_, fun x hx => ?_⟩
    · -- `delay` is `one`, or `period * k`, whose `k` steps reach `y`
      by_cases hbig : perbill.accuracy ≤ period.parts.val * k
      · left
        apply Fraction.ext_parts
        rw [hdv, Fraction.val_one]
        omega
      · right
        obtain ⟨t, ht, htv⟩ := Option.map_eq_some_iff.1 (hthr d)
        rw [passing_of_threshold ht, htv, hdv, Nat.min_eq_left (Nat.le_of_lt (Nat.lt_of_not_le hbig)),
          Nat.mul_div_cancel_left _ hp]
        simp only [Option.some.injEq, decide_eq_true_eq]
        omega
    · -- a smaller `x` has fewer than `k` whole periods, whose steps stay above `y`
      rw [Fraction.lt_def, hdv] at hx
      have hj : x.parts.val / period.parts.val < k := by
        rw [Nat.div_lt_iff_lt_mul hp, Nat.mul_comm]
        omega
      have hstep : step.parts.val * (x.parts.val / period.parts.val) + step.parts.val ≤ step.parts.val * k := by
        rw [← Nat.mul_succ]
        exact Nat.mul_le_mul_left _ hj
      obtain ⟨t, ht, htv⟩ := Option.map_eq_some_iff.1 (hthr x)
      rw [passing_of_threshold ht, htv]
      simp only [Option.some.injEq, decide_eq_false_iff_not]
      omega

end Stepped

/-! ## `Reciprocal` -/

section Reciprocal

variable {factor xOffset yOffset : FixedI64}

/-- `into_clamped_perthing` into `Perbill`: the inner value clamped to `[0, 10^9]`. -/
theorem val_intoClamped (v : FixedI64) :
    (v.intoClampedPerthing perbill perbill_bits_le).parts.val =
      if v.val < 0 then 0 else if (1000000000 : Int) < v.val then 1000000000 else v.val.toNat :=
  Fixed.val_intoClampedPerthing perbill perbill_bits_le rfl v

/-- The reciprocal threshold, while `x + x_offset` and the curve's value at `0` are within `i64`: the quotient
`factor / (x + x_offset)` rounded down (`one` where it overflows), plus `y_offset`, clamped to `[0, 1]`. -/
theorem threshold_reciprocal (hK : 0 < factor.val) (hS : 0 < xOffset.val)
    (hSmax : xOffset.val + perbill.accuracy ≤ fixedI64.innerType.maxValue)
    (hT : ((factor.val.natAbs * fixedI64.div / xOffset.val.natAbs : Nat) : Int) + yOffset.val ≤
      fixedI64.innerType.maxValue) (x : Perbill) :
    ((reciprocal factor xOffset yOffset).threshold x).map (·.parts.val) =
      some (if fixedI64.innerType.maxValue < (factor.val.natAbs * fixedI64.div /
          (x.parts.val + xOffset.val.natAbs) : Nat) then perbill.accuracy
        else if ((factor.val.natAbs * fixedI64.div / (x.parts.val + xOffset.val.natAbs) : Nat) : Int) + yOffset.val < 0
        then 0
        else if (1000000000 : Int) <
          ((factor.val.natAbs * fixedI64.div / (x.parts.val + xOffset.val.natAbs) : Nat) : Int) + yOffset.val
        then perbill.accuracy
        else (((factor.val.natAbs * fixedI64.div / (x.parts.val + xOffset.val.natAbs) : Nat) : Int) +
          yOffset.val).toNat) := by
  have hX := x.le_accuracy
  have hmin := fixedI64.innerType.minValue_le_zero
  have hdenPos : 0 < (x.parts.val : Int) + xOffset.val := Int.add_pos_of_nonneg_of_pos (Int.natCast_nonneg _) hS
  -- the divisor `x + x_offset` does not wrap
  have hden : (Fixed.fromPerThing fixedI64 perbill perbill_bits_le x + xOffset).val = x.parts.val + xOffset.val := by
    rw [IntVal.val_add, val_fromPerbill]
    have hacc : perbill.accuracy = 1000000000 := rfl
    exact IntType.wrap_of_fits _ ⟨by omega, by omega⟩
  have hnat : (x.parts.val + xOffset.val).natAbs = x.parts.val + xOffset.val.natAbs := by
    rw [Int.natAbs_add_of_nonneg (Int.natCast_nonneg _) hS.le, Int.natAbs_natCast]
  generalize hq : factor.val.natAbs * fixedI64.div / (x.parts.val + xOffset.val.natAbs) = q
  -- beyond `x = 0` the quotient is at most the one at `0`
  have hq0 : q ≤ factor.val.natAbs * fixedI64.div / xOffset.val.natAbs := by
    rw [← hq]
    exact Nat.div_le_div_left (Nat.le_add_left _ _) (Int.natAbs_pos.2 (ne_of_gt hS))
  have hspec := Fixed.checkedRoundingDiv_eq factor _ .low (by rw [hden]; exact ne_of_gt hdenPos)
  rw [hden, decide_eq_false (not_lt.2 hK.le), decide_eq_false (not_lt.2 hdenPos.le), hnat] at hspec
  simp only [Bool.bne_false, Rounding.fromSigned, roundDiv_down, hq, signed, Bool.false_eq_true, if_false] at hspec
  rw [threshold]
  split
  · rename_i yp hyp
    rw [hyp, Option.map_some] at hspec
    split at hspec
    · rename_i hfit
      have hyv : yp.val = q := Option.some.inj hspec
      -- `yp + y_offset` does not wrap either: it is at most the curve's value at `0`
      have hsum : (yp + yOffset).val = q + yOffset.val := by
        rw [IntVal.val_add, hyv]
        exact IntType.wrap_of_fits _ ⟨le_trans yOffset.fits.1 (Int.le_add_of_nonneg_left (Int.natCast_nonneg q)),
          le_trans (Int.add_le_add_right (Int.ofNat_le.2 hq0) _) hT⟩
      rw [Option.map_some, val_intoClamped, hsum, if_neg (not_lt.2 hfit.2)]
      rfl
    · cases hspec
  · rename_i hnone
    rw [hnone, Option.map_none] at hspec
    split at hspec
    · cases hspec
    · rename_i hnot
      rw [Option.map_some, Fraction.val_one, if_pos]
      by_contra hle
      exact hnot ⟨le_trans hmin (Int.natCast_nonneg q), not_lt.1 hle⟩

theorem threshold_reciprocal_antitone (hK : 0 < factor.val) (hS : 0 < xOffset.val)
    (hSmax : xOffset.val + perbill.accuracy ≤ fixedI64.innerType.maxValue)
    (hT : ((factor.val.natAbs * fixedI64.div / xOffset.val.natAbs : Nat) : Int) + yOffset.val ≤
      fixedI64.innerType.maxValue) :
    (reciprocal factor xOffset yOffset).ThresholdAntitone := by
  intro x x' t t' hx ht ht'
  have h := threshold_reciprocal hK hS hSmax hT x
  have h' := threshold_reciprocal hK hS hSmax hT x'
  rw [ht, Option.map_some, Option.some.injEq] at h
  rw [ht', Option.map_some, Option.some.injEq] at h'
  have hq : factor.val.natAbs * fixedI64.div / (x'.parts.val + xOffset.val.natAbs) ≤
      factor.val.natAbs * fixedI64.div / (x.parts.val + xOffset.val.natAbs) :=
    Nat.div_le_div_left (Nat.add_le_add_right hx _) (by omega)
  have hacc : perbill.accuracy = 1000000000 := rfl
  rw [Fraction.le_def, h, h']
  split_ifs <;> omega

end Reciprocal

/-- `delay` breaks its promise for each kind of well formed curve. Linear: `delay` rounds the wrong way, at `y` =
337261970 parts giving 72049015 parts, short of `one`, where `y` does not pass. Stepped: a saturating `begin - y +
step.less_epsilon()` asks one step fewer than `y` needs. Reciprocal: `one` for a `y` it passes at `0`; and with
`x_offset = i64::MAX`, `y_offset = i64::MIN` the wrapping sums make the threshold jump from `0` to `1`. -/
theorem curve_delay_misses :
    (linearDecreasing (Fraction.fromParts ⟨144272510, by decide⟩) (Fraction.fromParts ⟨273878287, by decide⟩)
        (Fraction.fromParts ⟨400492529, by decide⟩)).delay (Fraction.fromParts ⟨337261970, by decide⟩) =
      some (Fraction.fromParts ⟨72049015, by decide⟩) ∧
    (linearDecreasing (Fraction.fromParts ⟨144272510, by decide⟩) (Fraction.fromParts ⟨273878287, by decide⟩)
        (Fraction.fromParts ⟨400492529, by decide⟩)).passing (Fraction.fromParts ⟨72049015, by decide⟩)
        (Fraction.fromParts ⟨337261970, by decide⟩) = some false ∧
    (steppedDecreasing (Fraction.fromParts ⟨950359753, by decide⟩) (Fraction.fromParts ⟨103631288, by decide⟩)
        (Fraction.fromParts ⟨509933924, by decide⟩) (Fraction.fromParts ⟨325, by decide⟩)).delay
        (Fraction.fromParts ⟨103631288, by decide⟩) = some (Fraction.fromParts ⟨325, by decide⟩) ∧
    (steppedDecreasing (Fraction.fromParts ⟨950359753, by decide⟩) (Fraction.fromParts ⟨103631288, by decide⟩)
        (Fraction.fromParts ⟨509933924, by decide⟩) (Fraction.fromParts ⟨325, by decide⟩)).passing
        (Fraction.fromParts ⟨325, by decide⟩) (Fraction.fromParts ⟨103631288, by decide⟩) = some false ∧
    (reciprocal ⟨500000000, by decide⟩ ⟨1000000000, by decide⟩ ⟨0, by decide⟩).delay
        (Fraction.fromParts ⟨600000000, by decide⟩) = some Fraction.one ∧
    (reciprocal ⟨500000000, by decide⟩ ⟨1000000000, by decide⟩ ⟨0, by decide⟩).passing Fraction.zero
        (Fraction.fromParts ⟨600000000, by decide⟩) = some true ∧
    (reciprocal ⟨1, by decide⟩ ⟨9223372036854775807, by decide⟩ ⟨-9223372036854775808, by decide⟩).threshold
        Fraction.zero = some Fraction.zero ∧
    (reciprocal ⟨1, by decide⟩ ⟨9223372036854775807, by decide⟩ ⟨-9223372036854775808, by decide⟩).threshold
        (Fraction.fromParts ⟨1, by decide⟩) = some Fraction.one := by
  refine ⟨by decide, by decide, by decide, by decide, ?_, ?_, ?_, ?_⟩
  · -- `factor / (y - y_offset)` rounded up is below `x_offset`, so `try_into_perthing` fails with `zero`
    have hy : (Fixed.fromPerThing fixedI64 perbill perbill_bits_le (Fraction.fromParts ⟨600000000, by decide⟩) -
        (⟨0, by decide⟩ : FixedI64)).val = 600000000 := by
      rw [IntVal.val_sub, val_fromPerbill]
      decide
    obtain ⟨term, hterm, htv⟩ := Fixed.checkedRoundingDiv_eq_some (⟨500000000, by decide⟩ : FixedI64) _ .high
      (by rw [hy]; decide) (by rw [hy]; decide)
    rw [hy] at htv
    rw [delay]
    rw [hterm]
    dsimp only
    rw [Fixed.tryIntoPerthing, if_pos (by rw [IntVal.val_sub, htv]; decide)]
  · -- the curve is at `1/2` at `0`
    obtain ⟨t, ht, htv⟩ := Option.map_eq_some_iff.1
      (@threshold_reciprocal ⟨500000000, by decide⟩ ⟨1000000000, by decide⟩ ⟨0, by decide⟩ (by decide) (by decide)
        (by decide) (by decide) Fraction.zero)
    rw [passing_of_threshold ht, htv]
    decide
  · -- `0 + i64::MAX` stays positive, and the quotient `0` plus `i64::MIN` is clamped to `0`
    have hden : (Fixed.fromPerThing fixedI64 perbill perbill_bits_le Fraction.zero +
        (⟨9223372036854775807, by decide⟩ : FixedI64)).val = 9223372036854775807 := by
      rw [IntVal.val_add, val_fromPerbill]
      decide
    obtain ⟨yp, hyp, hypv⟩ := Fixed.checkedRoundingDiv_eq_some (⟨1, by decide⟩ : FixedI64) _ .low
      (by rw [hden]; decide) (by rw [hden]; decide)
    rw [hden] at hypv
    rw [threshold, hyp]
    congr 1
    apply Fraction.ext_parts
    rw [val_intoClamped, IntVal.val_add, hypv]
    decide
  · -- `1 + i64::MAX` wraps to `i64::MIN`: the quotient is `-1`, and `-1 + i64::MIN` wraps to `i64::MAX`
    have hden : (Fixed.fromPerThing fixedI64 perbill perbill_bits_le (Fraction.fromParts ⟨1, by decide⟩) +
        (⟨9223372036854775807, by decide⟩ : FixedI64)).val = -9223372036854775808 := by
      rw [IntVal.val_add, val_fromPerbill]
      decide
    obtain ⟨yp, hyp, hypv⟩ := Fixed.checkedRoundingDiv_eq_some (⟨1, by decide⟩ : FixedI64) _ .low
      (by rw [hden]; decide) (by rw [hden]; decide)
    rw [hden] at hypv
    rw [threshold, hyp]
    congr 1
    apply Fraction.ext_parts
    rw [val_intoClamped, IntVal.val_add, hypv]
    decide

end Curve

end CoreChain.Referenda

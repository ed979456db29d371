import CoreChain.Arith.PerThing

/-!
# Piecewise linear curves

`PiecewiseLinear` of `sp_runtime` (`curve.rs`): a curve through points `(x, y)` of `Perbill`s, with
`calculate_for_fraction_times_denominator(n, d)` the value `f(n / d) * d` for an unsigned `N` of `w ≥ 32` bits. It
finds the first point whose abscissa times `d` is above `n` (`position`); before the first point the value is the
first ordinate times `d`, past the last one the last ordinate times `d`, and between two points it goes from the
ordinate of the one before, times `d`, by `multiply_by_rational_saturating` of the distance from that point, the
rise and the run, in parts.

`multiply_by_rational_saturating(v, p, q)` is `min(N::MAX, ⌊v * p / max(q, 1)⌋)` and never overflows
(`multiplyByRationalSaturating_eq`). For points with increasing abscissas the curve never panics, takes the end
ordinates past its ends, stays between the ordinates of the points around `n`, and is monotone where they are
(`piecewise_linear_bounds`).
-/

namespace CoreChain.Arith

open CoreChain.Word (widen saturatedInto saturatingAdd saturatingSub saturatingMul checkedMul)

/-- `PiecewiseLinear`; `maximum` is not read by `calculate_for_fraction_times_denominator`. -/
structure PiecewiseLinear where
  points : List (Fraction perbill × Fraction perbill)
  maximum : Fraction perbill

section Model

variable {w : Nat} (hw : 32 ≤ w)

/-- `abs_sub`. -/
def absSub {n : Nat} (a b : Fin n) : Fin n :=
  max a b - min a b

/-- `multiply_by_rational_saturating`: `u32` and `u64` are `Fin (2 ^ 32)` and `Fin (2 ^ 64)`, `into` and `as` widen,
and the `u64` product is checked. -/
def multiplyByRationalSaturating (value : Fin (2 ^ w)) (p q : Fin (2 ^ 32)) : Option (Fin (2 ^ w)) := do
  let q := max q 1
  let resultDivisorPart := saturatingMul (value / widen hw q) (widen hw p)
  let rem := value % widen hw q
  let remU32 : Fin (2 ^ 32) := saturatedInto rem
  let remPart ← checkedMul (widen (by decide) remU32 : Fin (2 ^ 64)) (widen (by decide) p)
  let remPart : Fin (2 ^ w) := saturatedInto (remPart / widen (by decide) q)
  pure (saturatingAdd resultDivisorPart remPart)

/-- `points.iter().position(|p| n < p.0 * d)`, with the products of `Perbill` by `d`. -/
def positionBelow (n d : Fin (2 ^ w)) : List (Fraction perbill × Fraction perbill) → Option (Option Nat)
  | [] => some none
  | p :: ps => do
    let x ← p.1.mul hw d
    if n < x then pure (some 0) else (positionBelow n d ps).map (Option.map (· + 1))

/-- The end of `calculate_for_fraction_times_denominator`, from `prev` and `next`: `delta_y` and its sign. -/
def interpolateBetween (n d : Fin (2 ^ w)) (prev next : Fraction perbill × Fraction perbill) :
    Option (Fin (2 ^ w)) := do
  let prevX ← prev.1.mul hw d
  let deltaY ← multiplyByRationalSaturating hw (absSub n prevX) (absSub next.2.deconstruct prev.2.deconstruct)
    (saturatingSub next.1.deconstruct prev.1.deconstruct)
  let prevY ← prev.2.mul hw d
  -- the same sign of the two differences: the curve rises from `prev`
  if decide (prevX < n) = decide (prev.2.deconstruct < next.2.deconstruct) then
    pure (saturatingAdd prevY deltaY)
  else pure (saturatingSub prevY deltaY)

/-- `PiecewiseLinear::calculate_for_fraction_times_denominator`. -/
def PiecewiseLinear.calculateForFractionTimesDenominator (self : PiecewiseLinear) (n d : Fin (2 ^ w)) :
    Option (Fin (2 ^ w)) := do
  let n := min n d
  if self.points.isEmpty then pure 0
  else
    match ← positionBelow hw n d self.points with
    -- no point above `n`: the last ordinate
    | none => ((self.points.getLast?.map (·.2)).getD Fraction.zero).mul hw d
    -- no point before the first above `n`: the first ordinate
    | some 0 => ((self.points.head?.map (·.2)).getD Fraction.zero).mul hw d
    | some (i + 1) => do
      let prev ← self.points[i]?
      let next ← self.points[i + 1]?
      interpolateBetween hw n d prev next

end Model

/-! ## The curve in `Nat` -/

/-- `p * d`: the product of `Perbill` by `d`, rounded to the nearest, ties down (`per_thing_mul_exact`). -/
def scaledAt (d : Nat) (p : Fraction perbill) : Nat :=
  roundDiv .nearestPrefDown (d * p.parts.val) perbill.accuracy

theorem scaledAt_mono (d : Nat) {p q : Fraction perbill} (h : p.parts.val ≤ q.parts.val) :
    scaledAt d p ≤ scaledAt d q :=
  roundDiv_mono _ (Nat.mul_le_mul_left d h)

theorem scaledAt_le (d : Nat) (p : Fraction perbill) : scaledAt d p ≤ d :=
  roundDiv_le_of_le _ perbill.accuracy_pos (Nat.mul_le_mul_left d p.le_accuracy)

theorem scaledAt_zero (d : Nat) : scaledAt d Fraction.zero = 0 := by
  simp [scaledAt, roundDiv, Rounding.RoundsUp]

/-! ## Between two points -/

/-- The value between `prev` and `next`: the ordinate of `prev` times `d`, moved towards that of `next` by the
distance from `prev` times the slope, in parts. -/
def segmentAt (d n : Nat) (prev next : Fraction perbill × Fraction perbill) : Nat :=
  let x := n - scaledAt d prev.1
  let run := next.1.parts.val - prev.1.parts.val
  if prev.2.parts.val ≤ next.2.parts.val then scaledAt d prev.2 + x * (next.2.parts.val - prev.2.parts.val) / run
  else scaledAt d prev.2 - x * (prev.2.parts.val - next.2.parts.val) / run

/-- Rounding to the nearest loses less than half a step at each end: a distance below the rounded run, times the rise
over the run in parts, is at most the rounded rise. -/
theorem div_le_scaledAt_sub (d x : Nat) {a₀ a₁ b₀ b₁ : Fraction perbill} (hb : b₀.parts.val ≤ b₁.parts.val)
    (hx : x + scaledAt d a₀ < scaledAt d a₁) :
    x * (b₁.parts.val - b₀.parts.val) / (a₁.parts.val - a₀.parts.val) ≤ scaledAt d b₁ - scaledAt d b₀ := by
  have hR := scaledAt_mono d hb
  unfold scaledAt at hx hR ⊢
  have hD := perbill.accuracy_pos
  set D := perbill.accuracy
  set q := x * (b₁.parts.val - b₀.parts.val) / (a₁.parts.val - a₀.parts.val)
  have hA₀ := roundDiv_nearestPrefDown_bounds hD (d * a₀.parts.val)
  have hA₁ := roundDiv_nearestPrefDown_bounds hD (d * a₁.parts.val)
  have hB₀ := roundDiv_nearestPrefDown_bounds hD (d * b₀.parts.val)
  have hB₁ := roundDiv_nearestPrefDown_bounds hD (d * b₁.parts.val)
  -- the distance, times `D`, is below `d` times the run
  have hxD : x * D < d * (a₁.parts.val - a₀.parts.val) := by
    have := Nat.mul_le_mul_right D (Nat.succ_le_of_lt hx)
    rw [Nat.succ_eq_add_one, Nat.add_mul, Nat.add_mul, Nat.one_mul] at this
    rw [Nat.mul_sub]
    omega
  -- the rounded rise plus one step, times `D`, is above `d` times the rise
  have hrise : d * (b₁.parts.val - b₀.parts.val) < (roundDiv .nearestPrefDown (d * b₁.parts.val) D -
      roundDiv .nearestPrefDown (d * b₀.parts.val) D + 1) * D := by
    rw [Nat.add_mul, Nat.one_mul, Nat.sub_mul, Nat.mul_sub]
    have := Nat.mul_le_mul_right D hR
    omega
  rcases Nat.eq_zero_or_pos (b₁.parts.val - b₀.parts.val) with h0 | hpos
  · simp [q, h0]
  · have hqD : q * D < d * (b₁.parts.val - b₀.parts.val) := by
      refine Nat.lt_of_mul_lt_mul_right (a := a₁.parts.val - a₀.parts.val) ?_
      calc q * D * (a₁.parts.val - a₀.parts.val)
          = q * (a₁.parts.val - a₀.parts.val) * D := Nat.mul_right_comm _ _ _
        _ ≤ x * (b₁.parts.val - b₀.parts.val) * D := Nat.mul_le_mul_right D (Nat.div_mul_le_self _ _)
        _ = x * D * (b₁.parts.val - b₀.parts.val) := Nat.mul_right_comm _ _ _
        _ < d * (a₁.parts.val - a₀.parts.val) * (b₁.parts.val - b₀.parts.val) := Nat.mul_lt_mul_of_pos_right hxD hpos
        _ = d * (b₁.parts.val - b₀.parts.val) * (a₁.parts.val - a₀.parts.val) := by ring
    exact Nat.le_of_lt_succ (Nat.lt_of_mul_lt_mul_right (Nat.lt_trans hqD hrise))

/-- `a` comes before `b` along a rising (`up`) or a falling curve. -/
def Ordered (up : Bool) (a b : Nat) : Prop :=
  bif up then a ≤ b else b ≤ a

theorem Ordered.refl (up : Bool) (a : Nat) : Ordered up a a := by
  cases up <;> exact Nat.le_refl a

theorem Ordered.trans {up : Bool} {a b c : Nat} (h₁ : Ordered up a b) (h₂ : Ordered up b c) : Ordered up a c := by
  cases up
  · exact Nat.le_trans h₂ h₁
  · exact Nat.le_trans h₁ h₂

theorem Ordered.scaledAt {up : Bool} (d : Nat) {p q : Fraction perbill} (h : Ordered up p.parts.val q.parts.val) :
    Ordered up (CoreChain.Arith.scaledAt d p) (CoreChain.Arith.scaledAt d q) := by
  cases up
  · exact scaledAt_mono d h
  · exact scaledAt_mono d h

/-- Between two points around `n`, the value lies between their ordinates times `d`. -/
theorem segmentAt_ordered (up : Bool) {d n : Nat} {prev next : Fraction perbill × Fraction perbill}
    (hlo : scaledAt d prev.1 ≤ n) (hhi : n < scaledAt d next.1) (hb : Ordered up prev.2.parts.val next.2.parts.val) :
    Ordered up (scaledAt d prev.2) (segmentAt d n prev next) ∧
      Ordered up (segmentAt d n prev next) (scaledAt d next.2) := by
  have hx : n - scaledAt d prev.1 + scaledAt d prev.1 < scaledAt d next.1 := by omega
  unfold segmentAt
  cases up <;> simp only [Ordered, cond_false, cond_true] at hb ⊢
  · have hq := div_le_scaledAt_sub d _ hb hx
    have hR := scaledAt_mono d hb
    by_cases hle : prev.2.parts.val ≤ next.2.parts.val
    · -- a flat segment
      have hz : next.2.parts.val - prev.2.parts.val = 0 := by omega
      have he : prev.2.parts.val = next.2.parts.val := by omega
      simp only [if_pos hle, hz, Nat.mul_zero, Nat.zero_div, Nat.add_zero]
      rw [show scaledAt d next.2 = scaledAt d prev.2 by unfold scaledAt; rw [he]]
      exact ⟨Nat.le_refl _, Nat.le_refl _⟩
    · simp only [if_neg hle]
      exact ⟨Nat.sub_le _ _, by omega⟩
  · have hq := div_le_scaledAt_sub d _ hb hx
    have hR := scaledAt_mono d hb
    simp only [if_pos hb]
    exact ⟨Nat.le_add_right _ _, by omega⟩

/-- Along one segment the value moves the way its ordinates do. -/
theorem segmentAt_ordered_mono (up : Bool) {d n n' : Nat} {prev next : Fraction perbill × Fraction perbill}
    (hb : Ordered up prev.2.parts.val next.2.parts.val) (h : n ≤ n') :
    Ordered up (segmentAt d n prev next) (segmentAt d n' prev next) := by
  have hx : n - scaledAt d prev.1 ≤ n' - scaledAt d prev.1 := Nat.sub_le_sub_right h _
  unfold segmentAt
  cases up <;> simp only [Ordered, cond_false, cond_true] at hb ⊢
  · by_cases hle : prev.2.parts.val ≤ next.2.parts.val
    · have hz : next.2.parts.val - prev.2.parts.val = 0 := by omega
      simp only [if_pos hle, hz, Nat.mul_zero, Nat.zero_div, Nat.add_zero]
      exact Nat.le_refl _
    · simp only [if_neg hle]
      exact Nat.sub_le_sub_left (Nat.div_le_div_right (Nat.mul_le_mul_right _ hx)) _
  · simp only [if_pos hb]
    exact Nat.add_le_add_left (Nat.div_le_div_right (Nat.mul_le_mul_right _ hx)) _

/-- What `calculate_for_fraction_times_denominator` computes, in `Nat`: the end ordinates outside the points, and
`segmentAt` between the two around `n`. -/
def curveAt (ps : List (Fraction perbill × Fraction perbill)) (d n : Nat) : Nat :=
  match ps.findIdx? fun p => decide (n < scaledAt d p.1) with
  | none => (ps.getLast?.map fun p => scaledAt d p.2).getD 0
  | some 0 => (ps.head?.map fun p => scaledAt d p.2).getD 0
  | some (i + 1) => (ps[i]?.bind fun prev => ps[i + 1]?.map fun next => segmentAt d n prev next).getD 0

section Position

variable {ps : List (Fraction perbill × Fraction perbill)} {d n : Nat}

theorem curveAt_of_none (hf : (ps.findIdx? fun p => decide (n < scaledAt d p.1)) = none) :
    curveAt ps d n = (ps.getLast?.map fun p => scaledAt d p.2).getD 0 := by
  unfold curveAt
  rw [hf]

theorem curveAt_of_zero (hf : (ps.findIdx? fun p => decide (n < scaledAt d p.1)) = some 0) (h : 0 < ps.length) :
    curveAt ps d n = scaledAt d ps[0].2 := by
  unfold curveAt
  rw [hf, List.head?_eq_getElem?, List.getElem?_eq_getElem h]
  rfl

theorem curveAt_of_succ {i : Nat} (hf : (ps.findIdx? fun p => decide (n < scaledAt d p.1)) = some (i + 1))
    (h : i + 1 < ps.length) : curveAt ps d n = segmentAt d n ps[i] ps[i + 1] := by
  unfold curveAt
  rw [hf]
  dsimp only
  rw [List.getElem?_eq_getElem (Nat.lt_of_succ_lt h), List.getElem?_eq_getElem h]
  rfl

/-- The first point above `n` is not the first one: `n` lies between it and the one before. -/
theorem segment_of_findIdx_eq {i : Nat} (hf : (ps.findIdx? fun p => decide (n < scaledAt d p.1)) = some (i + 1)) :
    ∃ h : i + 1 < ps.length, scaledAt d ps[i].1 ≤ n ∧ n < scaledAt d ps[i + 1].1 := by
  obtain ⟨h, hnext, hbefore⟩ := List.findIdx?_eq_some_iff_getElem.1 hf
  refine ⟨h, Nat.le_of_not_lt fun hn => hbefore i (Nat.lt_succ_self i) (decide_eq_true hn), of_decide_eq_true hnext⟩

section Ordinates

variable (up : Bool) (hup : ps.Pairwise fun p q => Ordered up p.2.parts.val q.2.parts.val)
include hup

theorem scaledAt_ordinate_ordered {i j : Nat} (hij : i ≤ j) (hi : i < ps.length) (hj : j < ps.length) :
    Ordered up (scaledAt d ps[i].2) (scaledAt d ps[j].2) := by
  rcases Nat.lt_or_eq_of_le hij with h | rfl
  · exact Ordered.scaledAt d (List.pairwise_iff_getElem.1 hup i j hi hj h)
  · exact Ordered.refl up _

/-- Below a point's abscissa the curve has not passed its ordinate. -/
theorem ordered_of_lt_curveAt {j : Nat} (hj : j < ps.length) (hn : n < scaledAt d ps[j].1) :
    Ordered up (curveAt ps d n) (scaledAt d ps[j].2) := by
  cases hf : ps.findIdx? fun p => decide (n < scaledAt d p.1) with
  | none =>
    have := List.findIdx?_eq_none_iff.1 hf ps[j] (List.getElem_mem hj)
    exact absurd hn (of_decide_eq_false this)
  | some k =>
    obtain ⟨hk, -, hbefore⟩ := List.findIdx?_eq_some_iff_getElem.1 hf
    have hkj : k ≤ j := Nat.le_of_not_lt fun h => hbefore j h (decide_eq_true hn)
    cases k with
    | zero =>
      rw [curveAt_of_zero hf hk]
      exact scaledAt_ordinate_ordered up hup (Nat.zero_le j) hk hj
    | succ i =>
      obtain ⟨h, hlo, hhi⟩ := segment_of_findIdx_eq hf
      rw [curveAt_of_succ hf h]
      have hstep := List.pairwise_iff_getElem.1 hup i (i + 1) (Nat.lt_of_succ_lt h) h (Nat.lt_succ_self i)
      exact (segmentAt_ordered up hlo hhi hstep).2.trans (scaledAt_ordinate_ordered up hup hkj h hj)

end Ordinates

variable (hsorted : ps.Pairwise fun p q => p.1.parts.val < q.1.parts.val)
include hsorted

theorem scaledAt_abscissa_le (d : Nat) {i j : Nat} (hij : i ≤ j) (hi : i < ps.length) (hj : j < ps.length) :
    scaledAt d ps[i].1 ≤ scaledAt d ps[j].1 := by
  rcases Nat.lt_or_eq_of_le hij with h | rfl
  · exact scaledAt_mono d (List.pairwise_iff_getElem.1 hsorted i j hi hj h).le
  · exact Nat.le_refl _

/-- A point at or below `n` comes before the first one above it. -/
theorem lt_of_findIdx_eq {k j : Nat} (hf : (ps.findIdx? fun p => decide (n < scaledAt d p.1)) = some k)
    (hj : j < ps.length) (hn : scaledAt d ps[j].1 ≤ n) : j < k := by
  obtain ⟨hk, hnk, -⟩ := List.findIdx?_eq_some_iff_getElem.1 hf
  refine Nat.lt_of_not_le fun hkj => ?_
  have := scaledAt_abscissa_le hsorted d hkj hk hj
  have := of_decide_eq_true hnk
  omega

theorem curveAt_of_last_le : ∀ p ∈ ps.getLast?, scaledAt d p.1 ≤ n → curveAt ps d n = scaledAt d p.2 := by
  intro p hp hn
  rw [Option.mem_def, List.getLast?_eq_getElem?, List.getElem?_eq_some_iff] at hp
  obtain ⟨hlast, rfl⟩ := hp
  have hf : (ps.findIdx? fun p => decide (n < scaledAt d p.1)) = none := by
    refine List.findIdx?_eq_none_iff.2 fun x hx => ?_
    obtain ⟨j, hj, rfl⟩ := List.mem_iff_getElem.1 hx
    have := scaledAt_abscissa_le hsorted d (Nat.le_sub_one_of_lt hj) hj hlast
    exact decide_eq_false (by omega)
  rw [curveAt_of_none hf, List.getLast?_eq_getElem?, List.getElem?_eq_getElem hlast]
  rfl

/-- Between two consecutive points around `n`, the curve lies between their ordinates. -/
theorem curveAt_between (i : Nat) (h : i + 1 < ps.length) (hlo : scaledAt d ps[i].1 ≤ n)
    (hhi : n < scaledAt d ps[i + 1].1) :
    min (scaledAt d ps[i].2) (scaledAt d ps[i + 1].2) ≤ curveAt ps d n ∧
      curveAt ps d n ≤ max (scaledAt d ps[i].2) (scaledAt d ps[i + 1].2) := by
  have hf : (ps.findIdx? fun p => decide (n < scaledAt d p.1)) = some (i + 1) := by
    refine List.findIdx?_eq_some_iff_getElem.2 ⟨h, decide_eq_true hhi, fun j hj => ?_⟩
    have := scaledAt_abscissa_le hsorted d (Nat.le_of_lt_succ hj) (by omega) (Nat.lt_of_succ_lt h)
    exact fun hn => absurd (of_decide_eq_true hn) (by omega)
  rw [curveAt_of_succ hf h]
  by_cases hb : ps[i].2.parts.val ≤ ps[i + 1].2.parts.val
  · have := segmentAt_ordered true hlo hhi hb
    simp only [Ordered, cond_true] at this
    omega
  · have := segmentAt_ordered false hlo hhi (Nat.le_of_not_le hb)
    simp only [Ordered, cond_false] at this
    omega

section Ordinates

variable (up : Bool) (hup : ps.Pairwise fun p q => Ordered up p.2.parts.val q.2.parts.val)
include hup

/-- Past a point's abscissa the curve has passed its ordinate. -/
theorem ordered_curveAt_of_le {j : Nat} (hj : j < ps.length) (hn : scaledAt d ps[j].1 ≤ n) :
    Ordered up (scaledAt d ps[j].2) (curveAt ps d n) := by
  cases hf : ps.findIdx? fun p => decide (n < scaledAt d p.1) with
  | none =>
    have hlast : ps.length - 1 < ps.length := by omega
    rw [curveAt_of_none hf, List.getLast?_eq_getElem?, List.getElem?_eq_getElem hlast]
    exact scaledAt_ordinate_ordered up hup (Nat.le_sub_one_of_lt hj) hj hlast
  | some k =>
    have hjk := lt_of_findIdx_eq hsorted hf hj hn
    cases k with
    | zero => exact absurd hjk (Nat.not_lt_zero j)
    | succ i =>
      obtain ⟨h, hlo, hhi⟩ := segment_of_findIdx_eq hf
      rw [curveAt_of_succ hf h]
      have hstep := List.pairwise_iff_getElem.1 hup i (i + 1) (Nat.lt_of_succ_lt h) h (Nat.lt_succ_self i)
      exact (scaledAt_ordinate_ordered up hup (Nat.le_of_lt_succ hjk) hj (Nat.lt_of_succ_lt h)).trans
        (segmentAt_ordered up hlo hhi hstep).1

/-- With ordinates in one direction, the curve goes that way in `n`: within a segment by `segmentAt_ordered_mono`,
and across a point through its ordinate. -/
theorem curveAt_ordered {n' : Nat} (h : n ≤ n') : Ordered up (curveAt ps d n) (curveAt ps d n') := by
  cases hf : ps.findIdx? fun p => decide (n < scaledAt d p.1) with
  | none =>
    -- past the last point, and so is `n'`
    have hf' : (ps.findIdx? fun p => decide (n' < scaledAt d p.1)) = none := by
      refine List.findIdx?_eq_none_iff.2 fun x hx => decide_eq_false fun hlt => ?_
      have := of_decide_eq_false (List.findIdx?_eq_none_iff.1 hf x hx)
      omega
    rw [curveAt_of_none hf, curveAt_of_none hf']
    exact Ordered.refl up _
  | some k =>
    obtain ⟨hk, hnk, hbefore⟩ := List.findIdx?_eq_some_iff_getElem.1 hf
    by_cases hk' : n' < scaledAt d ps[k].1
    · -- `n'` lies on the same segment
      have hf' : (ps.findIdx? fun p => decide (n' < scaledAt d p.1)) = some k := by
        refine List.findIdx?_eq_some_iff_getElem.2 ⟨hk, decide_eq_true hk', fun j hj hlt => hbefore j hj ?_⟩
        have := of_decide_eq_true hlt
        exact decide_eq_true (by omega)
      cases k with
      | zero =>
        rw [curveAt_of_zero hf hk, curveAt_of_zero hf' hk]
        exact Ordered.refl up _
      | succ i =>
        rw [curveAt_of_succ hf hk, curveAt_of_succ hf' hk]
        exact segmentAt_ordered_mono up
          (List.pairwise_iff_getElem.1 hup i (i + 1) (Nat.lt_of_succ_lt hk) hk (Nat.lt_succ_self i)) h
    · exact (ordered_of_lt_curveAt up hup hk (of_decide_eq_true hnk)).trans
        (ordered_curveAt_of_le hsorted up hup hk (Nat.le_of_not_lt hk'))

end Ordinates

end Position

theorem curveAt_of_lt_head {ps : List (Fraction perbill × Fraction perbill)} {d n : Nat} :
    ∀ p ∈ ps.head?, n < scaledAt d p.1 → curveAt ps d n = scaledAt d p.2 := by
  intro p hp hn
  obtain ⟨t, rfl⟩ := List.head?_eq_some_iff.1 hp
  unfold curveAt
  rw [List.findIdx?_cons, if_pos (decide_eq_true hn)]
  rfl

/-! ## The model computes the curve -/

section Model

variable {w : Nat} (hw : 32 ≤ w)

/-- `multiply_by_rational_saturating(v, p, q)` is `min(N::MAX, ⌊v * p / max(q, 1)⌋)`, and its `u64` product never
overflows. -/
theorem multiplyByRationalSaturating_eq (v : Fin (2 ^ w)) (p q : Fin (2 ^ 32)) :
    (multiplyByRationalSaturating hw v p q).map Fin.val = some (min (2 ^ w - 1) (v.val * p.val / max q.val 1)) := by
  have h32 : 2 ^ 32 ≤ 2 ^ w := Nat.pow_le_pow_right Nat.two_pos hw
  have hq1 : (max q 1).val = max q.val 1 := by
    rw [Fin.coe_max]
    rfl
  have hqpos : 0 < max q.val 1 := Nat.lt_of_lt_of_le Nat.one_pos (Nat.le_max_right _ _)
  have hq32 : max q.val 1 < 2 ^ 32 := by
    have := q.isLt
    omega
  have hp := p.isLt
  -- the remainder fits in `u32`, and times `p` in `u64`
  have hrem : (saturatedInto (v % widen hw (max q 1)) : Fin (2 ^ 32)).val = v.val % max q.val 1 := by
    rw [Word.val_saturatedInto, Fin.mod_val, Word.val_widen, hq1]
    have := Nat.mod_lt v.val hqpos
    omega
  have hprod : v.val % max q.val 1 * p.val < 2 ^ 64 := by
    have h64 : (2 : Nat) ^ 64 = 2 ^ 32 * 2 ^ 32 := by rw [← Nat.pow_add]
    rw [h64]
    exact Nat.mul_lt_mul'' (Nat.lt_trans (Nat.mod_lt _ hqpos) hq32) hp
  obtain ⟨m, hm, hmv⟩ := Option.map_eq_some_iff.1
    (Word.val_checkedMul (a := (widen (by decide) (saturatedInto (v % widen hw (max q 1)) : Fin (2 ^ 32)) :
      Fin (2 ^ 64))) (b := widen (by decide) p) (by rw [Word.val_widen, Word.val_widen, hrem]; exact hprod))
  rw [Word.val_widen, Word.val_widen, hrem] at hmv
  -- the remainder part is below `p`, so it fits in `N`
  have hcorr : v.val % max q.val 1 * p.val / max q.val 1 ≤ p.val :=
    Nat.div_le_of_le_mul (Nat.mul_le_mul_right _ (Nat.mod_lt _ hqpos).le)
  -- the integer part times `p` and the remainder part make up the quotient
  have hsplit : v.val / max q.val 1 * p.val + v.val % max q.val 1 * p.val / max q.val 1 =
      v.val * p.val / max q.val 1 := by
    rw [← div_mul_mul_add_mod_mul v.val p.val (max q.val 1), Nat.add_comm (v.val / max q.val 1 * p.val * max q.val 1),
      Nat.add_mul_div_right _ _ hqpos, Nat.add_comm]
  unfold multiplyByRationalSaturating
  simp only [hm, Option.bind_eq_bind, Option.bind_some, Option.pure_def, Option.map_some, Option.some.injEq]
  rw [Word.val_saturatingAdd, Word.val_saturatingMul, Word.val_saturatedInto, Fin.div_val, Fin.div_val,
    Word.val_widen, Word.val_widen, Word.val_widen, hq1, hmv]
  have hB : v.val % max q.val 1 * p.val / max q.val 1 ≤ 2 ^ w - 1 := by omega
  rw [Nat.min_eq_left hB, ← hsplit]
  -- the integer part saturates or not; the remainder part never does
  by_cases hA : v.val / max q.val 1 * p.val ≤ 2 ^ w - 1
  · rw [Nat.min_eq_left hA, Nat.min_comm]
  · have hMA : 2 ^ w - 1 ≤ v.val / max q.val 1 * p.val := Nat.le_of_lt (Nat.lt_of_not_le hA)
    rw [Nat.min_eq_right hMA, Nat.min_eq_right (Nat.le_add_right _ _),
      Nat.min_eq_left (Nat.le_trans hMA (Nat.le_add_right _ _))]

theorem mul_eq_scaledAt (p : Fraction perbill) (d : Fin (2 ^ w)) :
    ∃ x, p.mul hw d = some x ∧ x.val = scaledAt d.val p :=
  Option.map_eq_some_iff.1 (overflowPruneMul_eq perbill hw d p.parts .nearestPrefDown p.le_accuracy)

/-- `position` finds the first point whose abscissa times `d` is above `n`. -/
theorem positionBelow_eq (n d : Fin (2 ^ w)) : ∀ ps : List (Fraction perbill × Fraction perbill),
    positionBelow hw n d ps = some (ps.findIdx? fun p => decide (n.val < scaledAt d.val p.1))
  | [] => rfl
  | p :: ps => by
    obtain ⟨x, hx, hxv⟩ := mul_eq_scaledAt hw p.1 d
    rw [positionBelow, List.findIdx?_cons, positionBelow_eq n d ps]
    simp only [hx, Option.bind_eq_bind, Option.bind_some, Fin.lt_def, hxv, decide_eq_true_eq]
    split <;> rfl

theorem val_absSub {n : Nat} (a b : Fin n) : (absSub a b).val = max a.val b.val - min a.val b.val := by
  unfold absSub
  rw [Fin.sub_val_of_le (min_le_max), Fin.coe_max, Fin.coe_min]

/-- Between two points around `n`, the interpolation is `segmentAt`: the run is positive, and `delta_y` is at most
the rounded rise, below `d`, so that nothing saturates. -/
theorem interpolateBetween_eq (n d : Fin (2 ^ w)) (prev next : Fraction perbill × Fraction perbill)
    (hlo : scaledAt d.val prev.1 ≤ n.val) (hhi : n.val < scaledAt d.val next.1) :
    (interpolateBetween hw n d prev next).map Fin.val = some (segmentAt d.val n.val prev next) := by
  obtain ⟨x₀, hx₀, hx₀v⟩ := mul_eq_scaledAt hw prev.1 d
  obtain ⟨y₀, hy₀, hy₀v⟩ := mul_eq_scaledAt hw prev.2 d
  have hrun : prev.1.parts.val < next.1.parts.val := by
    by_contra h
    have := scaledAt_mono d.val (Nat.le_of_not_lt h)
    omega
  have hx : n.val - scaledAt d.val prev.1 + scaledAt d.val prev.1 < scaledAt d.val next.1 := by omega
  have hd₀ := scaledAt_le d.val prev.2
  have hd₁ := scaledAt_le d.val next.2
  have hdw := d.isLt
  obtain ⟨δ, hδ, hδv⟩ := Option.map_eq_some_iff.1 (multiplyByRationalSaturating_eq hw (absSub n x₀)
    (absSub next.2.deconstruct prev.2.deconstruct) (saturatingSub next.1.deconstruct prev.1.deconstruct))
  -- `deconstruct` of `Perbill` is a `u32`
  have hrise : (@absSub (2 ^ 32) next.2.deconstruct prev.2.deconstruct).val =
      max next.2.parts.val prev.2.parts.val - min next.2.parts.val prev.2.parts.val := val_absSub _ _
  have hrunv : (@saturatingSub 32 next.1.deconstruct prev.1.deconstruct).val =
      next.1.parts.val - prev.1.parts.val := rfl
  rw [val_absSub, hrise, hrunv, hx₀v, Nat.max_eq_left hlo, Nat.min_eq_right hlo,
    Nat.max_eq_left (by omega : 1 ≤ next.1.parts.val - prev.1.parts.val)] at hδv
  unfold interpolateBetween segmentAt
  simp only [hx₀, hδ, hy₀, Option.bind_eq_bind, Option.bind_some, Option.pure_def]
  simp only [Fin.lt_def, hx₀v, Fraction.deconstruct, decide_eq_decide]
  by_cases hb : prev.2.parts.val ≤ next.2.parts.val
  · have hq := div_le_scaledAt_sub d.val _ hb hx
    rw [Nat.max_eq_left hb, Nat.min_eq_right hb, Nat.min_eq_right (by omega)] at hδv
    rw [if_pos hb]
    split_ifs with hc
    · simp only [Option.map_some, Option.some.injEq, Word.val_saturatingAdd, hy₀v, hδv]
      omega
    · -- `delta_y` is zero: `n` is at `prev`, or the curve is flat
      have hz : (n.val - scaledAt d.val prev.1) * (next.2.parts.val - prev.2.parts.val) = 0 := by
        rcases Nat.lt_or_ge (scaledAt d.val prev.1) n.val with h | h
        · rw [Nat.sub_eq_zero_of_le (by omega : next.2.parts.val ≤ prev.2.parts.val), Nat.mul_zero]
        · rw [Nat.sub_eq_zero_of_le h, Nat.zero_mul]
      simp only [Option.map_some, Word.val_saturatingSub, hy₀v, hδv, hz, Nat.zero_div]
      rfl
  · have hb' : next.2.parts.val ≤ prev.2.parts.val := Nat.le_of_not_le hb
    have hq := div_le_scaledAt_sub d.val _ hb' hx
    rw [Nat.max_eq_right hb', Nat.min_eq_left hb', Nat.min_eq_right (by omega)] at hδv
    rw [if_neg hb]
    split_ifs with hc
    · -- `delta_y` is zero: `n` is at `prev`
      have hz : n.val - scaledAt d.val prev.1 = 0 := Nat.sub_eq_zero_of_le (by omega)
      simp only [Option.map_some, Option.some.injEq, Word.val_saturatingAdd, hy₀v, hδv, hz, Nat.zero_mul, Nat.zero_div]
      omega
    · simp only [Option.map_some, Word.val_saturatingSub, hy₀v, hδv]

/-- The ordinate of an end point times `d`, with `Perbill::zero` when there is none. -/
theorem mul_getD_eq (o : Option (Fraction perbill × Fraction perbill)) (d : Fin (2 ^ w)) :
    (((o.map (·.2)).getD Fraction.zero).mul hw d).map Fin.val = some ((o.map fun p => scaledAt d.val p.2).getD 0) := by
  obtain ⟨x, hx, hxv⟩ := mul_eq_scaledAt hw ((o.map (·.2)).getD Fraction.zero) d
  rw [hx, Option.map_some, hxv]
  cases o with
  | none => exact congrArg some (scaledAt_zero d.val)
  | some p => rfl

/-- The model computes `curveAt` of the clamped `n`, for every curve: it never panics. -/
theorem calculate_eq (self : PiecewiseLinear) (n d : Fin (2 ^ w)) :
    (self.calculateForFractionTimesDenominator hw n d).map Fin.val =
      some (curveAt self.points d.val (min n.val d.val)) := by
  unfold PiecewiseLinear.calculateForFractionTimesDenominator
  cases hps : self.points.isEmpty with
  | true =>
    rw [List.isEmpty_iff.1 hps]
    rfl
  | false =>
    simp only [Bool.false_eq_true, if_false, positionBelow_eq, Option.bind_eq_bind, Option.bind_some, Fin.coe_min]
    unfold curveAt
    split
    · rename_i hi
      rw [hi]
      exact mul_getD_eq hw _ d
    · rename_i hi
      rw [hi]
      exact mul_getD_eq hw _ d
    · rename_i i hi
      obtain ⟨hlen, hnext, hbefore⟩ := List.findIdx?_eq_some_iff_getElem.1 hi
      have hlo : scaledAt d.val self.points[i].1 ≤ (min n d).val := by
        rw [Fin.coe_min]
        exact Nat.le_of_not_lt fun h => hbefore i (Nat.lt_succ_self i) (decide_eq_true h)
      have hhi : (min n d).val < scaledAt d.val self.points[i + 1].1 := by
        rw [Fin.coe_min]
        exact of_decide_eq_true hnext
      have := interpolateBetween_eq hw (min n d) d _ _ hlo hhi
      rw [Fin.coe_min] at this
      rw [hi]
      dsimp only
      rw [List.getElem?_eq_getElem (Nat.lt_of_succ_lt hlen), List.getElem?_eq_getElem hlen]
      simpa only [Option.bind_some, Option.map_some, Option.getD_some]

theorem val_eq_curveAt (self : PiecewiseLinear) {n d v : Fin (2 ^ w)}
    (hv : self.calculateForFractionTimesDenominator hw n d = some v) :
    v.val = curveAt self.points d.val (min n.val d.val) := by
  have := calculate_eq hw self n d
  rw [hv, Option.map_some] at this
  exact Option.some.inj this

/-- For points with increasing abscissas: `multiply_by_rational_saturating` is exact up to saturation;
`calculate_for_fraction_times_denominator` never panics, is the last ordinate times `d` past the last abscissa and the
first below the first, lies between the ordinates of the two points around `n`, and is monotone in `n` as the ordinates
are (products by `d` as `Perbill` computes them). -/
theorem piecewise_linear_bounds (self : PiecewiseLinear)
    (hsorted : self.points.Pairwise fun p q => p.1.parts.val < q.1.parts.val) :
    (∀ (v : Fin (2 ^ w)) (p q : Fin (2 ^ 32)),
      (multiplyByRationalSaturating hw v p q).map Fin.val = some (min (2 ^ w - 1) (v.val * p.val / max q.val 1))) ∧
    (∀ n d : Fin (2 ^ w), ∃ v, self.calculateForFractionTimesDenominator hw n d = some v ∧
      (∀ p ∈ self.points.getLast?, scaledAt d.val p.1 ≤ min n.val d.val → v.val = scaledAt d.val p.2) ∧
      (∀ p ∈ self.points.head?, min n.val d.val < scaledAt d.val p.1 → v.val = scaledAt d.val p.2) ∧
      ∀ i (h : i + 1 < self.points.length), scaledAt d.val self.points[i].1 ≤ min n.val d.val →
        min n.val d.val < scaledAt d.val self.points[i + 1].1 →
        min (scaledAt d.val self.points[i].2) (scaledAt d.val self.points[i + 1].2) ≤ v.val ∧
          v.val ≤ max (scaledAt d.val self.points[i].2) (scaledAt d.val self.points[i + 1].2)) ∧
    ((self.points.Pairwise fun p q => p.2.parts.val ≤ q.2.parts.val) → ∀ n n' d v v', n ≤ n' →
      self.calculateForFractionTimesDenominator hw n d = some v →
      self.calculateForFractionTimesDenominator hw n' d = some v' → v ≤ v') ∧
    ((self.points.Pairwise fun p q => q.2.parts.val ≤ p.2.parts.val) → ∀ n n' d v v', n ≤ n' →
      self.calculateForFractionTimesDenominator hw n d = some v →
      self.calculateForFractionTimesDenominator hw n' d = some v' → v' ≤ v) := by
  refine ⟨multiplyByRationalSaturating_eq hw, fun n d => ?_, fun hup n n' d v v' h hv hv' => ?_,
    fun hdown n n' d v v' h hv hv' => ?_⟩
  · obtain ⟨v, hv, hvv⟩ := Option.map_eq_some_iff.1 (calculate_eq hw self n d)
    refine ⟨v, hv, fun p hp hn => ?_, fun p hp hn => ?_, fun i h hlo hhi => ?_⟩
    · rw [hvv]
      exact curveAt_of_last_le hsorted p hp hn
    · rw [hvv]
      exact curveAt_of_lt_head p hp hn
    · rw [hvv]
      exact curveAt_between hsorted i h hlo hhi
  · rw [Fin.le_def, val_eq_curveAt hw self hv, val_eq_curveAt hw self hv']
    exact curveAt_ordered hsorted true hup (min_le_min_right d.val (Fin.le_def.1 h))
  · rw [Fin.le_def, val_eq_curveAt hw self hv, val_eq_curveAt hw self hv']
    exact curveAt_ordered hsorted false hdown (min_le_min_right d.val (Fin.le_def.1 h))

end Model

/-- The identity curve on `u32`: its points are sorted, and it never panics. -/
theorem piecewise_linear_bounds_identity :
    ([(Fraction.zero, Fraction.zero), (Fraction.one, Fraction.one)] :
      List (Fraction perbill × Fraction perbill)).Pairwise (fun p q => p.1.parts.val < q.1.parts.val) ∧
    ∀ n d : Fin (2 ^ 32), ∃ v, PiecewiseLinear.calculateForFractionTimesDenominator (Nat.le_refl 32)
      ⟨[(Fraction.zero, Fraction.zero), (Fraction.one, Fraction.one)], Fraction.one⟩ n d = some v := by
  refine ⟨by decide, fun n d => ?_⟩
  obtain ⟨v, hv, -⟩ := (piecewise_linear_bounds (Nat.le_refl 32)
    ⟨[(Fraction.zero, Fraction.zero), (Fraction.one, Fraction.one)], Fraction.one⟩ (by decide)).2.1 n d
  exact ⟨v, hv⟩

end CoreChain.Arith

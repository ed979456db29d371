import Mathlib

/-!
# Rounding a quotient

`Rounding` and `SignedRounding` of `sp_arithmetic` (`per_things.rs`). Every multiply-divide of the crate computes a
quotient and a remainder, and then adds one when the rounding mode asks for it; the test on the remainder is the same
`match` everywhere (`multiply_by_rational_with_rounding`, `impl_rrm`, `rational_mul_correction`): `Rounding.bump`.

The rounded quotient the crate's documentation describes is `roundDiv r x d`: the exact quotient `x / d`, plus one when
`r` rounds the exact remainder up (`Rounding.RoundsUp`: any remainder for `Up`, at least half of `d` for
`NearestPrefUp`, more than half for `NearestPrefDown`). `bump_iff` says the source's test, written without
overflow as `d / 2 + d % 2`, is that condition. The lemmas below are the facts about rounded quotients the
multiply-divides of the crate need: an integer part comes out of the rounding (`roundDiv_mul_add`), a rounded
quotient stays below any integer bound of the exact one (`roundDiv_le_of_le`), and the quotient of a scaled
remainder is below the scale (`roundDiv_mod_mul_le`).
-/

namespace CoreChain.Arith

/-- `Rounding`, for unsigned quantities. -/
inductive Rounding where
  | up
  | down
  | nearestPrefUp
  | nearestPrefDown
  deriving DecidableEq, Repr

/-- `SignedRounding`. -/
inductive SignedRounding where
  | high
  | low
  | nearestPrefHigh
  | nearestPrefLow
  | major
  | minor
  | nearestPrefMajor
  | nearestPrefMinor
  deriving DecidableEq, Repr

/-- `Rounding::from_signed`: the unsigned rounding of a magnitude that gives the signed rounding of the value. -/
def Rounding.fromSigned : SignedRounding → Bool → Rounding
  | .low, true => .up
  | .major, _ => .up
  | .high, false => .up
  | .high, true => .down
  | .minor, _ => .down
  | .low, false => .down
  | .nearestPrefMajor, _ => .nearestPrefUp
  | .nearestPrefHigh, false => .nearestPrefUp
  | .nearestPrefLow, true => .nearestPrefUp
  | .nearestPrefMinor, _ => .nearestPrefDown
  | .nearestPrefLow, false => .nearestPrefDown
  | .nearestPrefHigh, true => .nearestPrefDown

/-- The test of every multiply-divide of the crate: whether the quotient with this remainder over `d` goes up by
one. `(d + 1) / 2` is not used, since `d` may be the largest value of its type. -/
def Rounding.bump : Rounding → Nat → Nat → Bool
  | .up, remainder, _ => decide (0 < remainder)
  | .nearestPrefUp, remainder, d => decide (d / 2 + d % 2 ≤ remainder)
  | .nearestPrefDown, remainder, d => decide (d / 2 < remainder)
  | .down, _, _ => false

/-- When rounding goes up, as the documentation of `Rounding` says: for `Up` any remainder, for `NearestPrefUp` one of at least
half the divisor, for `NearestPrefDown` one of more than half. -/
def Rounding.RoundsUp : Rounding → Nat → Nat → Prop
  | .up, remainder, _ => 0 < remainder
  | .down, _, _ => False
  | .nearestPrefUp, remainder, d => d ≤ 2 * remainder
  | .nearestPrefDown, remainder, d => d < 2 * remainder

instance (r : Rounding) (remainder d : Nat) : Decidable (r.RoundsUp remainder d) :=
  match r with
  | .up => inferInstanceAs (Decidable (0 < remainder))
  | .down => inferInstanceAs (Decidable False)
  | .nearestPrefUp => inferInstanceAs (Decidable (d ≤ 2 * remainder))
  | .nearestPrefDown => inferInstanceAs (Decidable (d < 2 * remainder))

/-- The exact quotient `x / d` rounded by `r`. -/
def roundDiv (r : Rounding) (x d : Nat) : Nat :=
  x / d + if r.RoundsUp (x % d) d then 1 else 0

/-- The source's test is the documented rounding condition. -/
theorem Rounding.bump_iff (r : Rounding) (remainder d : Nat) : r.bump remainder d = true ↔ r.RoundsUp remainder d := by
  cases r <;> simp only [bump, RoundsUp, decide_eq_true_eq, Bool.false_eq_true] <;> omega

theorem roundDiv_le_succ (r : Rounding) (x d : Nat) : roundDiv r x d ≤ x / d + 1 := by
  unfold roundDiv
  split <;> omega

theorem div_le_roundDiv (r : Rounding) (x d : Nat) : x / d ≤ roundDiv r x d := by
  unfold roundDiv
  omega

theorem le_roundDiv_up_mul {d : Nat} (hd : 0 < d) (x : Nat) : x ≤ roundDiv .up x d * d := by
  have hx := Nat.div_add_mod x d
  have hm := Nat.mod_lt x hd
  unfold roundDiv
  split
  · rw [Nat.add_mul, Nat.one_mul, Nat.mul_comm]
    omega
  · rename_i hexact
    simp only [Rounding.RoundsUp] at hexact
    rw [Nat.add_zero, Nat.mul_comm]
    omega

@[simp] theorem roundDiv_down (x d : Nat) : roundDiv .down x d = x / d := by
  simp [roundDiv, Rounding.RoundsUp]

theorem Rounding.roundsUp_mono (r : Rounding) {a b d : Nat} (hab : a ≤ b) (h : r.RoundsUp a d) : r.RoundsUp b d := by
  cases r <;> simp only [RoundsUp] at h ⊢ <;> omega

theorem roundDiv_mono (r : Rounding) {x y d : Nat} (hxy : x ≤ y) : roundDiv r x d ≤ roundDiv r y d := by
  have hq : x / d ≤ y / d := Nat.div_le_div_right hxy
  rcases Nat.lt_or_eq_of_le hq with hlt | heq
  · calc roundDiv r x d ≤ x / d + 1 := roundDiv_le_succ r x d
      _ ≤ y / d := hlt
      _ ≤ roundDiv r y d := div_le_roundDiv r y d
  · -- the same quotient: the remainders are in the order of the dividends
    have hmod : x % d ≤ y % d := by
      have hx := Nat.div_add_mod x d
      have hy := Nat.div_add_mod y d
      rw [heq] at hx
      omega
    unfold roundDiv
    rw [heq]
    by_cases hup : r.RoundsUp (x % d) d
    · rw [if_pos hup, if_pos (r.roundsUp_mono hmod hup)]
    · rw [if_neg hup]
      omega

theorem Rounding.not_roundsUp_zero (r : Rounding) {d : Nat} (hd : 0 < d) : ¬ r.RoundsUp 0 d := by
  cases r <;> simp only [RoundsUp, not_false_eq_true] <;> omega

theorem roundDiv_of_dvd (r : Rounding) {x d : Nat} (hd : 0 < d) (h : d ∣ x) : roundDiv r x d = x / d := by
  unfold roundDiv
  rw [Nat.mod_eq_zero_of_dvd h, if_neg (r.not_roundsUp_zero hd)]
  rfl

/-- An integer part of the exact quotient comes out of the rounding. -/
theorem roundDiv_mul_add (r : Rounding) {d : Nat} (hd : 0 < d) (q y : Nat) :
    roundDiv r (q * d + y) d = q + roundDiv r y d := by
  unfold roundDiv
  have hdiv : (q * d + y) / d = q + y / d := by
    rw [Nat.add_comm, Nat.add_mul_div_right _ _ hd, Nat.add_comm]
  have hmod : (q * d + y) % d = y % d := by
    rw [Nat.add_comm, Nat.add_mul_mod_self_right]
  rw [hdiv, hmod, Nat.add_assoc]

/-- A rounded quotient stays at or below an integer bound of the exact quotient: rounding never passes an integer. -/
theorem roundDiv_le_of_le (r : Rounding) {x d n : Nat} (hd : 0 < d) (h : x ≤ n * d) : roundDiv r x d ≤ n := by
  have hq : x / d ≤ n := (Nat.div_le_iff_le_mul_add_pred hd).2 (by rw [Nat.mul_comm] at h; omega)
  unfold roundDiv
  split
  · rename_i hup
    -- a non-zero remainder puts the exact quotient strictly below `n`
    have hrem : 0 < x % d := by
      cases r <;> simp only [Rounding.RoundsUp] at hup <;> omega
    have hlt : x / d < n := by
      by_contra hn
      have hx := Nat.div_add_mod x d
      have : n * d ≤ d * (x / d) := by rw [Nat.mul_comm]; exact Nat.mul_le_mul_left d (by omega)
      omega
    omega
  · omega

/-- The scaled remainder of a division by `d`, divided by `d` again and rounded, is at most the scale. -/
theorem roundDiv_mod_mul_le (r : Rounding) {d : Nat} (hd : 0 < d) (x n : Nat) : roundDiv r (x % d * n) d ≤ n :=
  roundDiv_le_of_le r hd (by
    rw [Nat.mul_comm n d]
    exact Nat.mul_le_mul_right n (Nat.mod_lt x hd).le)

/-- Rounding to the nearest, ties down, stays within half the divisor of the exact quotient. -/
theorem roundDiv_nearestPrefDown_bounds {D : Nat} (hD : 0 < D) (x : Nat) :
    2 * x ≤ 2 * (roundDiv .nearestPrefDown x D * D) + D ∧ 2 * (roundDiv .nearestPrefDown x D * D) < 2 * x + D := by
  have hx := Nat.div_add_mod x D
  have hm := Nat.mod_lt x hD
  unfold roundDiv
  split
  · rename_i hup
    simp only [Rounding.RoundsUp] at hup
    rw [Nat.add_mul, Nat.one_mul, Nat.mul_comm (x / D) D]
    omega
  · rename_i hdown
    simp only [Rounding.RoundsUp] at hdown
    rw [Nat.add_zero, Nat.mul_comm (x / D) D]
    omega

end CoreChain.Arith

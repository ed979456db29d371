import CoreChain.Arith.PerThing

/-!
# Fixed-point numbers

`fixed_point.rs` of `sp_arithmetic`. A fixed-point value is an integer `inner` of its `Inner` type standing for
`inner / DIV`: `FixedI64` and `FixedU64` have `DIV = 10^9` in `i64` and `u64`, `FixedI128` and `FixedU128` have
`DIV = 10^18` in `i128` and `u128`. The primitive integer types (`IntType`) are the same for the inner values and for
the operands of the crate (`FixedPointOperand`): `bits` bits, signed or not, at most 128.

Every checked operation goes through `I129`, a `u128` magnitude with a sign. Both operands are taken apart into
magnitude and sign, the magnitudes go through `multiply_by_rational_with_rounding` with the unsigned rounding the
signed one asks for, and `from_i129` puts the sign back and checks that the result fits (`fromI129_eq`). So each
operation is the rounded quotient of the exact product, `None` exactly where that quotient is not a value of the
target type; with `Minor`, for `checked_mul`, `checked_div`, `checked_mul_int` and `checked_from_rational`, it is the
quotient truncated towards zero (`fixed_checked_ops_truncate`). The `const` methods the referenda curves use
(`checked_rounding_div`) have their own `from_i129`, written with `as` casts and a round trip; it is the same function
(`constFromI129_eq`).

`+` and `-` are the operations of the inner type, which wrap in a release build (`IntType.wrap`).
-/

namespace CoreChain.Arith

/-- A primitive integer type: `bits` bits, signed or not, at most `u128`. -/
structure IntType where
  bits : Nat
  signed : Bool
  bits_pos : 0 < bits
  bits_le : bits ≤ 128

namespace IntType

variable (N : IntType)

/-- `N::min_value()`. -/
def minValue : Int :=
  if N.signed then -2 ^ (N.bits - 1) else 0

/-- `N::max_value()`. -/
def maxValue : Int :=
  if N.signed then 2 ^ (N.bits - 1) - 1 else 2 ^ N.bits - 1

/-- The values of the type. -/
def Fits (x : Int) : Prop :=
  N.minValue ≤ x ∧ x ≤ N.maxValue

instance (x : Int) : Decidable (N.Fits x) :=
  inferInstanceAs (Decidable (_ ∧ _))

/-- Two's complement onto the type: the `as` cast, and `+` and `-` without overflow checks. -/
def wrap (x : Int) : Int :=
  (x - N.minValue) % 2 ^ N.bits + N.minValue

theorem two_pow_bits : (2 : Int) ^ N.bits = 2 * 2 ^ (N.bits - 1) := by
  have h := N.bits_pos
  rw [← pow_succ']
  congr 1
  omega

/-- The range of a type: `[-2^(bits-1), 2^(bits-1))` when signed, `[0, 2^bits)` otherwise. -/
theorem range_cases : (N.minValue < 0 ∧ N.minValue = -(N.maxValue + 1) ∧ N.maxValue + 1 ≤ 2 ^ 127) ∨
    (N.minValue = 0 ∧ N.maxValue < 2 ^ 128) := by
  have hpred : (2 : Int) ^ (N.bits - 1) ≤ 2 ^ 127 := pow_le_pow_right₀ (by norm_num) (by have := N.bits_le; omega)
  have hone : (1 : Int) ≤ 2 ^ (N.bits - 1) := one_le_pow₀ (by norm_num)
  have hbits : (2 : Int) ^ N.bits ≤ 2 ^ 128 := pow_le_pow_right₀ (by norm_num) N.bits_le
  unfold minValue maxValue
  cases N.signed
  · right
    simp only [Bool.false_eq_true, if_false, true_and]
    omega
  · left
    simp only [if_true]
    omega

theorem maxValue_eq : N.maxValue = N.minValue + 2 ^ N.bits - 1 := by
  have h := N.two_pow_bits
  unfold minValue maxValue
  cases N.signed
  · simp only [Bool.false_eq_true, if_false]
    omega
  · simp only [if_true]
    omega

theorem minValue_le_zero : N.minValue ≤ 0 := by
  rcases N.range_cases with h | h <;> omega

theorem fits_minValue : N.Fits N.minValue := by
  have := N.maxValue_eq
  have : (1 : Int) ≤ 2 ^ N.bits := one_le_pow₀ (by norm_num)
  exact ⟨le_refl _, by omega⟩

theorem fits_maxValue : N.Fits N.maxValue := by
  have := N.maxValue_eq
  have : (1 : Int) ≤ 2 ^ N.bits := one_le_pow₀ (by norm_num)
  exact ⟨by omega, le_refl _⟩

theorem natAbs_lt {x : Int} (h : N.Fits x) : x.natAbs < 2 ^ 128 := by
  have hx := h
  unfold Fits at hx
  rcases N.range_cases with hr | hr <;> omega

theorem fits_wrap (x : Int) : N.Fits (N.wrap x) := by
  have hpos : (0 : Int) < 2 ^ N.bits := by positivity
  have h1 := Int.emod_nonneg (x - N.minValue) (ne_of_gt hpos)
  have h2 := Int.emod_lt_of_pos (x - N.minValue) hpos
  have hmax := N.maxValue_eq
  unfold Fits wrap
  omega

theorem wrap_of_fits {x : Int} (h : N.Fits x) : N.wrap x = x := by
  have hmax := N.maxValue_eq
  unfold Fits at h
  unfold wrap
  rw [Int.emod_eq_of_lt (by omega) (by omega)]
  omega

end IntType

/-- A value of a primitive integer type. -/
@[ext] structure IntVal (N : IntType) where
  val : Int
  fits : N.Fits val

namespace IntVal

variable {N : IntType}

instance : DecidableEq (IntVal N) := fun a b =>
  decidable_of_iff (a.val = b.val) ⟨IntVal.ext, fun h => h ▸ rfl⟩

/-- `checked_neg`: `None` where the negation is not a value (`MIN` of a signed type, every non-zero value of an
unsigned one). -/
def checkedNeg (x : IntVal N) : Option (IntVal N) :=
  if h : N.Fits (-x.val) then some ⟨-x.val, h⟩ else none

/-- `Add` of a release build: the sum, wrapped. -/
instance : Add (IntVal N) := ⟨fun a b => ⟨N.wrap (a.val + b.val), N.fits_wrap _⟩⟩

/-- `Sub` of a release build: the difference, wrapped. -/
instance : Sub (IntVal N) := ⟨fun a b => ⟨N.wrap (a.val - b.val), N.fits_wrap _⟩⟩

theorem val_add (a b : IntVal N) : (a + b).val = N.wrap (a.val + b.val) := rfl

theorem val_sub (a b : IntVal N) : (a - b).val = N.wrap (a.val - b.val) := rfl

end IntVal

/-! ## `I129` -/

/-- `I129`: a magnitude in `u128` and a sign. -/
structure I129 where
  value : U128
  negative : Bool

/-- A magnitude with a sign. -/
def signed (negative : Bool) (value : Nat) : Int :=
  if negative then -(value : Int) else value

@[simp] theorem signed_zero (s : Bool) : signed s 0 = 0 := by
  cases s <;> rfl

@[simp] theorem natAbs_signed (s : Bool) (n : Nat) : (signed s n).natAbs = n := by
  cases s <;> simp [signed]

/-- The truncated quotient of a product by a positive divisor, from the signs and magnitudes of the factors. -/
theorem signed_mul_div (x y : Int) (d : Nat) :
    signed (decide (x < 0) != decide (y < 0)) (x.natAbs * y.natAbs / d) = (x * y).tdiv d := by
  have hcast : ∀ m n : Nat, ((m : Int) * n).tdiv d = ((m * n / d : Nat) : Int) := fun m n => by
    rw [← Int.natCast_mul]
    rfl
  obtain ⟨m, rfl | rfl⟩ := Int.eq_nat_or_neg x <;> obtain ⟨n, rfl | rfl⟩ := Int.eq_nat_or_neg y
  · rw [decide_eq_false (by omega), decide_eq_false (by omega), hcast]
    rfl
  · rcases Nat.eq_zero_or_pos n with rfl | hn
    · simp
    · rw [decide_eq_false (by omega), decide_eq_true (by omega), Int.mul_neg, Int.neg_tdiv, hcast]
      simp [signed]
  · rcases Nat.eq_zero_or_pos m with rfl | hm
    · simp
    · rw [decide_eq_true (by omega), decide_eq_false (by omega), Int.neg_mul, Int.neg_tdiv, hcast]
      simp [signed]
  · rcases Nat.eq_zero_or_pos m with rfl | hm
    · simp
    · rcases Nat.eq_zero_or_pos n with rfl | hn
      · simp
      · rw [decide_eq_true (by omega), decide_eq_true (by omega), Int.neg_mul_neg, hcast]
        simp [signed]

/-- The truncated quotient of `x * d` by any divisor, from the signs and magnitudes. -/
theorem signed_mul_div_right (x y : Int) (d : Nat) :
    signed (decide (x < 0) != decide (y < 0)) (x.natAbs * d / y.natAbs) = (x * d).tdiv y := by
  have hcast : ∀ m n : Nat, ((m : Int) * d).tdiv n = ((m * d / n : Nat) : Int) := fun m n => by
    rw [← Int.natCast_mul]
    rfl
  obtain ⟨m, rfl | rfl⟩ := Int.eq_nat_or_neg x <;> obtain ⟨n, rfl | rfl⟩ := Int.eq_nat_or_neg y
  · rw [decide_eq_false (by omega), decide_eq_false (by omega), hcast]
    rfl
  · rcases Nat.eq_zero_or_pos n with rfl | hn
    · simp
    · rw [decide_eq_false (by omega), decide_eq_true (by omega), Int.tdiv_neg, hcast]
      simp [signed]
  · rcases Nat.eq_zero_or_pos m with rfl | hm
    · simp
    · rw [decide_eq_true (by omega), decide_eq_false (by omega), Int.neg_mul, Int.neg_tdiv, hcast]
      simp [signed]
  · rcases Nat.eq_zero_or_pos m with rfl | hm
    · simp
    · rcases Nat.eq_zero_or_pos n with rfl | hn
      · simp
      · rw [decide_eq_true (by omega), decide_eq_true (by omega), Int.neg_mul, Int.neg_tdiv, Int.tdiv_neg,
          Int.neg_neg, hcast]
        simp [signed]

namespace I129

/-- The integer an `I129` stands for. -/
def toInt (n : I129) : Int :=
  signed n.negative n.value.val

/-- `From<N> for I129`, and `into_i129`, its `const` copy: the magnitude and the sign. Where `checked_neg` fails, at
`N::min_value()`, the source takes `N::max_value() + 1`, which is the magnitude of `N::min_value()`. -/
def ofIntVal {N : IntType} (n : IntVal N) : I129 :=
  if n.val < 0 then ⟨⟨n.val.natAbs, N.natAbs_lt n.fits⟩, true⟩
  else ⟨⟨n.val.natAbs, N.natAbs_lt n.fits⟩, false⟩

@[simp] theorem val_ofIntVal {N : IntType} (n : IntVal N) : (ofIntVal n).value.val = n.val.natAbs := by
  unfold ofIntVal
  split <;> rfl

@[simp] theorem negative_ofIntVal {N : IntType} (n : IntVal N) : (ofIntVal n).negative = decide (n.val < 0) := by
  unfold ofIntVal
  split
  · rename_i h
    exact (decide_eq_true h).symm
  · rename_i h
    exact (decide_eq_false h).symm

end I129

/-- `from_i129`: `N::min_value()` for the magnitude `N::max_value() + 1` with the sign, otherwise the magnitude through
`try_into`, negated with `checked_neg` for the sign. -/
def fromI129 (N : IntType) (n : I129) : Option (IntVal N) :=
  -- `N::max_value() + 1` with `saturating_add` in `u128`
  let maxPlusOne : Nat := Min.min (N.maxValue.toNat + 1) (2 ^ 128 - 1)
  if n.negative ∧ N.minValue < 0 ∧ n.value.val = maxPlusOne then some ⟨N.minValue, N.fits_minValue⟩
  else if h : (n.value.val : Int) ≤ N.maxValue then
    let unsignedInner : IntVal N := ⟨n.value.val, le_trans N.minValue_le_zero (Int.natCast_nonneg _), h⟩
    if n.negative then unsignedInner.checkedNeg else some unsignedInner
  else none

/-- `from_i129` gives the integer of the `I129` exactly where it is a value of the type. -/
theorem fromI129_eq (N : IntType) (n : I129) :
    (fromI129 N n).map IntVal.val = if N.Fits n.toInt then some n.toInt else none := by
  have hr := N.range_cases
  have hv := n.value.isLt
  unfold fromI129
  dsimp only
  split
  · -- the magnitude of `MIN`, with the sign
    rename_i h
    obtain ⟨hneg, hmin, hval⟩ := h
    have hint : n.toInt = N.minValue := by
      rw [I129.toInt, hneg, signed, if_pos rfl]
      omega
    rw [hint, if_pos N.fits_minValue]
    rfl
  · rename_i hnotMin
    split
    · rename_i hfit
      cases hneg : n.negative
      · have hint : n.toInt = n.value.val := by rw [I129.toInt, hneg]; rfl
        have hfits : N.Fits n.toInt := by
          rw [hint]
          exact ⟨by omega, hfit⟩
        rw [if_neg (by simp), if_pos hfits, hint]
        rfl
      · have hint : n.toInt = -(n.value.val : Int) := by rw [I129.toInt, hneg]; rfl
        rw [if_pos rfl, IntVal.checkedNeg, hint]
        by_cases hf : N.Fits (-(n.value.val : Int))
        · rw [dif_pos hf, if_pos hf]
          rfl
        · rw [dif_neg hf, if_neg hf]
          rfl
    · -- `try_into` fails: too large for the type, and its negation is below `MIN` unless it was `MIN`
      rename_i hbig
      have hnot : ¬ N.Fits n.toInt := by
        unfold IntType.Fits
        rw [I129.toInt, signed]
        cases hneg : n.negative
        · simp only [Bool.false_eq_true, if_false]
          omega
        · simp only [hneg, true_and] at hnotMin
          simp only [if_true]
          omega
      rw [if_neg hnot]
      rfl

/-! ## Fixed-point types -/

/-- A fixed-point type of `implement_fixed!`: the `Inner` type and `DIV`, the inner value of one. -/
structure FixedPoint where
  innerType : IntType
  div : Nat
  div_pos : 0 < div
  div_le : (div : Int) ≤ innerType.maxValue

theorem billion_pos : 0 < 1000000000 := by decide

theorem quintillion_pos : 0 < 1000000000000000000 := by decide

/-- `FixedI64`: `i64`, `DIV = 1_000_000_000`. -/
def fixedI64 : FixedPoint :=
  ⟨⟨64, true, by decide, by decide⟩, 1000000000, billion_pos, by decide⟩

/-- `FixedU64`: `u64`, `DIV = 1_000_000_000`. -/
def fixedU64 : FixedPoint :=
  ⟨⟨64, false, by decide, by decide⟩, 1000000000, billion_pos, by decide⟩

/-- `FixedI128`: `i128`, `DIV = 1_000_000_000_000_000_000`. -/
def fixedI128 : FixedPoint :=
  ⟨⟨128, true, by decide, by decide⟩, 1000000000000000000, quintillion_pos, by decide⟩

/-- `FixedU128`: `u128`, `DIV = 1_000_000_000_000_000_000`. -/
def fixedU128 : FixedPoint :=
  ⟨⟨128, false, by decide, by decide⟩, 1000000000000000000, quintillion_pos, by decide⟩

/-- A value of a fixed-point type: its inner value. -/
abbrev Fixed (F : FixedPoint) := IntVal F.innerType

namespace FixedPoint

variable (F : FixedPoint)

theorem div_lt : F.div < 2 ^ 128 := by
  have := F.div_le
  rcases F.innerType.range_cases with h | h <;> omega

/-- `DIV` as `u128`. -/
def divU128 : U128 :=
  ⟨F.div, F.div_lt⟩

@[simp] theorem val_divU128 : F.divU128.val = F.div := rfl

end FixedPoint

/-- `Minor` rounds the magnitude down, whatever the sign. -/
@[simp] theorem Rounding.fromSigned_minor (s : Bool) : Rounding.fromSigned .minor s = .down := by
  cases s <;> rfl

/-- The rounding multiply of two magnitudes, followed by `from_i129` with a sign: the signed rounded quotient, where
it is a value of the type. -/
theorem map_bind_fromI129 (N : IntType) (a b c : U128) (r : Rounding) (s : Bool) (hc : c.val ≠ 0) :
    ((multiplyByRationalWithRounding a b c r).bind fun v => fromI129 N ⟨v, s⟩).map IntVal.val =
      if N.Fits (signed s (roundDiv r (a.val * b.val) c.val)) then some (signed s (roundDiv r (a.val * b.val) c.val))
      else none := by
  have hspec := multiplyByRationalWithRounding_eq a b c r
  by_cases hover : 2 ^ 128 ≤ roundDiv r (a.val * b.val) c.val
  · -- the magnitude overflows `u128`, so its signed value is no value of the type either
    rw [if_pos (Or.inr hover)] at hspec
    rw [Option.map_eq_none_iff.1 hspec, if_neg]
    · rfl
    · intro hfit
      have := N.natAbs_lt hfit
      rw [natAbs_signed] at this
      omega
  · rw [if_neg (by omega)] at hspec
    obtain ⟨v, hv, hvq⟩ := Option.map_eq_some_iff.1 hspec
    rw [hv, Option.bind_some, fromI129_eq]
    simp only [I129.toInt, hvq]

namespace Fixed

variable {F : FixedPoint}

/-- `CheckedMul`: the product of the magnitudes over `DIV`, rounded down (`Minor`), with the sign of the product. -/
def checkedMul (x y : Fixed F) : Option (Fixed F) :=
  let lhs := I129.ofIntVal x
  let rhs := I129.ofIntVal y
  let negative := lhs.negative != rhs.negative
  (multiplyByRationalWithRounding lhs.value rhs.value F.divU128 (Rounding.fromSigned .minor negative)).bind
    fun value => fromI129 F.innerType ⟨value, negative⟩

/-- `CheckedDiv`: `None` for a zero divisor, otherwise the magnitude times `DIV` over the divisor's, rounded down. -/
def checkedDiv (x other : Fixed F) : Option (Fixed F) :=
  if other.val = 0 then none
  else
    let lhs := I129.ofIntVal x
    let rhs := I129.ofIntVal other
    let negative := lhs.negative != rhs.negative
    (multiplyByRationalWithRounding lhs.value F.divU128 rhs.value (Rounding.fromSigned .minor negative)).bind
      fun value => fromI129 F.innerType ⟨value, negative⟩

/-- `checked_mul_int`: `self * n` as a value of the integer type of `n`. -/
def checkedMulInt {N : IntType} (x : Fixed F) (n : IntVal N) : Option (IntVal N) :=
  let lhs := I129.ofIntVal x
  let rhs := I129.ofIntVal n
  let negative := lhs.negative != rhs.negative
  (multiplyByRationalWithRounding lhs.value rhs.value F.divU128 (Rounding.fromSigned .minor negative)).bind
    fun value => fromI129 N ⟨value, negative⟩

variable (F) in
/-- `checked_from_rational`: `n / d`, `None` for `d = 0`. -/
def checkedFromRational {N D : IntType} (n : IntVal N) (d : IntVal D) : Option (Fixed F) :=
  if d.val = 0 then none
  else
    let n := I129.ofIntVal n
    let d := I129.ofIntVal d
    let negative := n.negative != d.negative
    (multiplyByRationalWithRounding n.value F.divU128 d.value (Rounding.fromSigned .minor negative)).bind
      fun value => fromI129 F.innerType ⟨value, negative⟩

theorem checkedMul_eq (x y : Fixed F) : (x.checkedMul y).map IntVal.val =
    if F.innerType.Fits ((x.val * y.val).tdiv F.div) then some ((x.val * y.val).tdiv F.div) else none := by
  unfold checkedMul
  dsimp only
  rw [map_bind_fromI129 _ _ _ _ _ _ (by have := F.div_pos; simp; omega)]
  simp only [Rounding.fromSigned_minor, roundDiv_down, I129.val_ofIntVal, I129.negative_ofIntVal,
    FixedPoint.val_divU128, signed_mul_div]

theorem checkedDiv_eq (x y : Fixed F) : (x.checkedDiv y).map IntVal.val =
    if y.val = 0 then none
    else if F.innerType.Fits ((x.val * F.div).tdiv y.val) then some ((x.val * F.div).tdiv y.val) else none := by
  unfold checkedDiv
  split
  · rfl
  · rename_i hy
    dsimp only
    rw [map_bind_fromI129 _ _ _ _ _ _ (by simp; omega)]
    simp only [Rounding.fromSigned_minor, roundDiv_down, I129.val_ofIntVal, I129.negative_ofIntVal,
      FixedPoint.val_divU128, signed_mul_div_right]

theorem checkedMulInt_eq {N : IntType} (x : Fixed F) (n : IntVal N) : (x.checkedMulInt n).map IntVal.val =
    if N.Fits ((x.val * n.val).tdiv F.div) then some ((x.val * n.val).tdiv F.div) else none := by
  unfold checkedMulInt
  dsimp only
  rw [map_bind_fromI129 _ _ _ _ _ _ (by have := F.div_pos; simp; omega)]
  simp only [Rounding.fromSigned_minor, roundDiv_down, I129.val_ofIntVal, I129.negative_ofIntVal,
    FixedPoint.val_divU128, signed_mul_div]

theorem checkedFromRational_eq {N D : IntType} (n : IntVal N) (d : IntVal D) :
    (checkedFromRational F n d).map IntVal.val =
      if d.val = 0 then none
      else if F.innerType.Fits ((n.val * F.div).tdiv d.val) then some ((n.val * F.div).tdiv d.val) else none := by
  unfold checkedFromRational
  split
  · rfl
  · rename_i hd
    dsimp only
    rw [map_bind_fromI129 _ _ _ _ _ _ (by simp; omega)]
    simp only [Rounding.fromSigned_minor, roundDiv_down, I129.val_ofIntVal, I129.negative_ofIntVal,
      FixedPoint.val_divU128, signed_mul_div_right]

end Fixed

/-- For every fixed-point type: `checked_mul` and `checked_mul_int` return the product over `DIV`, and `checked_div` and
`checked_from_rational` the quotient times `DIV`, truncated towards zero, exactly when it is a value of the type (`None`
for a zero divisor), the minimum of a signed type included. -/
theorem fixed_checked_ops_truncate (F : FixedPoint) :
    (∀ x y : Fixed F, (x.checkedMul y).map IntVal.val =
      if F.innerType.Fits ((x.val * y.val).tdiv F.div) then some ((x.val * y.val).tdiv F.div) else none) ∧
    (∀ x y : Fixed F, (x.checkedDiv y).map IntVal.val =
      if y.val = 0 then none
      else if F.innerType.Fits ((x.val * F.div).tdiv y.val) then some ((x.val * F.div).tdiv y.val) else none) ∧
    (∀ (N : IntType) (x : Fixed F) (n : IntVal N), (x.checkedMulInt n).map IntVal.val =
      if N.Fits ((x.val * n.val).tdiv F.div) then some ((x.val * n.val).tdiv F.div) else none) ∧
    (∀ (N D : IntType) (n : IntVal N) (d : IntVal D), (Fixed.checkedFromRational F n d).map IntVal.val =
      if d.val = 0 then none
      else if F.innerType.Fits ((n.val * F.div).tdiv d.val) then some ((n.val * F.div).tdiv d.val) else none) :=
  ⟨Fixed.checkedMul_eq, Fixed.checkedDiv_eq, fun _ => Fixed.checkedMulInt_eq,
    fun _ _ => Fixed.checkedFromRational_eq⟩

/-! ## The `const` division and the conversions with per-things -/

/-- `P::Inner`, unsigned. -/
def PerThing.innerType (P : PerThing) (hP : P.bits ≤ 128) : IntType :=
  ⟨P.bits, false, P.bits_pos, hP⟩

/-- A value of `P::Inner`. -/
def PerThing.innerVal (P : PerThing) (hP : P.bits ≤ 128) (x : Fin (2 ^ P.bits)) : IntVal (P.innerType hP) :=
  ⟨x.val, by
    have hx : (x.val : Int) < 2 ^ P.bits := by exact_mod_cast x.isLt
    refine ⟨?_, ?_⟩ <;> simp only [IntType.minValue, IntType.maxValue, PerThing.innerType, Bool.false_eq_true,
      if_false] <;> omega⟩

@[simp] theorem PerThing.val_innerVal (P : PerThing) (hP : P.bits ≤ 128) (x : Fin (2 ^ P.bits)) :
    (P.innerVal hP x).val = x.val := rfl

/-- Casting a magnitude to the type and back to `u128`, with the same sign, gives the magnitude back exactly when it
is at most `MAX`. -/
theorem IntType.castBack_iff (N : IntType) (v : Nat) (hv : v < 2 ^ 128) :
    ((N.wrap v % 2 ^ 128).toNat = v ∧ decide (0 < N.wrap v) = decide (0 < v)) ↔ (v : Int) ≤ N.maxValue := by
  have hr := N.range_cases
  constructor
  · rintro ⟨hback, hsign⟩
    have hw := N.fits_wrap v
    unfold IntType.Fits at hw
    by_cases hneg : N.wrap v < 0
    · -- a negative cast has the sign of a zero magnitude, whose cast is zero
      have hv0 : v = 0 := by
        rw [decide_eq_false (by omega)] at hsign
        have := of_decide_eq_false hsign.symm
        omega
      subst hv0
      have := N.wrap_of_fits (x := 0) ⟨N.minValue_le_zero, by rcases hr with h | h <;> omega⟩
      omega
    · rw [Int.emod_eq_of_lt (by omega) (by omega)] at hback
      omega
  · intro hle
    have hw : N.wrap v = v := N.wrap_of_fits ⟨le_trans N.minValue_le_zero (Int.natCast_nonneg _), hle⟩
    rw [hw, Int.emod_eq_of_lt (by omega) (by omega)]
    exact ⟨by omega, by simp⟩

namespace Fixed

variable {F : FixedPoint}

variable (F) in
/-- `from_i129` of `implement_fixed!`, the `const` copy: `MIN` as in `from_i129`, otherwise the magnitude cast with
`as $inner_type`, rejected unless it casts back with `as u128` to the magnitude with the same sign. -/
def constFromI129 (n : I129) : Option (Fixed F) :=
  let N := F.innerType
  let maxPlusOne : Nat := Min.min (N.maxValue.toNat + 1) (2 ^ 128 - 1)
  if n.negative ∧ N.minValue < 0 ∧ n.value.val = maxPlusOne then some ⟨N.minValue, N.fits_minValue⟩
  else
    let unsignedInner : IntVal N := ⟨N.wrap n.value.val, N.fits_wrap _⟩
    if (unsignedInner.val % 2 ^ 128).toNat ≠ n.value.val ∨
        decide (0 < unsignedInner.val) ≠ decide (0 < n.value.val) then none
    else if n.negative then unsignedInner.checkedNeg
    else some unsignedInner

theorem constFromI129_eq (n : I129) : constFromI129 F n = fromI129 F.innerType n := by
  unfold constFromI129 fromI129
  dsimp only
  split
  · rfl
  · have hcast := F.innerType.castBack_iff n.value.val n.value.isLt
    by_cases hfit : (n.value.val : Int) ≤ F.innerType.maxValue
    · have hw : F.innerType.wrap n.value.val = n.value.val :=
        F.innerType.wrap_of_fits ⟨le_trans F.innerType.minValue_le_zero (Int.natCast_nonneg _), hfit⟩
      have hback := hcast.2 hfit
      rw [if_neg (by rw [not_or, not_not, not_not]; exact hback), dif_pos hfit]
      have heq : (⟨F.innerType.wrap n.value.val, F.innerType.fits_wrap _⟩ : Fixed F) =
          ⟨n.value.val, le_trans F.innerType.minValue_le_zero (Int.natCast_nonneg _), hfit⟩ := IntVal.ext hw
      rw [heq]
    · rw [if_pos (by rw [ne_eq, ne_eq, ← not_and_or]; exact fun h => hfit (hcast.1 h)), dif_neg hfit]

/-- `checked_rounding_div`: `None` for a zero divisor, otherwise the magnitude times `DIV` over the divisor's,
rounded as the signed rounding asks for the sign of the quotient. -/
def checkedRoundingDiv (x other : Fixed F) (rounding : SignedRounding) : Option (Fixed F) :=
  if other.val = 0 then none
  else
    let lhs := I129.ofIntVal x
    let rhs := I129.ofIntVal other
    let negative := lhs.negative != rhs.negative
    match multiplyByRationalWithRounding lhs.value F.divU128 rhs.value (Rounding.fromSigned rounding negative) with
    | some value => constFromI129 F ⟨value, negative⟩
    | none => none

/-- `checked_rounding_div` is the signed quotient, its magnitude rounded as `Rounding::from_signed` says, where it is
a value of the type. -/
theorem checkedRoundingDiv_eq (x y : Fixed F) (r : SignedRounding) (hy : y.val ≠ 0) :
    (x.checkedRoundingDiv y r).map IntVal.val =
      let negative := decide (x.val < 0) != decide (y.val < 0)
      let q := signed negative (roundDiv (Rounding.fromSigned r negative) (x.val.natAbs * F.div) y.val.natAbs)
      if F.innerType.Fits q then some q else none := by
  have hbind := map_bind_fromI129 F.innerType (I129.ofIntVal x).value F.divU128 (I129.ofIntVal y).value
    (Rounding.fromSigned r ((I129.ofIntVal x).negative != (I129.ofIntVal y).negative))
    ((I129.ofIntVal x).negative != (I129.ofIntVal y).negative) (by simp; omega)
  simp only [I129.val_ofIntVal, I129.negative_ofIntVal, FixedPoint.val_divU128] at hbind
  unfold checkedRoundingDiv
  rw [if_neg hy]
  dsimp only
  rw [← hbind]
  simp only [I129.negative_ofIntVal]
  split
  · rename_i value hvalue
    rw [hvalue, Option.bind_some, constFromI129_eq]
  · rename_i hvalue
    rw [hvalue]
    rfl

theorem checkedRoundingDiv_eq_some (x y : Fixed F) (r : SignedRounding) (hy : y.val ≠ 0)
    (hfit : F.innerType.Fits (signed (decide (x.val < 0) != decide (y.val < 0))
      (roundDiv (Rounding.fromSigned r (decide (x.val < 0) != decide (y.val < 0))) (x.val.natAbs * F.div)
        y.val.natAbs))) :
    ∃ v, x.checkedRoundingDiv y r = some v ∧ v.val = signed (decide (x.val < 0) != decide (y.val < 0))
      (roundDiv (Rounding.fromSigned r (decide (x.val < 0) != decide (y.val < 0))) (x.val.natAbs * F.div)
        y.val.natAbs) := by
  have h := checkedRoundingDiv_eq x y r hy
  dsimp only at h
  rw [if_pos hfit] at h
  exact Option.map_eq_some_iff.1 h

variable (F) in
/-- `to_bound`: `MIN` when `n * m` is negative, `MAX` otherwise. -/
def toBound {N D : IntType} (n : IntVal N) (m : IntVal D) : Fixed F :=
  if decide (n.val < 0) != decide (m.val < 0) then ⟨F.innerType.minValue, F.innerType.fits_minValue⟩
  else ⟨F.innerType.maxValue, F.innerType.fits_maxValue⟩

variable (F) in
/-- `saturating_from_rational`: `checked_from_rational`, or the bound of the sign of `n / d` where that is out of
range; it panics for `d = 0`, which the caller rules out. -/
def saturatingFromRational {N D : IntType} (n : IntVal N) (d : IntVal D) (_hd : d.val ≠ 0) : Fixed F :=
  (checkedFromRational F n d).getD (toBound F n d)

variable (F) in
/-- `From<P: PerThing>`: `saturating_from_rational(p.deconstruct(), P::ACCURACY)`, both in `P::Inner`. -/
def fromPerThing (P : PerThing) (hP : P.bits ≤ 128) (p : Fraction P) : Fixed F :=
  saturatingFromRational F (P.innerVal hP p.parts) (P.innerVal hP P.accuracyInner)
    (by rw [PerThing.val_innerVal, PerThing.val_accuracyInner]; exact Int.natCast_ne_zero.2 (ne_of_gt P.accuracy_pos))

/-- Where one is `ACCURACY` parts (a `Perbill` into `FixedI64`), the conversion is exact. -/
theorem val_fromPerThing (P : PerThing) (hP : P.bits ≤ 128) (hdiv : F.div = P.accuracy) (p : Fraction P) :
    (fromPerThing F P hP p).val = p.parts.val := by
  have hacc : (P.accuracy : Int) ≠ 0 := Int.natCast_ne_zero.2 (ne_of_gt P.accuracy_pos)
  have hq : ((p.parts.val : Int) * F.div).tdiv P.accuracy = p.parts.val := by
    rw [hdiv]
    exact Int.mul_tdiv_cancel _ hacc
  have hfit : F.innerType.Fits p.parts.val := by
    have := F.div_le
    have := F.innerType.minValue_le_zero
    have := p.le_accuracy
    exact ⟨by omega, by omega⟩
  have hspec := checkedFromRational_eq (F := F) (P.innerVal hP p.parts) (P.innerVal hP P.accuracyInner)
  simp only [PerThing.val_innerVal, PerThing.val_accuracyInner, if_neg hacc, hq, if_pos hfit] at hspec
  obtain ⟨v, hv, hvq⟩ := Option.map_eq_some_iff.1 hspec
  unfold fromPerThing saturatingFromRational
  rw [hv, Option.getD_some, hvq]

/-- `into_clamped_perthing`: `zero` below zero, `one` above one, otherwise `P::from_rational(inner as u128, DIV)`. -/
def intoClampedPerthing (P : PerThing) (hP : P.bits ≤ 128) (x : Fixed F) : Fraction P :=
  if x.val < 0 then Fraction.zero
  else if h : (F.div : Int) < x.val then Fraction.one
  else fromRational P RationalArg.u128 hP ⟨x.val.toNat, by have := F.div_lt; omega⟩ F.divU128

/-- `try_into_perthing`: `Err(zero)` below zero, `Err(one)` above one, otherwise `Ok` of the conversion. -/
def tryIntoPerthing (P : PerThing) (hP : P.bits ≤ 128) (x : Fixed F) : Except (Fraction P) (Fraction P) :=
  if x.val < 0 then .error Fraction.zero
  else if h : (F.div : Int) < x.val then .error Fraction.one
  else .ok (fromRational P RationalArg.u128 hP ⟨x.val.toNat, by have := F.div_lt; omega⟩ F.divU128)

/-- Into a per-thing whose one is `DIV` parts, a value between zero and one keeps its inner value. -/
theorem val_fromRational_inner (P : PerThing) (hP : P.bits ≤ 128) (hdiv : F.div = P.accuracy) (x : Fixed F)
    (h1 : ¬ (F.div : Int) < x.val) :
    (fromRational P RationalArg.u128 hP ⟨x.val.toNat, by have := F.div_lt; omega⟩ F.divU128).parts.val =
      x.val.toNat := by
  have hpos := F.div_pos
  rw [Fraction.val_fromRational _ _ (by simp; omega) (by simp; omega)]
  simp only [FixedPoint.val_divU128, hdiv]
  exact Nat.mul_div_cancel_left _ (by omega)

theorem val_intoClampedPerthing (P : PerThing) (hP : P.bits ≤ 128) (hdiv : F.div = P.accuracy) (x : Fixed F) :
    (x.intoClampedPerthing P hP).parts.val =
      if x.val < 0 then 0 else if (F.div : Int) < x.val then P.accuracy else x.val.toNat := by
  unfold intoClampedPerthing
  split
  · rfl
  · rename_i h0
    split
    · rfl
    · rename_i h1
      exact val_fromRational_inner P hP hdiv x h1

end Fixed

end CoreChain.Arith

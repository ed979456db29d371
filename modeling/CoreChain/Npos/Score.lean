import CoreChain.Arith.PerThing

/-!
# Election scores

`ElectionScore` of `sp-npos-elections` (`lib.rs`), its order, and `strict_threshold_better`, which compares two
scores component by component with `ThresholdOrd::tcmp` of `sp_arithmetic`, each band being the threshold times
the other score's component, rounded up (`mul_ceil`).

`tcmp x y b` is `Greater` exactly when `y + b < x` and `Less` exactly when `x + b < y` (`tcmp_eq`): the saturation
of the bounds never changes the answer. So `strict_threshold_better` decides `Accepts` on the bands
(`strictThresholdBetter_eq`), and `Accepts` implies the order, equals it with no band, and shrinks as the bands
grow: a larger threshold accepts less (`strict_threshold_better_sound`).
-/

namespace CoreChain.Npos

open Arith Word

/-- `ThresholdOrd::tcmp`: `Greater` above `other + threshold`, `Less` below `other - threshold`, with both bounds
saturating. -/
def tcmp {w : Nat} (self other threshold : Fin (2 ^ w)) : Ordering :=
  if threshold.val = 0 then compare self other
  else
    let upperBound := saturatingAdd other threshold
    let lowerBound := saturatingSub other threshold
    -- defensive only: with a positive threshold the bounds never meet
    if upperBound ≤ lowerBound then compare self other
    else
      match compare self lowerBound, compare self upperBound with
      | .gt, .gt => .gt
      | .lt, .lt => .lt
      | _, _ => .eq

/-- `tcmp` against the exact bounds: the band is `[other - threshold, other + threshold]`, whether or not the
bounds saturate. -/
theorem tcmp_eq {w : Nat} (x y b : Fin (2 ^ w)) :
    tcmp x y b = if y.val + b.val < x.val then .gt else if x.val + b.val < y.val then .lt else .eq := by
  have hx : x.val ≤ 2 ^ w - 1 := by have := x.isLt; omega
  have hy : y.val ≤ 2 ^ w - 1 := by have := y.isLt; omega
  unfold tcmp
  by_cases hb : b.val = 0
  · rw [if_pos hb, hb, Nat.add_zero, Nat.add_zero]
    rcases lt_trichotomy x.val y.val with h | h | h
    · rw [(compare_lt_iff_lt (a := x) (b := y)).2 h, if_neg (by omega), if_pos h]
    · rw [(compare_eq_iff_eq (a := x) (b := y)).2 (Fin.ext h), if_neg (by omega), if_neg (by omega)]
    · rw [(compare_gt_iff_gt (a := x) (b := y)).2 h, if_pos h]
  rw [if_neg hb]
  dsimp only
  have hbounds : ¬ saturatingAdd y b ≤ saturatingSub y b := by
    rw [Fin.le_def, val_saturatingAdd, val_saturatingSub]
    have := y.isLt
    omega
  rw [if_neg hbounds]
  -- the band test, with the bounds read back as numbers
  have hup : (saturatingAdd y b).val = Min.min (y.val + b.val) (2 ^ w - 1) := val_saturatingAdd y b
  have hlo : (saturatingSub y b).val = y.val - b.val := val_saturatingSub y b
  simp only [compare, compareOfLessAndEq, hup, hlo]
  split_ifs <;> first | rfl | omega

theorem tcmp_eq_gt_iff {w : Nat} (x y b : Fin (2 ^ w)) : tcmp x y b = .gt ↔ y.val + b.val < x.val := by
  rw [tcmp_eq]
  split_ifs with h₁ h₂ <;> simp <;> omega

theorem tcmp_eq_lt_iff {w : Nat} (x y b : Fin (2 ^ w)) : tcmp x y b = .lt ↔ x.val + b.val < y.val := by
  rw [tcmp_eq]
  split_ifs with h₁ h₂ <;> simp <;> omega

/-- Within the band, on both sides. -/
theorem tcmp_eq_eq_iff {w : Nat} (x y b : Fin (2 ^ w)) :
    tcmp x y b = .eq ↔ x.val ≤ y.val + b.val ∧ y.val ≤ x.val + b.val := by
  rw [tcmp_eq]
  split_ifs with h₁ h₂ <;> simp <;> omega

/-- `ElectionScore`. -/
structure ElectionScore where
  minimalStake : U128
  sumStake : U128
  sumStakeSquared : U128
  deriving DecidableEq, Repr

namespace ElectionScore

/-- `iter_by_significance`. -/
def iterBySignificance (self : ElectionScore) : List U128 :=
  [self.minimalStake, self.sumStake, self.sumStakeSquared]

/-- `Ord for ElectionScore`: the slices compared lexicographically, with the squared sums swapped, since they are
minimised. -/
def cmp (self other : ElectionScore) : Ordering :=
  compare [self.minimalStake, self.sumStake, other.sumStakeSquared]
    [other.minimalStake, other.sumStake, self.sumStakeSquared]

/-- `strict_threshold_better`: for each component whether it is at least the other's, and its `tcmp` with the band
`threshold.mul_ceil(that)`; then the three accepting patterns of the `match`. -/
def strictThresholdBetter {P : PerThing} (self other : ElectionScore) (threshold : Fraction P)
    (hw : P.bits ≤ 128) : Option Bool := do
  let rows : List (Bool × Ordering) ← (self.iterBySignificance.zip other.iterBySignificance).mapM fun (this, that) => do
    let band ← threshold.mulCeil hw that
    pure (decide (that ≤ this), tcmp this that band)
  pure <| match rows with
    | [(_, .gt), _, _] => true
    | [(true, .eq), (_, .gt), _] => true
    | [(true, .eq), (true, .eq), (_, .lt)] => true
    | _ => false

/-- A score is better: larger minimal stake, then larger sum, then smaller sum of squares. -/
theorem cmp_eq_gt_iff (a b : ElectionScore) :
    a.cmp b = .gt ↔ b.minimalStake.val < a.minimalStake.val ∨
      (a.minimalStake.val = b.minimalStake.val ∧ b.sumStake.val < a.sumStake.val) ∨
      (a.minimalStake.val = b.minimalStake.val ∧ a.sumStake.val = b.sumStake.val ∧
        a.sumStakeSquared.val < b.sumStakeSquared.val) := by
  simp only [cmp, compare, List.compareLex, compareOfLessAndEq]
  split_ifs <;> simp <;> omega

/-- What `strict_threshold_better` accepts with the bands `bm`, `bs`, `bq`: the minimal stake above its band; or within
it from above and the sum above its band; or both within their bands from above and the sum of squares below its band.
-/
def Accepts (a b : ElectionScore) (bm bs bq : Nat) : Prop :=
  b.minimalStake.val + bm < a.minimalStake.val ∨
  (b.minimalStake.val ≤ a.minimalStake.val ∧ a.minimalStake.val ≤ b.minimalStake.val + bm ∧
    b.sumStake.val + bs < a.sumStake.val) ∨
  (b.minimalStake.val ≤ a.minimalStake.val ∧ a.minimalStake.val ≤ b.minimalStake.val + bm ∧
    b.sumStake.val ≤ a.sumStake.val ∧ a.sumStake.val ≤ b.sumStake.val + bs ∧
    a.sumStakeSquared.val + bq < b.sumStakeSquared.val)

instance (a b : ElectionScore) (bm bs bq : Nat) : Decidable (Accepts a b bm bs bq) :=
  inferInstanceAs (Decidable (_ ∨ _ ∨ _))

theorem Accepts.cmp_eq_gt {a b : ElectionScore} {bm bs bq : Nat} (h : Accepts a b bm bs bq) : a.cmp b = .gt := by
  rw [cmp_eq_gt_iff]
  unfold Accepts at h
  omega

theorem Accepts.mono {a b : ElectionScore} {bm bs bq bm' bs' bq' : Nat} (hm : bm' ≤ bm) (hs : bs' ≤ bs)
    (hq : bq' ≤ bq) (h : Accepts a b bm bs bq) : Accepts a b bm' bs' bq' := by
  unfold Accepts at h ⊢
  omega

theorem accepts_zero_iff (a b : ElectionScore) : Accepts a b 0 0 0 ↔ a.cmp b = .gt := by
  rw [cmp_eq_gt_iff]
  unfold Accepts
  omega

/-- The three accepting patterns of `strict_threshold_better`, as a condition on the rows' flags and comparisons;
the last flag is never read. -/
theorem match_rows_iff (g₁ g₂ g₃ : Bool) (o₁ o₂ o₃ : Ordering) :
    (match [(g₁, o₁), (g₂, o₂), (g₃, o₃)] with
      | [(_, .gt), _, _] => true
      | [(true, .eq), (_, .gt), _] => true
      | [(true, .eq), (true, .eq), (_, .lt)] => true
      | _ => false) = true ↔
      o₁ = .gt ∨ (g₁ = true ∧ o₁ = .eq ∧ o₂ = .gt) ∨ (g₁ = true ∧ o₁ = .eq ∧ g₂ = true ∧ o₂ = .eq ∧ o₃ = .lt) := by
  revert g₃
  cases o₁ <;> cases g₁ <;> cases o₂ <;> cases g₂ <;> cases o₃ <;> decide

/-- The three rows of `strict_threshold_better` accept exactly what `Accepts` accepts. -/
theorem match_rows_eq (a b : ElectionScore) (bm bs bq : Fin (2 ^ 128)) :
    (match [(decide (b.minimalStake ≤ a.minimalStake), tcmp a.minimalStake b.minimalStake bm),
        (decide (b.sumStake ≤ a.sumStake), tcmp a.sumStake b.sumStake bs),
        (decide (b.sumStakeSquared ≤ a.sumStakeSquared), tcmp a.sumStakeSquared b.sumStakeSquared bq)] with
      | [(_, .gt), _, _] => true
      | [(true, .eq), (_, .gt), _] => true
      | [(true, .eq), (true, .eq), (_, .lt)] => true
      | _ => false) = decide (Accepts a b bm.val bs.val bq.val) := by
  rw [Bool.eq_iff_iff, match_rows_iff, decide_eq_true_iff]
  simp only [tcmp_eq_gt_iff, tcmp_eq_eq_iff, tcmp_eq_lt_iff, decide_eq_true_eq, Fin.le_def]
  unfold Accepts
  omega

/-- `strict_threshold_better` never panics: every band is the ceiling of the threshold times the other score's
component, and the result is `Accepts` on those bands. -/
theorem strictThresholdBetter_eq {P : PerThing} (hw : P.bits ≤ 128) (a b : ElectionScore) (t : Fraction P) :
    a.strictThresholdBetter b t hw = some (decide (Accepts a b
      (roundDiv .up (b.minimalStake.val * t.parts.val) P.accuracy)
      (roundDiv .up (b.sumStake.val * t.parts.val) P.accuracy)
      (roundDiv .up (b.sumStakeSquared.val * t.parts.val) P.accuracy))) := by
  have hband := fun x => overflowPruneMul_eq P hw x t.parts .up t.le_accuracy
  obtain ⟨bm, hbm, hbmv⟩ := Option.map_eq_some_iff.1 (hband b.minimalStake)
  obtain ⟨bs, hbs, hbsv⟩ := Option.map_eq_some_iff.1 (hband b.sumStake)
  obtain ⟨bq, hbq, hbqv⟩ := Option.map_eq_some_iff.1 (hband b.sumStakeSquared)
  have hmul : ∀ x, t.mulCeil hw x = overflowPruneMul P hw x t.parts .up := fun _ => rfl
  rw [← hbmv, ← hbsv, ← hbqv, ← match_rows_eq a b bm bs bq]
  simp only [strictThresholdBetter, iterBySignificance, List.zip_cons_cons, List.zip_nil_right, List.mapM_cons,
    List.mapM_nil, hmul, hbm, hbs, hbq, Option.bind_eq_bind, Option.bind_some, Option.pure_def]

end ElectionScore

/-- A score `strict_threshold_better` accepts is better than the other; with a zero threshold it accepts exactly
the better scores; a smaller threshold accepts whatever a larger one accepts; and it never panics. -/
theorem strict_threshold_better_sound {P : PerThing} (hw : P.bits ≤ 128) (a b : ElectionScore) (t : Fraction P) :
    (a.strictThresholdBetter b t hw).isSome ∧
    (a.strictThresholdBetter b t hw = some true → a.cmp b = .gt) ∧
    (t.parts.val = 0 → (a.strictThresholdBetter b t hw = some true ↔ a.cmp b = .gt)) ∧
    (∀ t' : Fraction P, t'.parts.val ≤ t.parts.val →
      a.strictThresholdBetter b t hw = some true → a.strictThresholdBetter b t' hw = some true) := by
  have hband : ∀ x : U128, ∀ t' : Fraction P, t'.parts.val ≤ t.parts.val →
      roundDiv .up (x.val * t'.parts.val) P.accuracy ≤ roundDiv .up (x.val * t.parts.val) P.accuracy :=
    fun x t' h => roundDiv_mono .up (Nat.mul_le_mul_left _ h)
  simp only [ElectionScore.strictThresholdBetter_eq, Option.isSome_some, Option.some.injEq, decide_eq_true_eq,
    true_and]
  refine ⟨ElectionScore.Accepts.cmp_eq_gt, fun h0 => ?_, fun t' ht' h => ?_⟩
  · simp only [h0, Nat.mul_zero]
    have hzero : roundDiv .up 0 P.accuracy = 0 := by
      rw [roundDiv_of_dvd _ P.accuracy_pos (Nat.dvd_zero _), Nat.zero_div]
    rw [hzero]
    exact ElectionScore.accepts_zero_iff a b
  · exact h.mono (hband _ t' ht') (hband _ t' ht') (hband _ t' ht')

theorem strict_threshold_better_sound_perbill : perbill.bits ≤ 128 ∧
    ((ElectionScore.mk 5 10 20).strictThresholdBetter ⟨3, 10, 30⟩
      (⟨⟨100000000, by decide⟩, by decide⟩ : Fraction perbill) (by decide)).isSome ∧
    ((ElectionScore.mk 5 10 20).strictThresholdBetter ⟨3, 10, 30⟩
      (⟨⟨100000000, by decide⟩, by decide⟩ : Fraction perbill) (by decide) = some true →
      (ElectionScore.mk 5 10 20).cmp ⟨3, 10, 30⟩ = .gt) ∧
    (100000000 = 0 → ((ElectionScore.mk 5 10 20).strictThresholdBetter ⟨3, 10, 30⟩
      (⟨⟨100000000, by decide⟩, by decide⟩ : Fraction perbill) (by decide) = some true ↔
      (ElectionScore.mk 5 10 20).cmp ⟨3, 10, 30⟩ = .gt)) ∧
    (∀ t' : Fraction perbill, t'.parts.val ≤ 100000000 →
      (ElectionScore.mk 5 10 20).strictThresholdBetter ⟨3, 10, 30⟩
        (⟨⟨100000000, by decide⟩, by decide⟩ : Fraction perbill) (by decide) = some true →
      (ElectionScore.mk 5 10 20).strictThresholdBetter ⟨3, 10, 30⟩ t' (by decide) = some true) :=
  ⟨by decide, strict_threshold_better_sound (P := perbill) (by decide) ⟨5, 10, 20⟩ ⟨3, 10, 30⟩
    ⟨⟨100000000, by decide⟩, by decide⟩⟩

end CoreChain.Npos

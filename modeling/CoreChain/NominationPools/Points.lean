import CoreChain.Lib.Word
import CoreChain.Lib.Machine
import Mathlib

/-!
# Points and balances of nomination pools

`substrate/frame/nomination-pools/src/lib.rs` accounts a pool's stake in points: `Pallet::balance_to_point` gives
the points of new funds, `Pallet::point_to_balance` the balance of some points, both at the pool's rate of balance
per point, with a rate of `1` in a pool without points and `points` per unit in a pool slashed to nothing. An
`UnbondPool` keeps its balance and points; `issue` adds funds and their points, `dissolve` takes points and their
balance out. A `BondedPool` keeps its points only, and reads its balance, the active stake of its bonded account,
from the staking side, which the caller then bonds or unbonds: its calls are those of an unbond pool over the pair
(`BondedPool.issue_eq`, `BondedPool.dissolve_eq`).

The balance is `w` bits wide, the products are taken in `U256` (`w ≤ 128`, so they never saturate) and brought back
by `U256ToBalance`, which keeps every value that fits.

Dissolving never raises the rate of the points that remain, and issuing does not either while the balance does not
saturate and no balance sits in a pool without points (`dissolve_keeps_rate`, `issue_keeps_rate`); points issued and
dissolved at once give back at most their funds where issuing does not saturate either (`dissolve_issue_le`); and
along any run, dissolving at most the points there are, the balance taken out never exceeds the initial balance and
the funds put in (`removed_le_of_reach`). A pool with balance and no points, which no run from an empty pool reaches
(`Ledger.noStrayBalance`), gives its whole balance to the first points issued, and a saturating balance lowers the
rate (`issue_into_pool_without_points`).
-/

namespace CoreChain.NominationPools

open CoreChain.Word (saturatingAdd saturatingSub saturatingMul)

variable {w : Nat}

/-- `POINTS_TO_BALANCE_INIT_RATIO`. -/
def pointsToBalanceInitRatio : Nat := 1

/-- `U256::saturating_mul` of two balances made `U256` by `BalanceToU256`. -/
def u256SaturatingMul (a b : Nat) : Nat :=
  min (a * b) (2 ^ 256 - 1)

/-- `U256ToBalance` of the Polkadot runtimes: `try_into`, or `Balance::MAX` where the value does not fit. -/
def u256ToBalanceSaturating (n : Nat) : Fin (2 ^ w) :=
  ⟨min n (2 ^ w - 1), by have := Nat.two_pow_pos w; omega⟩

section Convert

variable (u256ToBalance : Nat → Fin (2 ^ w))

/-- `Pallet::balance_to_point`. -/
def balanceToPoint (currentBalance currentPoints newFunds : Fin (2 ^ w)) : Fin (2 ^ w) :=
  if currentPoints = 0 then saturatingMul newFunds (Fin.ofNat _ pointsToBalanceInitRatio)
  -- the pool was totally slashed
  else if currentBalance = 0 then saturatingMul newFunds currentPoints
  else u256ToBalance (u256SaturatingMul currentPoints.val newFunds.val / currentBalance.val)

/-- `Pallet::point_to_balance`. -/
def pointToBalance (currentBalance currentPoints points : Fin (2 ^ w)) : Fin (2 ^ w) :=
  if currentBalance = 0 ∨ currentPoints = 0 ∨ points = 0 then 0
  else u256ToBalance (u256SaturatingMul currentBalance.val points.val / currentPoints.val)

/-- `UnbondPool`. -/
structure UnbondPool (w : Nat) where
  points : Fin (2 ^ w)
  balance : Fin (2 ^ w)
  deriving DecidableEq, Repr

namespace UnbondPool

/-- `UnbondPool::issue`: the pool after it, and the points issued. -/
def issue (pool : UnbondPool w) (newFunds : Fin (2 ^ w)) : UnbondPool w × Fin (2 ^ w) :=
  let newPoints := balanceToPoint u256ToBalance pool.balance pool.points newFunds
  (⟨saturatingAdd pool.points newPoints, saturatingAdd pool.balance newFunds⟩, newPoints)

/-- `UnbondPool::dissolve`: the pool after it, and the balance taken out. -/
def dissolve (pool : UnbondPool w) (points : Fin (2 ^ w)) : UnbondPool w × Fin (2 ^ w) :=
  let balanceToUnbond := pointToBalance u256ToBalance pool.balance pool.points points
  (⟨saturatingSub pool.points points, saturatingSub pool.balance balanceToUnbond⟩, balanceToUnbond)

end UnbondPool

/-- The points of a `BondedPool`; its balance is the active stake of its bonded account. -/
structure BondedPool (w : Nat) where
  points : Fin (2 ^ w)
  deriving DecidableEq, Repr

namespace BondedPool

/-- `BondedPool::issue` at the active stake `activeStake`. -/
def issue (activeStake : Fin (2 ^ w)) (pool : BondedPool w) (newFunds : Fin (2 ^ w)) : BondedPool w × Fin (2 ^ w) :=
  let pointsToIssue := balanceToPoint u256ToBalance activeStake pool.points newFunds
  (⟨saturatingAdd pool.points pointsToIssue⟩, pointsToIssue)

/-- `BondedPool::dissolve` at the active stake `activeStake`. -/
def dissolve (activeStake : Fin (2 ^ w)) (pool : BondedPool w) (points : Fin (2 ^ w)) : BondedPool w × Fin (2 ^ w) :=
  let balance := pointToBalance u256ToBalance activeStake pool.points points
  (⟨saturatingSub pool.points points⟩, balance)

/-- Issuing into a bonded pool whose stake is then bonded with the funds is issuing into an unbond pool. -/
theorem issue_eq (activeStake : Fin (2 ^ w)) (pool : BondedPool w) (newFunds : Fin (2 ^ w)) :
    UnbondPool.issue u256ToBalance ⟨pool.points, activeStake⟩ newFunds =
      (⟨(pool.issue u256ToBalance activeStake newFunds).1.points, saturatingAdd activeStake newFunds⟩,
        (pool.issue u256ToBalance activeStake newFunds).2) :=
  rfl

/-- Dissolving from a bonded pool whose stake is then unbonded by the balance is dissolving from an unbond pool. -/
theorem dissolve_eq (activeStake : Fin (2 ^ w)) (pool : BondedPool w) (points : Fin (2 ^ w)) :
    UnbondPool.dissolve u256ToBalance ⟨pool.points, activeStake⟩ points =
      (⟨(pool.dissolve u256ToBalance activeStake points).1.points,
        saturatingSub activeStake (pool.dissolve u256ToBalance activeStake points).2⟩,
        (pool.dissolve u256ToBalance activeStake points).2) :=
  rfl

end BondedPool

end Convert

/-! ## The two conversions -/

/-- Products of balances of at most 128 bits do not saturate in `U256`. -/
theorem u256SaturatingMul_eq (hw : w ≤ 128) (a b : Fin (2 ^ w)) : u256SaturatingMul a.val b.val = a.val * b.val := by
  have hpow : 2 ^ w ≤ 2 ^ 128 := Nat.pow_le_pow_right Nat.two_pos hw
  have hprod : a.val * b.val < 2 ^ 128 * 2 ^ 128 :=
    Nat.mul_lt_mul'' (Nat.lt_of_lt_of_le a.isLt hpow) (Nat.lt_of_lt_of_le b.isLt hpow)
  have h256 : (2 : Nat) ^ 128 * 2 ^ 128 = 2 ^ 256 := by rw [← Nat.pow_add]
  unfold u256SaturatingMul
  omega

theorem val_u256ToBalanceSaturating_of_lt {n : Nat} (h : n < 2 ^ w) :
    (u256ToBalanceSaturating n : Fin (2 ^ w)).val = n := by
  simp only [u256ToBalanceSaturating]
  omega

/-- `B * p / P ≤ B` for `p ≤ P`: some of the points are worth at most the balance. -/
theorem mul_div_le_of_le {B p P : Nat} (hp : p ≤ P) : B * p / P ≤ B :=
  Nat.div_le_of_le_mul (by rw [Nat.mul_comm P B]; exact Nat.mul_le_mul_left B hp)

/-- Dissolving the `⌊P f / B⌋` points issued for `f` into a pool of `B` and `P` gives back at most `f`. -/
theorem issued_share_le {B P f B' : Nat} (hB' : B' ≤ B + f) : B' * (P * f / B) / (P + P * f / B) ≤ f := by
  apply Nat.div_le_of_le_mul
  have hfloor : B * (P * f / B) ≤ P * f := Nat.mul_div_le (P * f) B
  calc B' * (P * f / B) ≤ (B + f) * (P * f / B) := Nat.mul_le_mul_right _ hB'
    _ = B * (P * f / B) + f * (P * f / B) := Nat.add_mul _ _ _
    _ ≤ P * f + f * (P * f / B) := Nat.add_le_add_right hfloor _
    _ = (P + P * f / B) * f := by ring

section Exact

variable {u256ToBalance : Nat → Fin (2 ^ w)}

/-- In a pool without points, funds get one point a unit. -/
theorem val_balanceToPoint_points_zero (hw0 : 0 < w) (B f : Fin (2 ^ w)) :
    (balanceToPoint u256ToBalance B 0 f).val = f.val := by
  have hone : (Fin.ofNat (2 ^ w) pointsToBalanceInitRatio).val = 1 :=
    Nat.mod_eq_of_lt (Nat.one_lt_two_pow (Nat.pos_iff_ne_zero.1 hw0))
  have hf := f.isLt
  simp only [balanceToPoint, if_true, Word.val_saturatingMul, hone, Nat.mul_one]
  omega

/-- Otherwise funds get points at the pool's rate, rounded down, where that fits. -/
theorem val_balanceToPoint (hw : w ≤ 128) (hconv : ∀ n, n < 2 ^ w → (u256ToBalance n).val = n)
    {B P : Fin (2 ^ w)} (hB : B ≠ 0) (hP : P ≠ 0) (f : Fin (2 ^ w)) (hfit : P.val * f.val / B.val < 2 ^ w) :
    (balanceToPoint u256ToBalance B P f).val = P.val * f.val / B.val := by
  simp only [balanceToPoint, hB, hP, if_false, u256SaturatingMul_eq hw]
  exact hconv _ hfit

/-- Funds never get more points than the pool's rate gives. -/
theorem val_balanceToPoint_le (hw : w ≤ 128) (hconv : ∀ n, n < 2 ^ w → (u256ToBalance n).val = n)
    {B P : Fin (2 ^ w)} (hB : B ≠ 0) (hP : P ≠ 0) (f : Fin (2 ^ w)) :
    (balanceToPoint u256ToBalance B P f).val ≤ P.val * f.val / B.val := by
  by_cases hfit : P.val * f.val / B.val < 2 ^ w
  · exact (val_balanceToPoint hw hconv hB hP f hfit).le
  · exact Nat.le_of_lt (Nat.lt_of_lt_of_le (Fin.isLt _) (Nat.le_of_not_lt hfit))

/-- Points are worth the pool's balance per point, rounded down. -/
theorem val_pointToBalance (hw : w ≤ 128) (hconv : ∀ n, n < 2 ^ w → (u256ToBalance n).val = n)
    {B P p : Fin (2 ^ w)} (hp : p ≤ P) : (pointToBalance u256ToBalance B P p).val = B.val * p.val / P.val := by
  have hle : B.val * p.val / P.val ≤ B.val := mul_div_le_of_le (Fin.le_iff_val_le_val.1 hp)
  unfold pointToBalance
  split
  · rename_i hzero
    rcases hzero with rfl | rfl | rfl <;> simp
  · rw [u256SaturatingMul_eq hw, hconv _ (Nat.lt_of_le_of_lt hle B.isLt)]

/-! ## Issue and dissolve -/

namespace UnbondPool

/-- Dissolving at most the points of the pool never raises the rate of the points that remain:
`B'·P ≥ B·P'`. -/
theorem dissolve_keeps_rate (hw : w ≤ 128) (hconv : ∀ n, n < 2 ^ w → (u256ToBalance n).val = n)
    (pool : UnbondPool w) {p : Fin (2 ^ w)} (hp : p ≤ pool.points) :
    pool.balance.val * (pool.dissolve u256ToBalance p).1.points.val ≤
      (pool.dissolve u256ToBalance p).1.balance.val * pool.points.val := by
  have hb := @val_pointToBalance w u256ToBalance hw hconv pool.balance pool.points p hp
  have hfloor : pool.balance.val * p.val / pool.points.val * pool.points.val ≤ pool.balance.val * p.val :=
    Nat.div_mul_le_self _ _
  simp only [dissolve, Word.val_saturatingSub, hb, Nat.mul_sub, Nat.sub_mul]
  exact Nat.sub_le_sub_left hfloor _

/-- Issuing does not raise the rate either, while the balance does not saturate and no balance sits in a pool
without points. -/
theorem issue_keeps_rate (hw : w ≤ 128) (hconv : ∀ n, n < 2 ^ w → (u256ToBalance n).val = n)
    (pool : UnbondPool w) (f : Fin (2 ^ w)) (hempty : pool.points = 0 → pool.balance = 0)
    (hsum : pool.balance.val + f.val < 2 ^ w) :
    pool.balance.val * (pool.issue u256ToBalance f).1.points.val ≤
      (pool.issue u256ToBalance f).1.balance.val * pool.points.val := by
  by_cases hB : pool.balance = 0
  · simp [hB]
  have hP : pool.points ≠ 0 := fun h => hB (hempty h)
  have hq := val_balanceToPoint_le hw hconv hB hP f
  have hfloor : pool.balance.val * (pool.points.val * f.val / pool.balance.val) ≤ pool.points.val * f.val :=
    Nat.mul_div_le _ _
  have hpoints : (pool.issue u256ToBalance f).1.points.val ≤
      pool.points.val + (balanceToPoint u256ToBalance pool.balance pool.points f).val := by
    simp only [issue, Word.val_saturatingAdd]
    omega
  have hbalance : (pool.issue u256ToBalance f).1.balance.val = pool.balance.val + f.val := by
    simp only [issue, Word.val_saturatingAdd]
    omega
  rw [hbalance]
  calc pool.balance.val * (pool.issue u256ToBalance f).1.points.val
      ≤ pool.balance.val * (pool.points.val + pool.points.val * f.val / pool.balance.val) :=
        Nat.mul_le_mul_left _ (Nat.le_trans hpoints (Nat.add_le_add_left hq _))
    _ ≤ pool.balance.val * pool.points.val + pool.points.val * f.val := by
        rw [Nat.mul_add]
        exact Nat.add_le_add_left hfloor _
    _ = (pool.balance.val + f.val) * pool.points.val := by ring

/-- Points issued for `f` and dissolved at once give back at most `f`, where no balance sits in a pool without
points and the points issued and the new total fit. -/
theorem dissolve_issue_le (hw : w ≤ 128) (hconv : ∀ n, n < 2 ^ w → (u256ToBalance n).val = n)
    (pool : UnbondPool w) (f : Fin (2 ^ w)) (hempty : pool.points = 0 → pool.balance = 0)
    (hfit : pool.points.val + pool.points.val * f.val / pool.balance.val < 2 ^ w) :
    ((pool.issue u256ToBalance f).1.dissolve u256ToBalance (pool.issue u256ToBalance f).2).2.val ≤ f.val := by
  -- the points issued are at most the new total
  have hle : (pool.issue u256ToBalance f).2 ≤ (pool.issue u256ToBalance f).1.points :=
    Fin.le_iff_val_le_val.2 (Word.le_val_saturatingAdd_right _ _)
  simp only [dissolve]
  rw [@val_pointToBalance w u256ToBalance hw hconv _ _ _ hle]
  by_cases hB : pool.balance = 0
  · -- then they are worth at most the new balance, which is the funds
    have hB0 : pool.balance.val = 0 := by simp [hB]
    have hB' : (pool.issue u256ToBalance f).1.balance.val ≤ f.val := by
      show (saturatingAdd pool.balance f).val ≤ f.val
      rw [Word.val_saturatingAdd, hB0]
      omega
    exact Nat.le_trans (mul_div_le_of_le (Fin.le_iff_val_le_val.1 hle)) hB'
  · have hP : pool.points ≠ 0 := fun h => hB (hempty h)
    have hq : (balanceToPoint u256ToBalance pool.balance pool.points f).val =
        pool.points.val * f.val / pool.balance.val :=
      val_balanceToPoint hw hconv hB hP f (by omega)
    have hpoints : (pool.issue u256ToBalance f).1.points.val =
        pool.points.val + pool.points.val * f.val / pool.balance.val := by
      simp only [issue, Word.val_saturatingAdd, hq]
      omega
    have hbalance : (pool.issue u256ToBalance f).1.balance.val ≤ pool.balance.val + f.val := by
      simp only [issue, Word.val_saturatingAdd]
      omega
    rw [hpoints, show (pool.issue u256ToBalance f).2.val = _ from hq]
    exact issued_share_le hbalance

end UnbondPool

end Exact

/-! ## Runs of calls on an unbond pool -/

/-- A call on an unbond pool. -/
inductive Call (w : Nat)
  | issue (newFunds : Fin (2 ^ w))
  | dissolve (points : Fin (2 ^ w))
  deriving DecidableEq, Repr

/-- An unbond pool with the funds issued into it and the balance dissolved out of it so far. -/
structure Ledger (w : Nat) where
  pool : UnbondPool w
  issued : Nat
  removed : Nat
  deriving DecidableEq, Repr

namespace Ledger

/-- The ledger of a pool before any call. -/
def start (pool : UnbondPool w) : Ledger w :=
  ⟨pool, 0, 0⟩

/-- One call, with what it adds to the funds issued or the balance removed. -/
def step (u256ToBalance : Nat → Fin (2 ^ w)) (l : Ledger w) : Call w → Ledger w
  | .issue newFunds => ⟨(l.pool.issue u256ToBalance newFunds).1, l.issued + newFunds.val, l.removed⟩
  | .dissolve points =>
    ⟨(l.pool.dissolve u256ToBalance points).1, l.issued, l.removed + (l.pool.dissolve u256ToBalance points).2.val⟩

/-- The calls the pallet makes: a member dissolves at most the points of the pool. -/
def Allowed (l : Ledger w) : Call w → Prop
  | .issue _ => True
  | .dissolve points => points ≤ l.pool.points

variable {u256ToBalance : Nat → Fin (2 ^ w)}

/-- A call keeps the balance removed and the balance left within the balance there was and the funds put in. -/
theorem step_removed_le (hw : w ≤ 128) (hconv : ∀ n, n < 2 ^ w → (u256ToBalance n).val = n) (l : Ledger w)
    {c : Call w} (hc : l.Allowed c) :
    (l.step u256ToBalance c).removed + (l.step u256ToBalance c).pool.balance.val ≤
      l.removed + l.pool.balance.val + ((l.step u256ToBalance c).issued - l.issued) := by
  cases c with
  | issue f =>
    simp only [step, UnbondPool.issue, Word.val_saturatingAdd]
    omega
  | dissolve p =>
    have hb := @val_pointToBalance w u256ToBalance hw hconv l.pool.balance l.pool.points p hc
    have hle : l.pool.balance.val * p.val / l.pool.points.val ≤ l.pool.balance.val :=
      mul_div_le_of_le (Fin.le_iff_val_le_val.1 hc)
    simp only [step, UnbondPool.dissolve, Word.val_saturatingSub, hb]
    omega

/-- Along any run the balance removed never exceeds the initial balance and the funds issued. -/
theorem removed_le_of_reach (hw : w ≤ 128) (hconv : ∀ n, n < 2 ^ w → (u256ToBalance n).val = n)
    {pool : UnbondPool w} {l : Ledger w} (h : Reach (start pool) (step u256ToBalance) Allowed l) :
    l.removed ≤ pool.balance.val + l.issued := by
  have hinv : l.removed + l.pool.balance.val ≤ pool.balance.val + l.issued := by
    refine Reach.invariant (P := fun l : Ledger w => l.removed + l.pool.balance.val ≤ pool.balance.val + l.issued)
      (by simp [start]) ?_ h
    intro l c hl hc
    have hstep := step_removed_le hw hconv l hc
    have hissued : l.issued ≤ (l.step u256ToBalance c).issued := by
      cases c <;> simp [step]
    omega
  omega

/-- No run from an empty pool leaves balance in a pool without points. -/
theorem noStrayBalance (hw0 : 0 < w) (hw : w ≤ 128) (hconv : ∀ n, n < 2 ^ w → (u256ToBalance n).val = n)
    {l : Ledger w}
    (h : Reach (start ⟨0, 0⟩) (step u256ToBalance) Allowed l) : l.pool.points = 0 → l.pool.balance = 0 := by
  refine Reach.invariant (P := fun l : Ledger w => l.pool.points = 0 → l.pool.balance = 0) (fun _ => rfl) ?_ h
  intro l c hl hc hzero
  have hzero' := congrArg Fin.val hzero
  cases c with
  | issue f =>
    -- the new total is `0` only if there were no points and no funds
    have hpow : 1 < 2 ^ w := Nat.one_lt_two_pow (Nat.pos_iff_ne_zero.1 hw0)
    simp only [step, UnbondPool.issue, Word.val_saturatingAdd, Fin.val_zero] at hzero'
    have hP : l.pool.points = 0 := Fin.ext (by simp only [Fin.val_zero]; omega)
    have hq := @val_balanceToPoint_points_zero w u256ToBalance hw0 l.pool.balance f
    rw [hP] at hzero'
    apply Fin.ext
    simp only [step, UnbondPool.issue, Word.val_saturatingAdd, hl hP, Fin.val_zero]
    omega
  | dissolve p =>
    -- all the points were dissolved, and with them the whole balance
    have hb := @val_pointToBalance w u256ToBalance hw hconv l.pool.balance l.pool.points p hc
    have hp := Fin.le_iff_val_le_val.1 hc
    simp only [step, UnbondPool.dissolve, Word.val_saturatingSub, Fin.val_zero] at hzero'
    apply Fin.ext
    simp only [step, UnbondPool.dissolve, Word.val_saturatingSub, hb, Fin.val_zero]
    by_cases hP : l.pool.points = 0
    · simp [hl hP]
    · have hpos : 0 < l.pool.points.val := Nat.pos_of_ne_zero (Fin.val_ne_iff.2 hP)
      rw [show p.val = l.pool.points.val by omega, Nat.mul_div_cancel _ hpos, Nat.sub_self]

end Ledger

/-! ## The accounting never favours the caller -/

/-- Points issued and dissolved at once give back at most their funds, where no balance sits in a pool without points
and issuing does not saturate; dissolving at most the points there never raises the rate of the rest, nor does issuing
without saturation; along any run the balance removed is at most the initial balance and the funds issued. -/
def NeverFavoursCaller (u256ToBalance : Nat → Fin (2 ^ w)) : Prop :=
  (∀ (pool : UnbondPool w) (f : Fin (2 ^ w)), (pool.points = 0 → pool.balance = 0) →
      pool.points.val + pool.points.val * f.val / pool.balance.val < 2 ^ w →
      ((pool.issue u256ToBalance f).1.dissolve u256ToBalance (pool.issue u256ToBalance f).2).2.val ≤ f.val) ∧
  (∀ (pool : UnbondPool w) (p : Fin (2 ^ w)), p ≤ pool.points →
      pool.balance.val * (pool.dissolve u256ToBalance p).1.points.val ≤
        (pool.dissolve u256ToBalance p).1.balance.val * pool.points.val) ∧
  (∀ (pool : UnbondPool w) (f : Fin (2 ^ w)), (pool.points = 0 → pool.balance = 0) →
      pool.balance.val + f.val < 2 ^ w →
      pool.balance.val * (pool.issue u256ToBalance f).1.points.val ≤
        (pool.issue u256ToBalance f).1.balance.val * pool.points.val) ∧
  (∀ (pool : UnbondPool w) (l : Ledger w),
      Reach (Ledger.start pool) (Ledger.step u256ToBalance) Ledger.Allowed l →
        l.removed ≤ pool.balance.val + l.issued)

/-- The accounting never favours the caller; no run from an empty pool leaves balance in a pool without points; and a
bonded pool whose stake is bonded or unbonded by what its calls return is an unbond pool over its points and stake,
so that the same holds of it. -/
theorem pool_points_never_favour_caller (hw : w ≤ 128) (u256ToBalance : Nat → Fin (2 ^ w))
    (hconv : ∀ n, n < 2 ^ w → (u256ToBalance n).val = n) :
    NeverFavoursCaller u256ToBalance ∧
      (∀ l : Ledger w, Reach (Ledger.start ⟨0, 0⟩) (Ledger.step u256ToBalance) Ledger.Allowed l →
        l.pool.points = 0 → l.pool.balance = 0) ∧
      (∀ (activeStake : Fin (2 ^ w)) (pool : BondedPool w) (newFunds : Fin (2 ^ w)),
        UnbondPool.issue u256ToBalance ⟨pool.points, activeStake⟩ newFunds =
          (⟨(pool.issue u256ToBalance activeStake newFunds).1.points, saturatingAdd activeStake newFunds⟩,
            (pool.issue u256ToBalance activeStake newFunds).2)) ∧
      ∀ (activeStake : Fin (2 ^ w)) (pool : BondedPool w) (points : Fin (2 ^ w)),
        UnbondPool.dissolve u256ToBalance ⟨pool.points, activeStake⟩ points =
          (⟨(pool.dissolve u256ToBalance activeStake points).1.points,
            saturatingSub activeStake (pool.dissolve u256ToBalance activeStake points).2⟩,
            (pool.dissolve u256ToBalance activeStake points).2) := by
  refine ⟨⟨fun pool f hempty hfit => UnbondPool.dissolve_issue_le hw hconv pool f hempty hfit,
    fun pool _ hp => UnbondPool.dissolve_keeps_rate hw hconv pool hp,
    fun pool f hempty hsum => UnbondPool.issue_keeps_rate hw hconv pool f hempty hsum,
    fun _ _ h => Ledger.removed_le_of_reach hw hconv h⟩, fun l h => ?_, BondedPool.issue_eq u256ToBalance,
    BondedPool.dissolve_eq u256ToBalance⟩
  -- a balance of no bits is always `0`
  rcases Nat.eq_zero_or_pos w with rfl | hw0
  · exact fun _ => Fin.ext (by omega)
  · exact Ledger.noStrayBalance hw0 hw hconv h

theorem pool_points_never_favour_caller_u128 :
    NeverFavoursCaller (@u256ToBalanceSaturating 128) ∧
      ∀ l : Ledger 128, Reach (Ledger.start ⟨0, 0⟩) (Ledger.step u256ToBalanceSaturating) Ledger.Allowed l →
        l.pool.points = 0 → l.pool.balance = 0 :=
  let h := pool_points_never_favour_caller (Nat.le_refl 128) _ fun _ hn => val_u256ToBalanceSaturating_of_lt hn
  ⟨h.1, h.2.1⟩

/-- A pool holding balance without points gives it to the first points issued: one unit issued and dissolved at once
gives back two, and the rate of the remaining points rises from nothing. A saturating balance lowers the rate: issuing
`u128::MAX` into a pool of one point and `u128::MAX` doubles the points and keeps the balance. -/
theorem issue_into_pool_without_points :
    UnbondPool.issue (@u256ToBalanceSaturating 128) ⟨0, 1⟩ 1 = (⟨1, 2⟩, 1) ∧
      UnbondPool.dissolve (@u256ToBalanceSaturating 128) ⟨1, 2⟩ 1 = (⟨0, 0⟩, 2) ∧
      UnbondPool.issue (@u256ToBalanceSaturating 128) ⟨1, Word.max 128⟩ (Word.max 128) =
        (⟨2, Word.max 128⟩, 1) := by
  decide

end CoreChain.NominationPools

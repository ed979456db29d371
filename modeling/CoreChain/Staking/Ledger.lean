import CoreChain.Arith.PerThing

/-!
# The staking ledger

`StakingLedger` of `pallet-staking` (`lib.rs`): the `active` bond, the `unlocking` chunks in increasing era order,
and their `total`. Balances are `u128` and eras `u32`; `+` and `-` are those of a release build, which wrap, and the
saturating and defensive operations saturate (`CoreChain.Word`).

Every operation keeps the balance equation `total = active + Σ unlocking` (`Balanced`), and under it no addition
wraps. The loops of `rebond` and `update_total_stake` work on the last chunk, the most recent one: the model runs
them on the chunks from the last one back (`rebondFromLast`, `withdrawFromLast`). Each takes whole chunks while they
fit and then part of one, so what is left is a prefix of the chunks with possibly its last one lowered
(`TakenFromLast`).
-/

namespace CoreChain.Staking

open Arith Word

/-- `UnlockChunk`: a value that becomes free at an era. -/
structure UnlockChunk where
  value : U128
  era : Fin (2 ^ 32)
  deriving DecidableEq

/-- `StakingLedger`: the fields its operations read and write. -/
structure StakingLedger where
  total : U128
  active : U128
  unlocking : List UnlockChunk
  deriving DecidableEq

/-- The sum of the chunks' values. -/
def unlockingSum (chunks : List UnlockChunk) : Nat :=
  (chunks.map fun c => c.value.val).sum

/-- The balance equation of a ledger. -/
def StakingLedger.Balanced (l : StakingLedger) : Prop :=
  l.total.val = l.active.val + unlockingSum l.unlocking

instance : DecidablePred StakingLedger.Balanced := fun l =>
  inferInstanceAs (Decidable (l.total.val = l.active.val + unlockingSum l.unlocking))

/-! ## The model -/

/-- `consolidate_unlocked`: the chunks of eras up to `current_era` go, and their values leave `total`. -/
def consolidateUnlocked (self : StakingLedger) (currentEra : Fin (2 ^ 32)) : StakingLedger :=
  let r := self.unlocking.foldl (fun (acc : U128 × List UnlockChunk) chunk =>
    if currentEra < chunk.era then (acc.1, acc.2 ++ [chunk]) else (saturatingSub acc.1 chunk.value, acc.2))
    (self.total, [])
  { self with total := r.1, unlocking := r.2 }

/-- The loop of `update_total_stake` over the chunks from the last: a chunk that fits what is still to withdraw goes
whole; otherwise the rest is taken from it, after which `withdrawn ≥ to_withdraw` holds and the loop stops
(`le_add_saturatingSub`). -/
def withdrawFromLast (toWithdraw : U128) : U128 → List UnlockChunk → List UnlockChunk
  | _, [] => []
  | withdrawn, last :: rest =>
    if (saturatingAdd withdrawn last.value).val ≤ toWithdraw.val then
      if toWithdraw ≤ withdrawn + last.value then rest
      else withdrawFromLast toWithdraw (withdrawn + last.value) rest
    else
      { last with value := last.value - saturatingSub toWithdraw withdrawn } :: rest

/-- `update_total_stake`: `total` becomes `new_total`, and the difference is taken from `active`, then from the
chunks from the last one back. -/
def updateTotalStake (self : StakingLedger) (newTotal : U128) : StakingLedger :=
  let toWithdraw := saturatingSub self.total newTotal
  if toWithdraw ≤ self.active then { self with total := newTotal, active := self.active - toWithdraw }
  else
    { self with
      total := newTotal
      active := 0
      unlocking := (withdrawFromLast toWithdraw self.active self.unlocking.reverse).reverse }

/-- The loop of `rebond`, on the chunks from the last one back, with the amount rebonded so far and `active`. -/
def rebondFromLast (value : U128) : U128 × U128 → List UnlockChunk → U128 × U128 × List UnlockChunk
  | (rebonded, active), [] => (rebonded, active, [])
  | (rebonded, active), last :: rest =>
    if (saturatingAdd rebonded last.value).val ≤ value.val then
      if value ≤ rebonded + last.value then (rebonded + last.value, active + last.value, rest)
      else rebondFromLast value (rebonded + last.value, active + last.value) rest
    else
      let diff := saturatingSub value rebonded
      (rebonded + diff, active + diff, { last with value := last.value - diff } :: rest)

/-- `rebond`: the updated ledger and the amount rebonded. -/
def rebond (self : StakingLedger) (value : U128) : StakingLedger × U128 :=
  let r := rebondFromLast value (0, self.active) self.unlocking.reverse
  ({ self with active := r.2.1, unlocking := r.2.2.reverse }, r.1)

theorem perquintill_bits_le : perquintill.bits ≤ 128 := by decide

section Slash

variable (minimumBalance : U128)

/-- The end of `slash_out_of`, once `slash_from_target` is known: the target loses it and goes whole if what is left
is dust; `total` and what remains to slash lose what was taken. The triple is the target, what remains, `total`. -/
def slashTarget (target slashFromTarget slashRemaining total : U128) : U128 × U128 × U128 :=
  let target := target - slashFromTarget
  if target < minimumBalance then
    let slashFromTarget := saturatingAdd target slashFromTarget
    (0, saturatingSub slashRemaining slashFromTarget, saturatingSub total slashFromTarget)
  else (target, saturatingSub slashRemaining slashFromTarget, saturatingSub total slashFromTarget)

/-- What `slash_out_of` asks of a target before the caps: `ratio.mul_ceil(target)` in a proportional slash, all that
remains otherwise. -/
def slashWanted (maybeProportional : Option (Fraction perquintill)) (target slashRemaining : U128) : Option U128 :=
  match maybeProportional with
  | some ratio => ratio.mulCeil perquintill_bits_le target
  | none => some slashRemaining

/-- `slash_out_of`: what it asks of the target, capped by the target and by what remains. -/
def slashOutOf (maybeProportional : Option (Fraction perquintill)) (target slashRemaining total : U128) :
    Option (U128 × U128 × U128) := do
  let wanted ← slashWanted maybeProportional target slashRemaining
  pure (slashTarget minimumBalance target (Min.min (Min.min wanted target) slashRemaining) slashRemaining total)

/-- The loop over `slash_chunks_priority`, with the chunks, what remains to slash and `total`: it stops once nothing
remains, or at an index with no chunk. -/
def slashChunks (maybeProportional : Option (Fraction perquintill)) :
    List Nat → List UnlockChunk × U128 × U128 → Option (List UnlockChunk × U128 × U128)
  | [], st => some st
  | i :: priority, (unlocking, slashRemaining, total) =>
    if slashRemaining = 0 then some (unlocking, slashRemaining, total)
    else
      match unlocking[i]? with
      | none => some (unlocking, slashRemaining, total)
      | some chunk => do
        let (value, slashRemaining, total) ← slashOutOf minimumBalance maybeProportional chunk.value slashRemaining total
        slashChunks maybeProportional priority (unlocking.set i { chunk with value }, slashRemaining, total)

end Slash

/-- A step of the fold of `unbonding_affected_balance`: the chunk at `i`, if there is one, is added. -/
def addChunkAt (unlocking : List UnlockChunk) (sum : U128) (i : Nat) : U128 :=
  match unlocking[i]? with
  | some chunk => saturatingAdd sum chunk.value
  | none => sum

/-- `(maybe_proportional, slash_chunks_priority)`: proportional, with ratio `slash_amount / affected_balance` rounded
up, if a chunk unlocks at `slashable_chunks_start` or later; then the chunks from the first such one on come first, and
the older ones after them, newest first. -/
def slashPlan (self : StakingLedger) (slashAmount : U128) (slashableChunksStart : Fin (2 ^ 32)) :
    Option (Fraction perquintill) × List Nat :=
  match self.unlocking.findIdx? (fun c => decide (slashableChunksStart ≤ c.era)) with
  | some firstSlashableIndex =>
    let affectedIndices := List.range' firstSlashableIndex (self.unlocking.length - firstSlashableIndex)
    let unbondingAffectedBalance := affectedIndices.foldl (addChunkAt self.unlocking) 0
    let affectedBalance := saturatingAdd self.active unbondingAffectedBalance
    let ratio := match fromRationalWithRounding perquintill RationalArg.u128 perquintill_bits_le slashAmount
        affectedBalance .up with
      | .ok ratio => ratio
      | .error () => Fraction.one
    (some ratio, affectedIndices ++ (List.range firstSlashableIndex).reverse)
  | none => (none, (List.range self.unlocking.length).reverse)

/-- `slash`: the slashed ledger and the amount slashed, `pre_slash_total - total`. The slash starts from `active`,
goes through the chunks in the order of `slashPlan`, and then drops the chunks that are zero. -/
def slash (self : StakingLedger) (slashAmount minimumBalance : U128) (slashEra bondingDuration : Fin (2 ^ 32)) :
    Option (StakingLedger × U128) :=
  if slashAmount = 0 then some (self, 0)
  else do
    let (maybeProportional, slashChunksPriority) :=
      slashPlan self slashAmount (saturatingAdd slashEra bondingDuration)
    let (active, remainingSlash, total) ← slashOutOf minimumBalance maybeProportional self.active slashAmount self.total
    let (unlocking, _, total) ←
      slashChunks minimumBalance maybeProportional slashChunksPriority (self.unlocking, remainingSlash, total)
    pure ({ self with total, active, unlocking := unlocking.filter fun c => c.value ≠ 0 }, saturatingSub self.total total)

/-! ## Chunks -/

@[simp] theorem unlockingSum_nil : unlockingSum [] = 0 := rfl

@[simp] theorem unlockingSum_cons (c : UnlockChunk) (cs : List UnlockChunk) :
    unlockingSum (c :: cs) = c.value.val + unlockingSum cs := by
  simp [unlockingSum]

@[simp] theorem unlockingSum_append (cs ds : List UnlockChunk) :
    unlockingSum (cs ++ ds) = unlockingSum cs + unlockingSum ds := by
  simp [unlockingSum]

@[simp] theorem unlockingSum_reverse (cs : List UnlockChunk) : unlockingSum cs.reverse = unlockingSum cs := by
  simp [unlockingSum, List.map_reverse]

/-- What the loops leave of the chunks listed from the last one back: the first `j` gone, and possibly the next one
lowered. -/
def TakenFromLast (rev out : List UnlockChunk) : Prop :=
  ∃ j, out = rev.drop j ∨
    ∃ c rest, ∃ v : U128, rev.drop j = c :: rest ∧ v.val ≤ c.value.val ∧ out = { c with value := v } :: rest

theorem TakenFromLast.refl (rev : List UnlockChunk) : TakenFromLast rev rev :=
  ⟨0, Or.inl rfl⟩

theorem TakenFromLast.cons {last : UnlockChunk} {rest out : List UnlockChunk} (h : TakenFromLast rest out) :
    TakenFromLast (last :: rest) out := by
  obtain ⟨j, h⟩ := h
  exact ⟨j + 1, by simpa using h⟩

theorem TakenFromLast.lower (c : UnlockChunk) (rest : List UnlockChunk) {v : U128} (hv : v.val ≤ c.value.val) :
    TakenFromLast (c :: rest) ({ c with value := v } :: rest) :=
  ⟨0, Or.inr ⟨c, rest, v, rfl, hv, rfl⟩⟩

/-- The chunks left after taking from the last ones, in their own order: a prefix, with possibly its last chunk
lowered. -/
def LeftPrefix (cs out : List UnlockChunk) : Prop :=
  ∃ k, out = cs.take k ∨ ∃ c, ∃ v : U128, cs[k]? = some c ∧ v.val ≤ c.value.val ∧ out = cs.take k ++ [{ c with value := v }]

theorem TakenFromLast.leftPrefix {cs out : List UnlockChunk} (h : TakenFromLast cs.reverse out) :
    LeftPrefix cs out.reverse := by
  obtain ⟨j, h | ⟨c, rest, v, hd, hv, rfl⟩⟩ := h
  · exact ⟨cs.length - j, Or.inl (by rw [h, List.drop_reverse, List.reverse_reverse])⟩
  · rw [List.drop_reverse, List.reverse_eq_cons_iff] at hd
    have hk : rest.length < cs.length - j := by
      have := congrArg List.length hd
      simp only [List.length_take, List.length_append, List.length_reverse, List.length_singleton] at this
      omega
    -- the kept prefix is `rest` read back, and `c` comes right after it
    have htake : cs.take rest.length = rest.reverse := by
      have := congrArg (List.take rest.length) hd
      rw [List.take_take, Nat.min_eq_left (Nat.le_of_lt hk)] at this
      rw [this, List.take_append_of_le_length (by simp), List.take_of_length_le (by simp)]
    have hget : cs[rest.length]? = some c := by
      have := congrArg (fun l => l[rest.length]?) hd
      simp only [List.getElem?_take, if_pos hk] at this
      rw [this, List.getElem?_append_right (by simp)]
      simp
    refine ⟨rest.length, Or.inr ⟨c, v, hget, hv, ?_⟩⟩
    rw [List.reverse_cons, htake]

theorem val_saturatingAdd_of_lt {a b : U128} (h : a.val + b.val < 2 ^ 128) : (saturatingAdd a b).val = a.val + b.val := by
  rw [val_saturatingAdd]
  omega

/-! ## `rebond` -/

/-- The loop of `rebond` rebonds `value` or all of the chunks, whichever is less, taking it from the last chunks. -/
theorem rebondFromLast_spec (value : U128) : ∀ (rev : List UnlockChunk) (rebonded active : U128),
    rebonded.val ≤ value.val → rebonded.val + unlockingSum rev < 2 ^ 128 → active.val + unlockingSum rev < 2 ^ 128 →
    let r := rebondFromLast value (rebonded, active) rev
    r.1.val = Min.min value.val (rebonded.val + unlockingSum rev) ∧ r.2.1.val + rebonded.val = active.val + r.1.val ∧
      unlockingSum r.2.2 + r.1.val = rebonded.val + unlockingSum rev ∧ TakenFromLast rev r.2.2
  | [], rebonded, active, hle, _, _ => by
    refine ⟨?_, ?_, ?_, TakenFromLast.refl []⟩ <;> simp only [rebondFromLast, unlockingSum_nil] <;> omega
  | last :: rest, rebonded, active, hle, hr, ha => by
    simp only [unlockingSum_cons] at hr ha
    have hrfit : rebonded.val + last.value.val < 2 ^ 128 := by omega
    have hsat := val_saturatingAdd_of_lt hrfit
    have hrl := Fin.val_add_eq_of_add_lt hrfit
    have hal := Fin.val_add_eq_of_add_lt (show active.val + last.value.val < 2 ^ 128 by omega)
    simp only [rebondFromLast, unlockingSum_cons]
    by_cases hfit : rebonded.val + last.value.val ≤ value.val
    · rw [if_pos (by rw [hsat]; exact hfit)]
      by_cases hdone : value ≤ rebonded + last.value
      · -- the whole chunk, and that is all of `value`
        have hdone' := Fin.le_def.mp hdone
        rw [if_pos hdone]
        exact ⟨by simp only; omega, by simp only; omega, by simp only; omega, TakenFromLast.cons (TakenFromLast.refl rest)⟩
      · rw [if_neg hdone]
        obtain ⟨h₁, h₂, h₃, h₄⟩ := rebondFromLast_spec value rest (rebonded + last.value) (active + last.value)
          (by omega) (by omega) (by omega)
        exact ⟨by omega, by omega, by omega, h₄.cons⟩
    · -- part of the chunk, the rest of `value`
      rw [if_neg (by rw [hsat]; exact hfit)]
      have hdiff : (saturatingSub value rebonded).val = value.val - rebonded.val := val_saturatingSub _ _
      have hd₁ := Fin.val_add_eq_of_add_lt (show rebonded.val + (saturatingSub value rebonded).val < 2 ^ 128 by omega)
      have hd₂ := Fin.val_add_eq_of_add_lt (show active.val + (saturatingSub value rebonded).val < 2 ^ 128 by omega)
      have hd₃ := Fin.sub_val_of_le (show saturatingSub value rebonded ≤ last.value from Fin.le_def.mpr (by omega))
      refine ⟨by simp only; omega, by simp only; omega, ?_, TakenFromLast.lower last rest (by rw [hd₃]; omega)⟩
      simp only [unlockingSum_cons]
      omega

/-- `rebond` rebonds `value` or all of the unlocking chunks, whichever is less: `active` grows by it, `total` stays,
and it comes off the last chunks. -/
theorem rebond_spec {l : StakingLedger} (hl : l.Balanced) (value : U128) :
    (rebond l value).2.val = Min.min value.val (unlockingSum l.unlocking) ∧
      (rebond l value).1.active.val = l.active.val + (rebond l value).2.val ∧
      (rebond l value).1.total = l.total ∧
      unlockingSum (rebond l value).1.unlocking + (rebond l value).2.val = unlockingSum l.unlocking ∧
      TakenFromLast l.unlocking.reverse (rebond l value).1.unlocking.reverse := by
  have htot := l.total.isLt
  rw [StakingLedger.Balanced] at hl
  obtain ⟨h₁, h₂, h₃, h₄⟩ := rebondFromLast_spec value l.unlocking.reverse 0 l.active (Nat.zero_le _)
    (by simp; omega) (by simp; omega)
  simp only [unlockingSum_reverse, Fin.val_zero, Nat.zero_add, Nat.add_zero] at h₁ h₂ h₃
  refine ⟨h₁, h₂, rfl, ?_, ?_⟩
  · simp only [rebond, unlockingSum_reverse]
    exact h₃
  · simpa [rebond] using h₄

/-! ## `update_total_stake` -/

/-- The loop of `update_total_stake` takes what is still to withdraw from the last chunks. -/
theorem withdrawFromLast_spec (toWithdraw : U128) : ∀ (rev : List UnlockChunk) (withdrawn : U128),
    withdrawn.val ≤ toWithdraw.val → toWithdraw.val ≤ withdrawn.val + unlockingSum rev →
    withdrawn.val + unlockingSum rev < 2 ^ 128 →
    unlockingSum (withdrawFromLast toWithdraw withdrawn rev) + toWithdraw.val = withdrawn.val + unlockingSum rev ∧
      TakenFromLast rev (withdrawFromLast toWithdraw withdrawn rev)
  | [], withdrawn, hle, henough, _ => by
    simp only [unlockingSum_nil, Nat.add_zero] at henough
    exact ⟨by simp only [withdrawFromLast, unlockingSum_nil]; omega, TakenFromLast.refl []⟩
  | last :: rest, withdrawn, hle, henough, hbound => by
    simp only [unlockingSum_cons] at henough hbound
    have hwfit : withdrawn.val + last.value.val < 2 ^ 128 := by omega
    have hsat := val_saturatingAdd_of_lt hwfit
    have hwl := Fin.val_add_eq_of_add_lt hwfit
    simp only [withdrawFromLast, unlockingSum_cons]
    by_cases hfit : withdrawn.val + last.value.val ≤ toWithdraw.val
    · rw [if_pos (by rw [hsat]; exact hfit)]
      by_cases hdone : toWithdraw ≤ withdrawn + last.value
      · -- the whole chunk, and nothing is left to withdraw
        have hdone' := Fin.le_def.mp hdone
        rw [if_pos hdone]
        exact ⟨by omega, TakenFromLast.cons (TakenFromLast.refl rest)⟩
      · rw [if_neg hdone]
        obtain ⟨h₁, h₂⟩ := withdrawFromLast_spec toWithdraw rest (withdrawn + last.value) (by omega) (by omega)
          (by omega)
        exact ⟨by omega, h₂.cons⟩
    · -- the rest of what is to withdraw comes from this chunk
      rw [if_neg (by rw [hsat]; exact hfit)]
      have hd := Fin.sub_val_of_le
        (show saturatingSub toWithdraw withdrawn ≤ last.value from Fin.le_def.mpr (by rw [val_saturatingSub]; omega))
      rw [val_saturatingSub] at hd
      refine ⟨?_, TakenFromLast.lower last rest (by rw [hd]; omega)⟩
      simp only [unlockingSum_cons]
      omega

/-- The `else` of the loop always stops it: after `withdrawn += diff`, `withdrawn ≥ to_withdraw`. -/
theorem le_add_saturatingSub (toWithdraw withdrawn : U128) :
    toWithdraw ≤ withdrawn + saturatingSub toWithdraw withdrawn := by
  rw [Fin.le_def]
  by_cases h : withdrawn.val ≤ toWithdraw.val
  · rw [Fin.val_add_eq_of_add_lt (by rw [val_saturatingSub]; have := toWithdraw.isLt; omega), val_saturatingSub]
    omega
  · have hz : saturatingSub toWithdraw withdrawn = 0 := Fin.ext (by rw [val_saturatingSub]; simp; omega)
    rw [hz]
    simpa using Nat.le_of_lt (Nat.lt_of_not_le h)

/-- `update_total_stake` to at most `total`: `total` becomes `new_total` and the ledger stays balanced; the
difference comes off `active` first, then off the last chunks. -/
theorem updateTotalStake_spec {l : StakingLedger} (hl : l.Balanced) {newTotal : U128} (hnew : newTotal.val ≤ l.total.val) :
    (updateTotalStake l newTotal).total = newTotal ∧ (updateTotalStake l newTotal).Balanced ∧
      (updateTotalStake l newTotal).active.val = l.active.val - Min.min l.active.val (l.total.val - newTotal.val) ∧
      TakenFromLast l.unlocking.reverse (updateTotalStake l newTotal).unlocking.reverse := by
  rw [StakingLedger.Balanced] at hl
  have htot := l.total.isLt
  have htw : (saturatingSub l.total newTotal).val = l.total.val - newTotal.val := val_saturatingSub _ _
  by_cases hact : saturatingSub l.total newTotal ≤ l.active
  · -- all of it from `active`
    have hact' := Fin.le_def.mp hact
    have hsub := Fin.sub_val_of_le hact
    have heq : updateTotalStake l newTotal =
        { l with total := newTotal, active := l.active - saturatingSub l.total newTotal } := if_pos hact
    rw [heq, StakingLedger.Balanced]
    exact ⟨rfl, by simp only; omega, by simp only; omega, TakenFromLast.refl _⟩
  · have hact' : l.active.val < l.total.val - newTotal.val := by
      have := Fin.lt_def.mp (lt_of_not_ge hact)
      omega
    obtain ⟨h₁, h₂⟩ := withdrawFromLast_spec (saturatingSub l.total newTotal) l.unlocking.reverse l.active
      (by omega) (by rw [unlockingSum_reverse]; omega) (by rw [unlockingSum_reverse]; omega)
    rw [unlockingSum_reverse] at h₁
    have heq : updateTotalStake l newTotal =
        { l with
          total := newTotal
          active := 0
          unlocking := (withdrawFromLast (saturatingSub l.total newTotal) l.active l.unlocking.reverse).reverse } :=
      if_neg hact
    rw [heq, StakingLedger.Balanced]
    refine ⟨rfl, ?_, by simp only [Fin.val_zero]; omega, by simpa using h₂⟩
    simp only [Fin.val_zero, unlockingSum_reverse]
    omega

/-! ## `consolidate_unlocked` -/

theorem consolidateUnlocked_foldl (currentEra : Fin (2 ^ 32)) : ∀ (cs : List UnlockChunk) (total : U128)
    (kept : List UnlockChunk),
    let r := cs.foldl (fun (acc : U128 × List UnlockChunk) chunk =>
      if currentEra < chunk.era then (acc.1, acc.2 ++ [chunk]) else (saturatingSub acc.1 chunk.value, acc.2))
      (total, kept)
    r.1.val = total.val - unlockingSum (cs.filter fun c => !decide (currentEra < c.era)) ∧
      r.2 = kept ++ cs.filter fun c => decide (currentEra < c.era)
  | [], total, kept => by simp
  | c :: cs, total, kept => by
    by_cases h : currentEra < c.era
    · obtain ⟨h₁, h₂⟩ := consolidateUnlocked_foldl currentEra cs total (kept ++ [c])
      simp only [List.foldl_cons, if_pos h] at h₁ h₂ ⊢
      simp [h, h₁, h₂]
    · obtain ⟨h₁, h₂⟩ := consolidateUnlocked_foldl currentEra cs (saturatingSub total c.value) kept
      simp only [List.foldl_cons, if_neg h] at h₁ h₂ ⊢
      refine ⟨?_, by simp [h, h₂]⟩
      rw [h₁, val_saturatingSub]
      simp [h, Nat.sub_sub]

/-- `consolidate_unlocked(era)` removes exactly the chunks of eras up to `era` and lowers `total` by their sum. -/
theorem consolidateUnlocked_spec {l : StakingLedger} (hl : l.Balanced) (currentEra : Fin (2 ^ 32)) :
    (consolidateUnlocked l currentEra).unlocking = l.unlocking.filter (fun c => decide (currentEra < c.era)) ∧
      (consolidateUnlocked l currentEra).active = l.active ∧
      (consolidateUnlocked l currentEra).total.val + unlockingSum (l.unlocking.filter fun c => !decide (currentEra < c.era)) =
        l.total.val ∧
      (consolidateUnlocked l currentEra).Balanced := by
  obtain ⟨h₁, h₂⟩ := consolidateUnlocked_foldl currentEra l.unlocking l.total []
  have hsplit : unlockingSum (l.unlocking.filter fun c => decide (currentEra < c.era)) +
      unlockingSum (l.unlocking.filter fun c => !decide (currentEra < c.era)) = unlockingSum l.unlocking := by
    rw [← unlockingSum_append]
    exact ((List.filter_append_perm _ _).map _).sum_eq
  rw [StakingLedger.Balanced] at hl
  simp only [List.nil_append] at h₂
  refine ⟨h₂, rfl, by rw [consolidateUnlocked]; simp only; omega, ?_⟩
  rw [StakingLedger.Balanced, consolidateUnlocked]
  simp only
  rw [h₂]
  omega

/-- On a balanced ledger: `rebond(value)` moves `min(value, Σ unlocking)` from the last chunks into `active`, keeping
`total`; `consolidate_unlocked(era)` removes exactly the chunks of eras up to `era` and lowers `total` by their sum;
`update_total_stake(new_total)`, `new_total ≤ total`, leaves a balanced ledger of total `new_total`, taking from
`active` first, then from the last chunks. -/
theorem ledger_unlocking_ops {l : StakingLedger} (hl : l.Balanced) :
    (∀ value : U128,
      (rebond l value).2.val = Min.min value.val (unlockingSum l.unlocking) ∧
      (rebond l value).1.active.val = l.active.val + (rebond l value).2.val ∧
      (rebond l value).1.total = l.total ∧
      unlockingSum (rebond l value).1.unlocking + (rebond l value).2.val = unlockingSum l.unlocking ∧
      LeftPrefix l.unlocking (rebond l value).1.unlocking) ∧
    (∀ era : Fin (2 ^ 32),
      (consolidateUnlocked l era).unlocking = l.unlocking.filter (fun c => decide (era < c.era)) ∧
      (consolidateUnlocked l era).active = l.active ∧
      (consolidateUnlocked l era).total.val + unlockingSum (l.unlocking.filter fun c => !decide (era < c.era)) =
        l.total.val) ∧
    (∀ newTotal : U128, newTotal.val ≤ l.total.val →
      (updateTotalStake l newTotal).total = newTotal ∧ (updateTotalStake l newTotal).Balanced ∧
      (updateTotalStake l newTotal).active.val = l.active.val - Min.min l.active.val (l.total.val - newTotal.val) ∧
      LeftPrefix l.unlocking (updateTotalStake l newTotal).unlocking) := by
  refine ⟨fun value => ?_, fun era => ?_, fun newTotal hnew => ?_⟩
  · obtain ⟨h₁, h₂, h₃, h₄, h₅⟩ := rebond_spec hl value
    exact ⟨h₁, h₂, h₃, h₄, by simpa using h₅.leftPrefix⟩
  · obtain ⟨h₁, h₂, h₃, -⟩ := consolidateUnlocked_spec hl era
    exact ⟨h₁, h₂, h₃⟩
  · obtain ⟨h₁, h₂, h₃, h₄⟩ := updateTotalStake_spec hl hnew
    exact ⟨h₁, h₂, h₃, by simpa using h₄.leftPrefix⟩

/-- A ledger with nothing active and two chunks of 5, of eras 1 and 2. -/
def twoChunks : StakingLedger := ⟨10, 0, [⟨5, 1⟩, ⟨5, 2⟩]⟩

/-- `update_total_stake` takes from the most recent chunk, not the oldest: from `twoChunks` down to 5 it removes the
chunk of era 2 and keeps the one of era 1. -/
theorem update_total_stake_takes_newest :
    updateTotalStake twoChunks 5 = ⟨5, 0, [⟨5, 1⟩]⟩ := by
  decide

/-! ## `slash` -/

/-- What a run of `slash_out_of` does to what remains to slash: `slashed` comes off `remaining` exactly, or something
remained, all of it was slashed, and less than `minimum_balance` more. -/
def Within (minimumBalance remaining slashed remaining' : Nat) : Prop :=
  slashed + remaining' = remaining ∨
    remaining' = 0 ∧ 0 < remaining ∧ remaining ≤ slashed ∧ slashed < remaining + minimumBalance

namespace Within

variable {mb R R₁ R₂ d d₁ d₂ : Nat}

theorem refl (mb R : Nat) : Within mb R 0 R :=
  Or.inl (Nat.zero_add R)

theorem step (hR : 0 < R) (hd : d ≤ R ∨ d < R + mb) (hR₁ : R₁ = R - d) : Within mb R d R₁ := by
  unfold Within
  omega

theorem trans (h₁ : Within mb R d₁ R₁) (h₂ : Within mb R₁ d₂ R₂) : Within mb R (d₁ + d₂) R₂ := by
  unfold Within at *
  omega

theorem zero (h : Within mb 0 d R₁) : d = 0 ∧ R₁ = 0 := by
  unfold Within at h
  omega

theorem eq_of_ne_zero (h : Within mb R d R₁) (hR₁ : R₁ ≠ 0) : d + R₁ = R := by
  unfold Within at h
  omega

/-- When nothing remains, at least all of it was slashed. -/
theorem le_of_zero (h : Within mb R d 0) : R ≤ d := by
  unfold Within at h
  omega

/-- What is slashed is at most what was asked, or less than that plus the dust. -/
theorem le_or_lt (h : Within mb R d R₁) : d ≤ R ∨ d < R + mb := by
  unfold Within at h
  omega

end Within

/-- What `slash_out_of` takes from a target of value `t` at least, unless it slashes all that remains: the
proportional share rounded up and capped by `t`, or all of `t`. -/
def share : Option (Fraction perquintill) → U128 → Nat
  | some ratio, t => Min.min (roundDiv .up (t.val * ratio.parts.val) perquintill.accuracy) t.val
  | none, t => t.val

/-- The share of the chunk at an index; nothing where there is no chunk. -/
def shareAt (maybeProportional : Option (Fraction perquintill)) (cs : List UnlockChunk) (j : Nat) : Nat :=
  (cs[j]?.map fun c => share maybeProportional c.value).getD 0

section Slash

variable (minimumBalance : U128)

/-- The end of `slash_out_of` takes `slash_from_target`, or all of the target when the rest is dust, and lowers what
remains and `total` by what it took. Only a target taken whole loses more than asked. -/
theorem slashTarget_spec {target s remaining total : U128} (hs : s ≤ target) (ht : target.val ≤ total.val) :
    ∃ target' remaining' total' : U128,
      slashTarget minimumBalance target s remaining total = (target', remaining', total') ∧
      target'.val ≤ target.val ∧ s.val ≤ target.val - target'.val ∧
      (target.val - target'.val = s.val ∨ target'.val = 0 ∧ target.val - target'.val < s.val + minimumBalance.val) ∧
      remaining'.val = remaining.val - (target.val - target'.val) ∧
      total'.val + (target.val - target'.val) = total.val := by
  have hsub := Fin.sub_val_of_le hs
  have hs' := Fin.le_def.mp hs
  by_cases hdust : target - s < minimumBalance
  · -- the rest of the target is dust and goes too
    have hdust' := Fin.lt_def.mp hdust
    have hall := val_saturatingAdd_of_lt
      (show (target - s).val + s.val < 2 ^ 128 by rw [hsub]; have := target.isLt; omega)
    have hzero : (0 : U128).val = 0 := rfl
    refine ⟨0, _, _, if_pos hdust, ?_⟩
    simp only [hzero, val_saturatingSub, hall, hsub, true_and]
    omega
  · refine ⟨target - s, _, _, if_neg hdust, ?_⟩
    simp only [val_saturatingSub, hsub]
    omega

/-- What `slash_out_of` asks always exists, and covers the share whenever it is below what remains. -/
theorem slashWanted_spec (maybeProportional : Option (Fraction perquintill)) (target remaining : U128) :
    ∃ wanted : U128, slashWanted maybeProportional target remaining = some wanted ∧
      (Min.min wanted.val target.val < remaining.val →
        share maybeProportional target ≤ Min.min wanted.val target.val) := by
  cases maybeProportional with
  | none =>
    refine ⟨remaining, rfl, fun h => ?_⟩
    simp only [share]
    omega
  | some ratio =>
    obtain ⟨wanted, hw, hval⟩ :=
      Option.map_eq_some_iff.mp (per_thing_mul_exact perquintill perquintill_bits_le ratio target).2.2.1
    exact ⟨wanted, hw, fun _ => by rw [share, hval]⟩

/-- `slash_out_of` on a target within `total`: it lowers the target and `total` by the same amount, which comes off
what remains, exceeds it only by dust, and is at least the target's share unless nothing remains after it. -/
theorem slashOutOf_spec (maybeProportional : Option (Fraction perquintill)) {target remaining total : U128}
    (ht : target.val ≤ total.val) :
    ∃ target' remaining' total' : U128,
      slashOutOf minimumBalance maybeProportional target remaining total = some (target', remaining', total') ∧
      target'.val ≤ target.val ∧ total'.val + (target.val - target'.val) = total.val ∧
      remaining'.val = remaining.val - (target.val - target'.val) ∧
      (target.val - target'.val ≤ remaining.val ∨
        target'.val = 0 ∧ target.val - target'.val < remaining.val + minimumBalance.val) ∧
      (remaining'.val = 0 ∨ remaining'.val + share maybeProportional target ≤ remaining.val) := by
  obtain ⟨wanted, hwanted, hcap⟩ := slashWanted_spec maybeProportional target remaining
  have hsv : (Min.min (Min.min wanted target) remaining).val =
      Min.min (Min.min wanted.val target.val) remaining.val := by
    simp only [Fin.coe_min]
  obtain ⟨target', remaining', total', htarget, h₁, h₂, h₃, h₄, h₅⟩ :=
    @slashTarget_spec minimumBalance target (Min.min (Min.min wanted target) remaining) remaining total
      (Fin.le_def.mpr (by omega)) ht
  refine ⟨target', remaining', total', ?_, h₁, h₅, h₄, by omega, ?_⟩
  · rw [slashOutOf, hwanted]
    exact congrArg some htarget
  · -- if something is left to slash, the cap by what remains did not bite
    by_cases hz : remaining'.val = 0
    · exact Or.inl hz
    · have := hcap (by omega)
      omega

end Slash

/-- `cs'` is `cs` with values lowered: the same length, and at each place the same era and at most the value. -/
def Lowered (cs cs' : List UnlockChunk) : Prop :=
  cs'.length = cs.length ∧
    ∀ (j : Nat) (c c' : UnlockChunk), cs[j]? = some c → cs'[j]? = some c' → c'.era = c.era ∧ c'.value.val ≤ c.value.val

/-- The chunk at `j` of `cs` is zero in `cs'`, from a positive value: it was taken whole. -/
def TakenWhole (cs cs' : List UnlockChunk) (j : Nat) : Prop :=
  ∃ c c', cs[j]? = some c ∧ cs'[j]? = some c' ∧ c'.value.val = 0 ∧ 0 < c.value.val

/-- A chunk taken whole after a write to another place was taken whole before it. -/
theorem TakenWhole.of_set_ne {cs cs' : List UnlockChunk} {i j : Nat} {x : UnlockChunk} (hij : i ≠ j)
    (h : TakenWhole (cs.set i x) cs' j) : TakenWhole cs cs' j := by
  obtain ⟨d, d', hd, hd', hz, hpos⟩ := h
  rw [List.getElem?_set_ne hij] at hd
  exact ⟨d, d', hd, hd', hz, hpos⟩

theorem Lowered.refl (cs : List UnlockChunk) : Lowered cs cs := by
  refine ⟨rfl, fun j c c' hc hc' => ?_⟩
  rw [hc, Option.some.injEq] at hc'
  subst hc'
  exact ⟨rfl, le_refl _⟩

theorem Lowered.trans {cs₁ cs₂ cs₃ : List UnlockChunk} (h₁ : Lowered cs₁ cs₂) (h₂ : Lowered cs₂ cs₃) :
    Lowered cs₁ cs₃ := by
  refine ⟨h₂.1.trans h₁.1, fun j c c'' hc hc'' => ?_⟩
  -- the lengths agree, so the middle list has a chunk at `j` too
  have hj : j < cs₂.length := by
    rw [h₁.1]
    exact (List.getElem?_eq_some_iff.mp hc).1
  obtain ⟨he₁, hv₁⟩ := h₁.2 j c cs₂[j] hc (List.getElem?_eq_getElem hj)
  obtain ⟨he₂, hv₂⟩ := h₂.2 j cs₂[j] c'' (List.getElem?_eq_getElem hj) hc''
  exact ⟨he₂.trans he₁, hv₂.trans hv₁⟩

theorem Lowered.set {cs : List UnlockChunk} {i : Nat} {c : UnlockChunk} (hc : cs[i]? = some c) {v : U128}
    (hv : v.val ≤ c.value.val) : Lowered cs (cs.set i { c with value := v }) := by
  refine ⟨List.length_set .., fun j d d' hd hd' => ?_⟩
  by_cases hij : i = j
  · subst hij
    rw [hc, Option.some.injEq] at hd
    rw [List.getElem?_set_self (List.getElem?_eq_some_iff.mp hc).1, Option.some.injEq] at hd'
    subst hd hd'
    exact ⟨rfl, hv⟩
  · rw [List.getElem?_set_ne hij, hd, Option.some.injEq] at hd'
    subst hd'
    exact ⟨rfl, le_refl _⟩

theorem Lowered.map_era {cs cs' : List UnlockChunk} (h : Lowered cs cs') :
    cs'.map UnlockChunk.era = cs.map UnlockChunk.era := by
  refine List.ext_getElem (by simp [h.1]) fun j hj' hj => ?_
  simp only [List.length_map] at hj hj'
  simp only [List.getElem_map]
  exact (h.2 j cs[j] cs'[j] (List.getElem?_eq_getElem hj) (List.getElem?_eq_getElem hj')).1

theorem unlockingSum_set : ∀ {cs : List UnlockChunk} {i : Nat} {c : UnlockChunk}, cs[i]? = some c →
    ∀ c' : UnlockChunk, unlockingSum (cs.set i c') + c.value.val = unlockingSum cs + c'.value.val
  | [], _, _, h, _ => by simp at h
  | d :: cs, 0, c, h, c' => by
    rw [List.getElem?_cons_zero, Option.some.injEq] at h
    subst h
    simp only [List.set_cons_zero, unlockingSum_cons]
    omega
  | d :: cs, i + 1, c, h, c' => by
    rw [List.getElem?_cons_succ] at h
    have := unlockingSum_set h c'
    simp only [List.set_cons_succ, unlockingSum_cons]
    omega

theorem val_le_unlockingSum {cs : List UnlockChunk} {i : Nat} {c : UnlockChunk} (h : cs[i]? = some c) :
    c.value.val ≤ unlockingSum cs :=
  List.le_sum_of_mem (List.mem_map_of_mem (List.mem_of_getElem? h))

section Slash

variable (minimumBalance : U128)

theorem slashChunks_of_zero (maybeProportional : Option (Fraction perquintill)) (priority : List Nat)
    (cs : List UnlockChunk) (total : U128) :
    slashChunks minimumBalance maybeProportional priority (cs, 0, total) = some (cs, 0, total) := by
  cases priority <;> simp [slashChunks]

/-- The loop of `slash` over chunk indices, each once: it lowers the chunks it visits and no other, `total` by what it
took, and that comes off what remains (`Within`); unless nothing remains, it took at least every chunk's share. It takes
more than remained only by taking a chunk whole. -/
theorem slashChunks_spec (maybeProportional : Option (Fraction perquintill)) :
    ∀ (priority : List Nat) (cs : List UnlockChunk) (remaining total : U128), priority.Nodup →
      (∀ i ∈ priority, i < cs.length) → unlockingSum cs ≤ total.val →
      ∃ cs' remaining' total',
        slashChunks minimumBalance maybeProportional priority (cs, remaining, total) = some (cs', remaining', total') ∧
        Lowered cs cs' ∧ (∀ j, j ∉ priority → cs'[j]? = cs[j]?) ∧ unlockingSum cs' ≤ unlockingSum cs ∧
        total'.val + (unlockingSum cs - unlockingSum cs') = total.val ∧
        Within minimumBalance.val remaining.val (unlockingSum cs - unlockingSum cs') remaining'.val ∧
        (remaining'.val = 0 ∨ remaining'.val + (priority.map (shareAt maybeProportional cs)).sum ≤ remaining.val) ∧
        (unlockingSum cs - unlockingSum cs' ≤ remaining.val ∨ ∃ j ∈ priority, TakenWhole cs cs' j)
  | [], cs, remaining, total, _, _, _ =>
    ⟨cs, remaining, total, rfl, Lowered.refl cs, fun _ _ => rfl, le_refl _, by omega, by simpa using Within.refl _ _,
      Or.inr (by simp), Or.inl (by simp)⟩
  | i :: priority, cs, remaining, total, hnd, hlt, hsum => by
    by_cases hR : remaining = 0
    · subst hR
      exact ⟨cs, 0, total, slashChunks_of_zero .., Lowered.refl cs, fun _ _ => rfl, le_refl _, by omega,
        by simpa using Within.refl _ _, Or.inl rfl, Or.inl (by simp)⟩
    have hR' : 0 < remaining.val := by
      rcases Nat.eq_zero_or_pos remaining.val with h | h
      · exact absurd (Fin.ext h) hR
      · exact h
    obtain ⟨c, hc⟩ : ∃ c, cs[i]? = some c := ⟨_, List.getElem?_eq_getElem (hlt i List.mem_cons_self)⟩
    have hcT := (val_le_unlockingSum hc).trans hsum
    obtain ⟨value, remaining₁, total₁, hstep, hv, htotal₁, hrem₁, hdust, hshare⟩ :=
      @slashOutOf_spec minimumBalance maybeProportional c.value remaining total hcT
    have hset := unlockingSum_set hc { c with value }
    rw [List.nodup_cons] at hnd
    obtain ⟨cs', remaining', total', hrun, hlow, hkeep, hle, htotal', hwithin, hbound, hwhole⟩ :=
      slashChunks_spec maybeProportional priority (cs.set i { c with value }) remaining₁ total₁ hnd.2
        (fun j hj => by rw [List.length_set]; exact hlt j (List.mem_cons_of_mem i hj)) (by simp only at hset; omega)
    -- the chunk at `i` is not visited again, so the later shares are those of `cs`
    have hrest : (priority.map (shareAt maybeProportional (cs.set i { c with value }))).sum =
        (priority.map (shareAt maybeProportional cs)).sum := by
      refine congrArg List.sum (List.map_congr_left fun j hj => ?_)
      rw [shareAt, shareAt, List.getElem?_set_ne (show i ≠ j from fun h => hnd.1 (h ▸ hj))]
    have hW := (Within.step hR' (hdust.imp_right And.right) hrem₁).trans hwithin
    simp only at hset
    refine ⟨cs', remaining', total', ?_, (Lowered.set hc hv).trans hlow, fun j hj => ?_, by omega, by omega, ?_, ?_,
      ?_⟩
    · simp only [slashChunks, hR, hc, hstep]
      exact hrun
    · rw [List.mem_cons, not_or] at hj
      rw [hkeep j hj.2, List.getElem?_set_ne (Ne.symm hj.1)]
    · convert hW using 1
      omega
    · by_cases hz : remaining'.val = 0
      · exact Or.inl hz
      right
      -- something is left at the end, so something was left after this chunk
      have hR₁ : remaining₁.val ≠ 0 := fun h₀ => hz (Within.zero (h₀ ▸ hwithin)).2
      obtain h | h := hbound
      · exact absurd h hz
      obtain h' | h' := hshare
      · exact absurd h' hR₁
      simp only [List.map_cons, List.sum_cons, shareAt, hc, Option.map_some, Option.getD_some] at h ⊢
      rw [hrest] at h
      omega
    · -- more than remained goes only with a chunk taken whole: this one, or a later one
      by_cases hover : c.value.val - value.val ≤ remaining.val
      · rcases hwhole with hle' | ⟨j, hj, hwj⟩
        · left
          omega
        · exact Or.inr ⟨j, List.mem_cons_of_mem i hj, hwj.of_set_ne fun h : i = j => hnd.1 (h ▸ hj)⟩
      · obtain ⟨hz, -⟩ := hdust.resolve_left hover
        refine Or.inr ⟨i, List.mem_cons_self, c, { c with value }, hc, ?_, hz, by omega⟩
        rw [hkeep i hnd.1, List.getElem?_set_self (List.getElem?_eq_some_iff.mp hc).1]

end Slash

/-! ### Shares -/

@[simp] theorem share_none (t : U128) : share none t = t.val := rfl

@[simp] theorem share_one (t : U128) : share (some Fraction.one) t = t.val := by
  have hacc := perquintill.accuracy_pos
  simp only [share, Fraction.one, PerThing.val_accuracyInner]
  rw [roundDiv_of_dvd _ hacc (Nat.dvd_mul_left _ _), Nat.mul_div_cancel _ hacc, Nat.min_self]

/-- A proportional share, scaled back by `ACCURACY`, is at least the exact part of the target. -/
theorem mul_parts_le_share (ratio : Fraction perquintill) (t : U128) :
    t.val * ratio.parts.val ≤ share (some ratio) t * perquintill.accuracy := by
  simp only [share]
  rcases Nat.le_total (roundDiv .up (t.val * ratio.parts.val) perquintill.accuracy) t.val with h | h
  · rw [Nat.min_eq_left h]
    exact le_roundDiv_up_mul perquintill.accuracy_pos _
  · rw [Nat.min_eq_right h]
    exact Nat.mul_le_mul_left _ ratio.le_accuracy

theorem sum_mul_parts_le_sum_share (ratio : Fraction perquintill) :
    ∀ ts : List U128,
      (ts.map Fin.val).sum * ratio.parts.val ≤ (ts.map (share (some ratio))).sum * perquintill.accuracy
  | [] => by simp
  | t :: ts => by
    have h₁ := mul_parts_le_share ratio t
    have h₂ := sum_mul_parts_le_sum_share ratio ts
    simp only [List.map_cons, List.sum_cons, Nat.add_mul]
    omega

/-- The shares of targets that make up `affected` add up to at least `slash` when the ratio is at least
`slash / affected`. -/
theorem le_sum_share {ratio : Fraction perquintill} {slashAmount : Nat} (ts : List U128)
    (hratio : perquintill.accuracy * slashAmount ≤ ratio.parts.val * (ts.map Fin.val).sum) :
    slashAmount ≤ (ts.map (share (some ratio))).sum := by
  have hsum := sum_mul_parts_le_sum_share ratio ts
  refine Nat.le_of_mul_le_mul_left ?_ perquintill.accuracy_pos
  calc perquintill.accuracy * slashAmount ≤ ratio.parts.val * (ts.map Fin.val).sum := hratio
    _ ≤ (ts.map (share (some ratio))).sum * perquintill.accuracy := by rw [Nat.mul_comm]; exact hsum
    _ = perquintill.accuracy * (ts.map (share (some ratio))).sum := Nat.mul_comm _ _

theorem sum_shareAt_range (maybeProportional : Option (Fraction perquintill)) : ∀ cs : List UnlockChunk,
    ((List.range cs.length).map (shareAt maybeProportional cs)).sum =
      (cs.map fun c => share maybeProportional c.value).sum
  | [] => rfl
  | c :: cs => by
    have hsucc : shareAt maybeProportional (c :: cs) ∘ Nat.succ = shareAt maybeProportional cs := rfl
    rw [List.length_cons, List.range_succ_eq_map, List.map_cons, List.map_map, hsucc, List.sum_cons,
      sum_shareAt_range maybeProportional cs]
    rfl

/-- The shares at the indices from `k` on are those of the chunks from `k` on. -/
theorem sum_shareAt_range' (maybeProportional : Option (Fraction perquintill)) (cs : List UnlockChunk) (k : Nat) :
    ((List.range' k (cs.length - k)).map (shareAt maybeProportional cs)).sum =
      ((cs.drop k).map fun c => share maybeProportional c.value).sum := by
  rw [← sum_shareAt_range maybeProportional (cs.drop k), List.length_drop, List.range'_eq_map_range, List.map_map]
  refine congrArg List.sum (List.map_congr_left fun j _ => ?_)
  simp only [Function.comp, shareAt, List.getElem?_drop]

/-- The shares at the indices below `k` are those of the first `k` chunks. -/
theorem sum_shareAt_range_of_le (maybeProportional : Option (Fraction perquintill)) {cs : List UnlockChunk}
    {k : Nat} (hk : k ≤ cs.length) :
    ((List.range k).map (shareAt maybeProportional cs)).sum =
      ((cs.take k).map fun c => share maybeProportional c.value).sum := by
  rw [← sum_shareAt_range maybeProportional (cs.take k), List.length_take, Nat.min_eq_left hk]
  refine congrArg List.sum (List.map_congr_left fun j hj => ?_)
  rw [List.mem_range] at hj
  simp only [shareAt, List.getElem?_take, if_pos hj]

theorem sum_share_of_whole {maybeProportional : Option (Fraction perquintill)}
    (h : ∀ t, share maybeProportional t = t.val) (cs : List UnlockChunk) :
    (cs.map fun c => share maybeProportional c.value).sum = unlockingSum cs := by
  simp only [h, unlockingSum]

/-! ### The plan -/

theorem foldl_addChunkAt (cs : List UnlockChunk) : ∀ (is : List Nat) (acc : U128),
    acc.val + (is.map (shareAt none cs)).sum < 2 ^ 128 →
    (is.foldl (addChunkAt cs) acc).val = acc.val + (is.map (shareAt none cs)).sum
  | [], acc, _ => by simp
  | i :: is, acc, h => by
    simp only [List.map_cons, List.sum_cons] at h
    have hstep : (addChunkAt cs acc i).val = acc.val + shareAt none cs i := by
      cases hc : cs[i]? with
      | none => simp [addChunkAt, shareAt, hc]
      | some c =>
        have hsh : shareAt none cs i = c.value.val := by simp [shareAt, hc]
        rw [hsh] at h ⊢
        simp only [addChunkAt, hc]
        exact val_saturatingAdd_of_lt (by omega)
    rw [List.foldl_cons, foldl_addChunkAt cs is _ (by rw [hstep]; omega), hstep, List.map_cons, List.sum_cons]
    omega

theorem slashPlan_of_none {l : StakingLedger} {slashAmount : U128} {start : Fin (2 ^ 32)}
    (h : l.unlocking.findIdx? (fun c => decide (start ≤ c.era)) = none) :
    slashPlan l slashAmount start = (none, (List.range l.unlocking.length).reverse) := by
  simp only [slashPlan, h]

/-- A proportional plan: the chunks from the first one at `start` or later come first, and the ratio is `one` or at
least `slash_amount / affected_balance`. -/
theorem slashPlan_of_some {l : StakingLedger} (hl : l.Balanced) (slashAmount : U128) {start : Fin (2 ^ 32)}
    {first : Nat} (h : l.unlocking.findIdx? (fun c => decide (start ≤ c.era)) = some first) :
    ∃ ratio, slashPlan l slashAmount start =
        (some ratio, List.range' first (l.unlocking.length - first) ++ (List.range first).reverse) ∧
      (ratio = Fraction.one ∨
        perquintill.accuracy * slashAmount.val ≤
          ratio.parts.val * (l.active.val + unlockingSum (l.unlocking.drop first))) := by
  rw [StakingLedger.Balanced] at hl
  have htot := l.total.isLt
  have hdrop : unlockingSum (l.unlocking.drop first) ≤ unlockingSum l.unlocking := by
    conv_rhs => rw [← List.take_append_drop first l.unlocking]
    rw [unlockingSum_append]
    omega
  -- `affected_balance` is computed without saturating
  have hfold := foldl_addChunkAt l.unlocking (List.range' first (l.unlocking.length - first)) 0
    (by rw [sum_shareAt_range', sum_share_of_whole share_none]; simp only [Fin.val_zero]; omega)
  rw [sum_shareAt_range', sum_share_of_whole share_none, Fin.val_zero, Nat.zero_add] at hfold
  have haff := val_saturatingAdd_of_lt (a := l.active)
    (b := (List.range' first (l.unlocking.length - first)).foldl (addChunkAt l.unlocking) 0)
    (by rw [hfold]; omega)
  rw [hfold] at haff
  simp only [slashPlan, h]
  refine ⟨_, rfl, ?_⟩
  split
  · rename_i ratio hok
    have hspec := fromRationalWithRounding_eq perquintill RationalArg.u128 perquintill_bits_le slashAmount
      (saturatingAdd l.active ((List.range' first (l.unlocking.length - first)).foldl (addChunkAt l.unlocking) 0)) .up
    rw [hok, haff] at hspec
    split at hspec
    · cases hspec
    · rename_i hfits
      simp only [Except.toOption, Option.map_some, Option.some.injEq] at hspec
      right
      rw [hspec]
      apply le_roundDiv_up_mul
      omega
  · exact Or.inl rfl

/-- Every plan visits each chunk once, and what it asks of `active` and the chunks covers the slash, or all of
`total`. -/
theorem slashPlan_spec {l : StakingLedger} (hl : l.Balanced) (slashAmount : U128) (start : Fin (2 ^ 32))
    {maybeProportional : Option (Fraction perquintill)} {priority : List Nat}
    (hplan : slashPlan l slashAmount start = (maybeProportional, priority)) :
    priority.Nodup ∧ (∀ i ∈ priority, i < l.unlocking.length) ∧
      Min.min slashAmount.val l.total.val ≤
        share maybeProportional l.active + (priority.map (shareAt maybeProportional l.unlocking)).sum := by
  have hbal := hl
  rw [StakingLedger.Balanced] at hbal
  cases hfind : l.unlocking.findIdx? (fun c => decide (start ≤ c.era)) with
  | none =>
    rw [slashPlan_of_none hfind, Prod.mk.injEq] at hplan
    obtain ⟨rfl, rfl⟩ := hplan
    refine ⟨List.nodup_reverse.mpr List.nodup_range, fun i hi => by simpa using hi, ?_⟩
    rw [List.map_reverse, List.sum_reverse, sum_shareAt_range, sum_share_of_whole share_none, share_none]
    omega
  | some first =>
    have hfirst : first ≤ l.unlocking.length :=
      Nat.le_of_lt (List.findIdx?_eq_some_iff_getElem.mp hfind).1
    obtain ⟨ratio, hp, hratio⟩ := slashPlan_of_some hl slashAmount hfind
    rw [hp, Prod.mk.injEq] at hplan
    obtain ⟨rfl, rfl⟩ := hplan
    refine ⟨?_, fun i hi => ?_, ?_⟩
    · refine List.nodup_append.mpr ⟨List.nodup_range', List.nodup_reverse.mpr List.nodup_range, fun a ha b hb => ?_⟩
      rw [List.mem_range'_1] at ha
      rw [List.mem_reverse, List.mem_range] at hb
      omega
    · rw [List.mem_append, List.mem_range'_1, List.mem_reverse, List.mem_range] at hi
      omega
    · rw [List.map_append, List.sum_append, List.map_reverse, List.sum_reverse, sum_shareAt_range',
        sum_shareAt_range_of_le _ hfirst]
      rcases hratio with rfl | hcover
      · -- `one` asks all of every target
        rw [sum_share_of_whole share_one, sum_share_of_whole share_one, share_one]
        have hsplit := congrArg unlockingSum (List.take_append_drop first l.unlocking)
        rw [unlockingSum_append] at hsplit
        omega
      · -- the proportional shares of `active` and the affected chunks already cover the slash
        have hts : ((l.active :: (l.unlocking.drop first).map UnlockChunk.value).map Fin.val).sum =
            l.active.val + unlockingSum (l.unlocking.drop first) := by
          simp only [List.map_cons, List.sum_cons, List.map_map, unlockingSum, Function.comp_def]
        have hcov := le_sum_share (l.active :: (l.unlocking.drop first).map UnlockChunk.value)
          (by rw [hts]; exact hcover)
        simp only [List.map_cons, List.sum_cons, List.map_map, Function.comp_def] at hcov
        have := Nat.min_le_left slashAmount.val l.total.val
        omega

/-! ### Chunks before and after `slashable_chunks_start` -/

theorem take_eq_of_getElem? {α : Type} {cs cs' : List α} {k : Nat} (h : ∀ j, j < k → cs'[j]? = cs[j]?) :
    cs'.take k = cs.take k := by
  refine List.ext_getElem? fun j => ?_
  rw [List.getElem?_take, List.getElem?_take]
  split
  · exact h j ‹_›
  · rfl

theorem drop_eq_of_getElem? {α : Type} {cs cs' : List α} {k : Nat} (h : ∀ j, k ≤ j → cs'[j]? = cs[j]?) :
    cs'.drop k = cs.drop k := by
  refine List.ext_getElem? fun j => ?_
  rw [List.getElem?_drop, List.getElem?_drop]
  exact h _ (Nat.le_add_right k j)

/-- With eras strictly increasing, the chunks of eras before `start` are those before the first one at `start` or
later, and the others are the rest. -/
theorem filter_era_of_findIdx {cs : List UnlockChunk} (hsorted : (cs.map UnlockChunk.era).Pairwise (· < ·))
    {start : Fin (2 ^ 32)} {first : Nat}
    (h : (cs.map UnlockChunk.era).findIdx? (fun e => decide (start ≤ e)) = some first) :
    cs.filter (fun c => decide (c.era < start)) = cs.take first ∧
      cs.filter (fun c => decide (start ≤ c.era)) = cs.drop first := by
  obtain ⟨hfirst, hstart, hbefore⟩ := List.findIdx?_eq_some_iff_getElem.mp h
  simp only [List.length_map, List.getElem_map, decide_eq_true_eq] at hfirst hstart hbefore
  rw [List.pairwise_iff_getElem] at hsorted
  simp only [List.length_map, List.getElem_map] at hsorted
  have htake : ∀ c ∈ cs.take first, c.era < start := by
    intro c hc
    obtain ⟨j, hj, rfl⟩ := List.mem_take_iff_getElem.mp hc
    exact lt_of_not_ge (hbefore j (by omega))
  have hdrop : ∀ c ∈ cs.drop first, start ≤ c.era := by
    intro c hc
    obtain ⟨j, hj, rfl⟩ := List.mem_drop_iff_getElem.mp hc
    rcases Nat.eq_zero_or_pos j with rfl | hj₀
    · simpa using hstart
    · exact le_of_lt (lt_of_le_of_lt hstart (hsorted first (first + j) hfirst (by omega) (by omega)))
  have hsplit := List.take_append_drop first cs
  constructor
  · conv_lhs => rw [← hsplit]
    rw [List.filter_append, List.filter_eq_self.mpr fun c hc => decide_eq_true (htake c hc),
      List.filter_eq_nil_iff.mpr fun c hc => by simpa using hdrop c hc, List.append_nil]
  · conv_lhs => rw [← hsplit]
    rw [List.filter_append, List.filter_eq_nil_iff.mpr fun c hc => by simpa using htake c hc,
      List.filter_eq_self.mpr fun c hc => decide_eq_true (hdrop c hc), List.nil_append]

@[simp] theorem unlockingSum_filter_ne_zero : ∀ cs : List UnlockChunk,
    unlockingSum (cs.filter fun c => c.value ≠ 0) = unlockingSum cs
  | [] => rfl
  | c :: cs => by
    have ih := unlockingSum_filter_ne_zero cs
    by_cases hc : c.value = 0
    · rw [List.filter_cons_of_neg (by simpa using hc), ih, unlockingSum_cons, hc, Fin.val_zero, Nat.zero_add]
    · rw [List.filter_cons_of_pos (by simpa using hc), unlockingSum_cons, unlockingSum_cons, ih]

/-! ### The run -/

section Slash

variable (minimumBalance : U128)

/-- Over indices that all have a chunk the loop never breaks early, so it runs over a concatenation in two parts. -/
theorem slashChunks_append (maybeProportional : Option (Fraction perquintill)) :
    ∀ (xs ys : List Nat) (cs : List UnlockChunk) (remaining total : U128), (∀ i ∈ xs, i < cs.length) →
      slashChunks minimumBalance maybeProportional (xs ++ ys) (cs, remaining, total) =
        (slashChunks minimumBalance maybeProportional xs (cs, remaining, total)).bind
          (slashChunks minimumBalance maybeProportional ys)
  | [], _, _, _, _, _ => rfl
  | i :: xs, ys, cs, remaining, total, hlt => by
    by_cases hR : remaining = 0
    · subst hR
      simp only [List.cons_append, slashChunks_of_zero, Option.bind_some]
    obtain ⟨c, hc⟩ : ∃ c, cs[i]? = some c := ⟨_, List.getElem?_eq_getElem (hlt i List.mem_cons_self)⟩
    cases hstep : slashOutOf minimumBalance maybeProportional c.value remaining total with
    | none => simp [slashChunks, hR, hc, hstep]
    | some r =>
      obtain ⟨value, remaining₁, total₁⟩ := r
      simp only [List.cons_append, slashChunks, hR, hc, hstep, if_false]
      exact slashChunks_append maybeProportional xs ys _ remaining₁ total₁
        (fun j hj => by rw [List.length_set]; exact hlt j (List.mem_cons_of_mem i hj))

/-- In a proportional run, the chunks before `first` are reached only if the chunks from `first` on gave less than
what remained to slash. -/
theorem slashChunks_affected_short (ratio : Fraction perquintill) {cs cs' : List UnlockChunk} {first : Nat}
    (hfirst : first ≤ cs.length) {remaining total remaining' total' : U128} (hsum : unlockingSum cs ≤ total.val)
    (hrun : slashChunks minimumBalance (some ratio) (List.range' first (cs.length - first) ++ (List.range first).reverse)
      (cs, remaining, total) = some (cs', remaining', total'))
    (hne : cs'.take first ≠ cs.take first) :
    unlockingSum (cs.drop first) - unlockingSum (cs'.drop first) < remaining.val := by
  have haff : ∀ i ∈ List.range' first (cs.length - first), i < cs.length := by
    intro i hi
    rw [List.mem_range'_1] at hi
    omega
  rw [slashChunks_append minimumBalance _ _ _ _ _ _ haff] at hrun
  obtain ⟨csp, remainingp, totalp, hrunp, hlowp, hkeepp, hlep, hTp, hWp, -, -⟩ :=
    slashChunks_spec minimumBalance (some ratio) _ cs remaining total List.nodup_range' haff hsum
  rw [hrunp, Option.bind_some] at hrun
  have htakep : csp.take first = cs.take first :=
    take_eq_of_getElem? fun j hj => hkeepp j (by rw [List.mem_range'_1]; omega)
  -- had nothing remained after the chunks from `first` on, the older ones would be untouched
  have hRp : remainingp.val ≠ 0 := by
    intro h₀
    rw [show remainingp = 0 from Fin.ext h₀, slashChunks_of_zero, Option.some.injEq, Prod.mk.injEq] at hrun
    rw [← hrun.1, htakep] at hne
    exact hne rfl
  obtain ⟨cso, remainingo, totalo, hruno, -, hkeepo, -, -, -, -, -⟩ :=
    slashChunks_spec minimumBalance (some ratio) (List.range first).reverse csp remainingp totalp
      (List.nodup_reverse.mpr List.nodup_range)
      (fun i hi => by rw [List.mem_reverse, List.mem_range] at hi; rw [hlowp.1]; omega) (by omega)
  rw [hruno, Option.some.injEq, Prod.mk.injEq] at hrun
  have hdropo : cs'.drop first = csp.drop first := by
    rw [← hrun.1]
    exact drop_eq_of_getElem? fun j hj => hkeepo j (by rw [List.mem_reverse, List.mem_range]; omega)
  have hpass := hWp.eq_of_ne_zero hRp
  have hsplit := congrArg unlockingSum (List.take_append_drop first cs)
  have hsplitp := congrArg unlockingSum (List.take_append_drop first csp)
  rw [unlockingSum_append] at hsplit hsplitp
  rw [htakep] at hsplitp
  rw [hdropo]
  omega

/-- `slash` of a nonzero amount: `active` first, then the loop over the plan's priority, then the chunks that are
zero go. -/
theorem slash_eq {l : StakingLedger} {slashAmount : U128} (h0 : slashAmount ≠ 0) {slashEra bondingDuration : Fin (2 ^ 32)}
    {maybeProportional : Option (Fraction perquintill)} {priority : List Nat} {active remaining total remaining' total' : U128}
    {cs' : List UnlockChunk}
    (hplan : slashPlan l slashAmount (saturatingAdd slashEra bondingDuration) = (maybeProportional, priority))
    (hactive : slashOutOf minimumBalance maybeProportional l.active slashAmount l.total = some (active, remaining, total))
    (hrun : slashChunks minimumBalance maybeProportional priority (l.unlocking, remaining, total) =
      some (cs', remaining', total')) :
    slash l slashAmount minimumBalance slashEra bondingDuration =
      some ({ l with total := total', active, unlocking := cs'.filter fun c => c.value ≠ 0 },
        saturatingSub l.total total') := by
  simp only [slash, h0, if_false, hplan, hactive, Option.bind_eq_bind, Option.bind_some, hrun]
  rfl

end Slash

/-- `slash` on a balanced ledger whose chunks have strictly increasing eras. It never fails; the amount it returns is
what leaves `total`, and the ledger stays balanced; `active` and each chunk only go down, the chunks keep their eras
and order; a zero slash returns the ledger as it is and `0`, and after a nonzero slash the chunks that are zero go.
It slashes at least `min(slash_amount, total)`, and at most `slash_amount` unless a target left below
`minimum_balance` is taken whole: `active`, or a chunk, goes from a positive value to zero, and the slash stays below
`slash_amount + minimum_balance`. In a proportional slash, the chunks of eras before `slash_era + bonding_duration`
are touched only if `active` and the chunks from that era on gave less than `slash_amount`. -/
theorem ledger_slash_bounds {l : StakingLedger} (hl : l.Balanced)
    (hsorted : (l.unlocking.map UnlockChunk.era).Pairwise (· < ·))
    (slashAmount minimumBalance : U128) (slashEra bondingDuration : Fin (2 ^ 32)) :
    ∃ (l' : StakingLedger) (s : U128) (slashed : List UnlockChunk),
      slash l slashAmount minimumBalance slashEra bondingDuration = some (l', s) ∧
      s.val + l'.total.val = l.total.val ∧ l'.Balanced ∧ l'.active.val ≤ l.active.val ∧
      Lowered l.unlocking slashed ∧ (slashAmount = 0 → l' = l ∧ s = 0) ∧
      l'.unlocking = (if slashAmount = 0 then slashed else slashed.filter fun c => c.value ≠ 0) ∧
      Min.min slashAmount.val l.total.val ≤ s.val ∧
      (s.val ≤ slashAmount.val ∨ s.val < slashAmount.val + minimumBalance.val ∧
        (l'.active.val = 0 ∧ 0 < l.active.val ∨ ∃ j, TakenWhole l.unlocking slashed j)) ∧
      ((∃ c ∈ l.unlocking, saturatingAdd slashEra bondingDuration ≤ c.era) →
        slashed.filter (fun c => decide (c.era < saturatingAdd slashEra bondingDuration)) ≠
          l.unlocking.filter (fun c => decide (c.era < saturatingAdd slashEra bondingDuration)) →
        l.active.val - l'.active.val +
          (unlockingSum (l.unlocking.filter fun c => decide (saturatingAdd slashEra bondingDuration ≤ c.era)) -
            unlockingSum (slashed.filter fun c => decide (saturatingAdd slashEra bondingDuration ≤ c.era))) <
          slashAmount.val) := by
  have hbal := hl
  rw [StakingLedger.Balanced] at hbal
  by_cases h0 : slashAmount = 0
  · -- nothing to slash: the ledger is returned as it is
    subst h0
    exact ⟨l, 0, l.unlocking, if_pos rfl, by simp, hl, le_refl _, Lowered.refl _, fun _ => ⟨rfl, rfl⟩, by simp,
      by simp, by simp, fun _ hne => absurd rfl hne⟩
  have hpos : 0 < slashAmount.val := Nat.pos_of_ne_zero fun h => h0 (Fin.ext h)
  generalize hstart : saturatingAdd slashEra bondingDuration = start
  generalize hplan' : slashPlan l slashAmount start = plan
  obtain ⟨maybeProportional, priority⟩ := plan
  have hplan := hstart ▸ hplan'
  obtain ⟨hnd, hlt, hcover⟩ := slashPlan_spec hl slashAmount start hplan'
  obtain ⟨active, remaining, total, hactive, hA, hT, hR, hdust, hshare⟩ :=
    @slashOutOf_spec minimumBalance maybeProportional l.active slashAmount l.total (by omega)
  -- the chunks are still covered by the total once `active` is slashed
  have hsum : unlockingSum l.unlocking ≤ total.val := by omega
  obtain ⟨cs', remaining', total', hrun, hlow, hkeep, hle, hT', hW, hbound, hwhole⟩ :=
    slashChunks_spec minimumBalance maybeProportional priority l.unlocking remaining total hnd hlt hsum
  have hWactive := Within.step hpos (hdust.imp_right And.right) hR
  have hWall := hWactive.trans hW
  -- the slash is what `active` and the chunks gave
  have hslashed : (saturatingSub l.total total').val =
      l.active.val - active.val + (unlockingSum l.unlocking - unlockingSum cs') := by
    rw [val_saturatingSub, ← hT, ← hT', Nat.add_assoc, Nat.add_sub_cancel_left, Nat.add_comm]
  refine ⟨_, _, cs', slash_eq minimumBalance h0 hplan hactive hrun, ?_, ?_, hA, hlow, fun h => absurd h h0,
    by rw [if_neg h0], ?_, ?_, ?_⟩
  · simp only [val_saturatingSub]
    omega
  · rw [StakingLedger.Balanced]
    dsimp only
    rw [unlockingSum_filter_ne_zero]
    omega
  · rw [hslashed]
    by_cases hz : remaining'.val = 0
    · rw [hz] at hWall
      exact le_trans (Nat.min_le_left _ _) hWall.le_of_zero
    -- something is left: every target gave at least its share, and the shares cover the slash
    have hall := hWall.eq_of_ne_zero hz
    have hR₁ : remaining.val ≠ 0 := fun h₀ => hz (Within.zero (h₀ ▸ hW)).2
    obtain h | h := hbound
    · exact absurd h hz
    obtain h' | h' := hshare
    · exact absurd h' hR₁
    omega
  · rw [hslashed]
    by_cases hle' : l.active.val - active.val + (unlockingSum l.unlocking - unlockingSum cs') ≤ slashAmount.val
    · exact Or.inl hle'
    refine Or.inr ⟨hWall.le_or_lt.resolve_left hle', ?_⟩
    -- more than asked: `active` was taken whole, or else a chunk was
    by_cases hover : l.active.val - active.val ≤ slashAmount.val
    · rcases hwhole with hchunks | ⟨j, -, hj⟩
      · omega
      · exact Or.inr ⟨j, hj⟩
    · exact Or.inl ⟨(hdust.resolve_left hover).1, by omega⟩
  · intro hex hne
    -- the plan is proportional, with the chunks from `first` on ahead of the older ones
    obtain ⟨first, hfind⟩ : ∃ first, l.unlocking.findIdx? (fun c => decide (start ≤ c.era)) = some first := by
      cases hf : l.unlocking.findIdx? (fun c => decide (start ≤ c.era)) with
      | none =>
        obtain ⟨c, hc, hce⟩ := hex
        have := List.findIdx?_eq_none_iff.mp hf c hc
        simp [hce] at this
      | some first => exact ⟨first, rfl⟩
    have hfirst : first ≤ l.unlocking.length := Nat.le_of_lt (List.findIdx?_eq_some_iff_getElem.mp hfind).1
    obtain ⟨ratio, hp, -⟩ := slashPlan_of_some hl slashAmount hfind
    rw [hp, Prod.mk.injEq] at hplan'
    obtain ⟨rfl, rfl⟩ := hplan'
    -- the eras are those of `l`, so the filters are the chunks before and from `first`
    have hera : (l.unlocking.map UnlockChunk.era).findIdx? (fun e => decide (start ≤ e)) = some first := by
      rw [List.findIdx?_map]
      exact hfind
    obtain ⟨hbefore, hafter⟩ := filter_era_of_findIdx hsorted hera
    obtain ⟨hbefore', hafter'⟩ := filter_era_of_findIdx (hlow.map_era ▸ hsorted) (hlow.map_era ▸ hera)
    rw [hbefore, hbefore'] at hne
    rw [hafter, hafter']
    have hshort := slashChunks_affected_short minimumBalance ratio hfirst hsum hrun hne
    have hactive' := hWactive.eq_of_ne_zero (show remaining.val ≠ 0 by omega)
    dsimp only
    omega

/-- A ledger with nothing active and two chunks of 5, of eras 1 and 2, slashed by 6 with a bonding duration of 1. -/
theorem ledger_slash_bounds_twoChunks :
    twoChunks.Balanced ∧ (twoChunks.unlocking.map UnlockChunk.era).Pairwise (· < ·) ∧
    ∃ (l' : StakingLedger) (s : U128) (slashed : List UnlockChunk),
      slash twoChunks 6 1 0 1 = some (l', s) ∧ s.val + l'.total.val = twoChunks.total.val ∧ l'.Balanced ∧
      Lowered twoChunks.unlocking slashed ∧ Min.min (6 : U128).val twoChunks.total.val ≤ s.val ∧
      (s.val ≤ (6 : U128).val ∨ s.val < (6 : U128).val + (1 : U128).val ∧
        (l'.active.val = 0 ∧ 0 < twoChunks.active.val ∨ ∃ j, TakenWhole twoChunks.unlocking slashed j)) := by
  have hl : twoChunks.Balanced := by decide
  have hs : (twoChunks.unlocking.map UnlockChunk.era).Pairwise (· < ·) := by decide
  obtain ⟨l', s, slashed, hslash, htotal, hbal, -, hlow, -, -, hmin, hover, -⟩ := ledger_slash_bounds hl hs 6 1 0 1
  exact ⟨hl, hs, l', s, slashed, hslash, htotal, hbal, hlow, hmin, hover⟩

/-- The dust rule can slash more than asked: 5 out of an `active` of 10 leaves 5, below a `minimum_balance` of 100,
so all 10 go. -/
theorem slash_dust_exceeds_amount : slash ⟨10, 10, []⟩ 5 100 0 28 = some (⟨0, 0, []⟩, 10) := by
  decide

end CoreChain.Staking

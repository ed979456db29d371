import CoreChain.Lib.Word
import Mathlib

/-!
# Rotations of validator groups

`GroupRotationInfo` (`polkadot/primitives/src/v8/mod.rs`) assigns the validator groups of a session to its cores in
turn: every `group_rotation_frequency` blocks after `session_start_block`, each core passes to the next group.
`group_for_core` is the group of a core and `core_for_group` the core of a group, `last_rotation_at` and
`next_rotation_at` are the rotations around `now`, and `bump_rotation` is the info one rotation later. The scheduler
of the runtime computes the group of a core on its own (`Scheduler::group_assigned_to_core`).

Block numbers and indices are `u32`; the number of cores is a `usize` of `w` bits, and the index sums are taken in
`usize`, where they wrap. Where `usize` is wider than 32 bits nothing wraps: the two maps are inverse
(`coreForGroup_groupForCore`, `groupForCore_coreForGroup`) and a rotation later each core has the next group
(`groupForCore_bumpRotation`). With a 32-bit `usize`, `core_index + rotations` wraps once it reaches `2 ^ 32`, and the
maps stop being inverse (`group_rotation_wraps_on_32_bit`). The rotation instants and the scheduler's assignment do
not depend on the width (`rotation_instants`, `groupAssignedToCore_eq`).

A quotient or remainder by a frequency of `0` panics, and is `none`.
-/

namespace CoreChain.Parachain

open CoreChain.Word (truncate saturatingSub)

variable {w : Nat}

/-- `GroupRotationInfo<BlockNumber>`, with `BlockNumber = u32`. -/
structure GroupRotationInfo where
  sessionStartBlock : Fin (2 ^ 32)
  groupRotationFrequency : Fin (2 ^ 32)
  now : Fin (2 ^ 32)
  deriving DecidableEq, Repr

namespace GroupRotationInfo

/-- `blocks_since_start / group_rotation_frequency` of `group_for_core` and `core_for_group`. -/
def rotations (i : GroupRotationInfo) : Fin (2 ^ 32) :=
  saturatingSub i.now i.sessionStartBlock / i.groupRotationFrequency

/-- `core::cmp::min(cores, u32::MAX as usize)`. -/
def capCores (cores : Fin (2 ^ w)) : Fin (2 ^ w) :=
  min cores (truncate (Word.max 32))

/-- `GroupRotationInfo::group_for_core`, with `CoreIndex` and `GroupIndex` as their `u32`. -/
def groupForCore (i : GroupRotationInfo) (coreIndex : Fin (2 ^ 32)) (cores : Fin (2 ^ w)) : Fin (2 ^ 32) :=
  if i.groupRotationFrequency = 0 then coreIndex
  else if cores = 0 then 0
  else
    let cores := capCores cores
    truncate ((truncate coreIndex + truncate i.rotations) % cores)

/-- `GroupRotationInfo::core_for_group`. -/
def coreForGroup (i : GroupRotationInfo) (groupIndex : Fin (2 ^ 32)) (cores : Fin (2 ^ w)) : Fin (2 ^ 32) :=
  if i.groupRotationFrequency = 0 then groupIndex
  else if cores = 0 then 0
  else
    let cores := capCores cores
    let rotations := i.rotations % truncate cores
    truncate ((truncate groupIndex + cores - truncate rotations) % cores)

/-- `GroupRotationInfo::next_rotation_at`. -/
def nextRotationAt (i : GroupRotationInfo) : Option (Fin (2 ^ 32)) :=
  if i.groupRotationFrequency = 0 then none
  else
    let cycleOnce := i.now + i.groupRotationFrequency
    some (cycleOnce - saturatingSub cycleOnce i.sessionStartBlock % i.groupRotationFrequency)

/-- `GroupRotationInfo::last_rotation_at`. -/
def lastRotationAt (i : GroupRotationInfo) : Option (Fin (2 ^ 32)) :=
  if i.groupRotationFrequency = 0 then none
  else some (i.now - saturatingSub i.now i.sessionStartBlock % i.groupRotationFrequency)

/-- `GroupRotationInfo::bump_rotation`. -/
def bumpRotation (i : GroupRotationInfo) : Option GroupRotationInfo :=
  i.nextRotationAt.map fun next => { i with now := next }

end GroupRotationInfo

/-- `Scheduler::group_assigned_to_core` with `validatorGroups` groups: `some none` where it returns `None`. The
conversion of the rotations to `u32` never fails, as `BlockNumber` is `u32`. -/
def groupAssignedToCore (sessionStartBlock groupRotationFrequency : Fin (2 ^ 32)) (validatorGroups : Fin (2 ^ w))
    (core «at» : Fin (2 ^ 32)) : Option (Option (Fin (2 ^ 32))) :=
  if «at» < sessionStartBlock then some none
  else if validatorGroups ≤ truncate core then some none
  else if groupRotationFrequency = 0 then none
  else
    let rotationsSinceSessionStart := («at» - sessionStartBlock) / groupRotationFrequency
    some (some (truncate ((truncate core + truncate rotationsSinceSessionStart) % validatorGroups)))

/-! ## Modular arithmetic of the two maps -/

/-- Going back `r` from `c + r`. -/
theorem add_mod_sub_mod {c r n : Nat} (hc : c < n) : ((c + r) % n + n - r % n) % n = c := by
  have hle : r % n ≤ (c + r) % n + n := Nat.le_add_left_of_le (Nat.mod_lt r (by omega)).le
  have hcast : (((c + r) % n + n - r % n : ℕ) : ZMod n) = c := by
    rw [Nat.cast_sub hle]
    push_cast [ZMod.natCast_mod, ZMod.natCast_self]
    ring
  rw [(ZMod.natCast_eq_natCast_iff' _ _ n).1 hcast, Nat.mod_eq_of_lt hc]

/-- Going forward `r` from `g - r`. -/
theorem sub_mod_add_mod {g r n : Nat} (hg : g < n) : ((g + n - r % n) % n + r) % n = g := by
  have hle : r % n ≤ g + n := Nat.le_add_left_of_le (Nat.mod_lt r (by omega)).le
  have hcast : (((g + n - r % n) % n + r : ℕ) : ZMod n) = g := by
    push_cast [ZMod.natCast_mod, Nat.cast_sub hle, ZMod.natCast_self]
    ring
  rw [(ZMod.natCast_eq_natCast_iff' _ _ n).1 hcast, Nat.mod_eq_of_lt hg]

/-! ## The value of each function -/

namespace GroupRotationInfo

variable (i : GroupRotationInfo)

theorem val_truncate_u32 (hw : 32 ≤ w) (a : Fin (2 ^ 32)) : (truncate a : Fin (2 ^ w)).val = a.val :=
  Word.val_truncate_of_lt (Nat.lt_of_lt_of_le a.isLt (Nat.pow_le_pow_right Nat.two_pos hw))

theorem val_capCores (hw : 32 ≤ w) {cores : Fin (2 ^ w)} (hmax : cores.val ≤ 2 ^ 32 - 1) :
    (capCores cores).val = cores.val := by
  have hcap : (truncate (Word.max 32) : Fin (2 ^ w)).val = 2 ^ 32 - 1 := by
    rw [val_truncate_u32 hw, Word.val_max]
  rw [capCores, Fin.coe_min, hcap]
  exact Nat.min_eq_left hmax

@[simp] theorem val_rotations :
    i.rotations.val = (i.now.val - i.sessionStartBlock.val) / i.groupRotationFrequency.val :=
  rfl

/-- `group_for_core` adds the rotations in `usize`. -/
theorem val_groupForCore (hw : 32 ≤ w) (hf : i.groupRotationFrequency ≠ 0) {cores : Fin (2 ^ w)} (hn : cores ≠ 0)
    (hmax : cores.val ≤ 2 ^ 32 - 1) (c : Fin (2 ^ 32)) :
    (i.groupForCore c cores).val = (c.val + i.rotations.val) % 2 ^ w % cores.val := by
  have hpos : 0 < cores.val := Nat.pos_of_ne_zero (Fin.val_ne_iff.2 hn)
  have hlt : (c.val + i.rotations.val) % 2 ^ w % cores.val < 2 ^ 32 := by
    have := Nat.mod_lt ((c.val + i.rotations.val) % 2 ^ w) hpos
    omega
  simp only [groupForCore, hf, hn, if_false]
  rw [Word.val_truncate_of_lt (by rwa [Fin.val_mod, Fin.val_add, val_truncate_u32 hw, val_truncate_u32 hw,
    val_capCores hw hmax]), Fin.val_mod, Fin.val_add, val_truncate_u32 hw, val_truncate_u32 hw, val_capCores hw hmax]

/-- Where `usize` is wider than 32 bits the sum does not wrap. -/
theorem val_groupForCore_wide (hw : 33 ≤ w) (hf : i.groupRotationFrequency ≠ 0) {cores : Fin (2 ^ w)}
    (hn : cores ≠ 0) (hmax : cores.val ≤ 2 ^ 32 - 1) (c : Fin (2 ^ 32)) :
    (i.groupForCore c cores).val = (c.val + i.rotations.val) % cores.val := by
  have hsum : c.val + i.rotations.val < 2 ^ w := by
    have h33 : 2 ^ 33 ≤ 2 ^ w := Nat.pow_le_pow_right Nat.two_pos hw
    have := c.isLt
    have := i.rotations.isLt
    omega
  rw [val_groupForCore i (by omega) hf hn hmax, Nat.mod_eq_of_lt hsum]

/-- `core_for_group` takes the rotations off in `usize`; wider than 32 bits nothing wraps. -/
theorem val_coreForGroup_wide (hw : 33 ≤ w) (hf : i.groupRotationFrequency ≠ 0) {cores : Fin (2 ^ w)}
    (hn : cores ≠ 0) (hmax : cores.val ≤ 2 ^ 32 - 1) (g : Fin (2 ^ 32)) :
    (i.coreForGroup g cores).val = (g.val + cores.val - i.rotations.val % cores.val) % cores.val := by
  have hw32 : 32 ≤ w := by omega
  have hpos : 0 < cores.val := Nat.pos_of_ne_zero (Fin.val_ne_iff.2 hn)
  have h33 : 2 ^ 33 ≤ 2 ^ w := Nat.pow_le_pow_right Nat.two_pos hw
  have hcores32 : (truncate (capCores cores) : Fin (2 ^ 32)).val = cores.val := by
    rw [Word.val_truncate, val_capCores hw32 hmax]
    exact Nat.mod_eq_of_lt (by omega)
  -- `rotations % cores as u32`, then `as usize`
  have hrot : (truncate (i.rotations % truncate (capCores cores)) : Fin (2 ^ w)).val =
      i.rotations.val % cores.val := by
    rw [val_truncate_u32 hw32, Fin.val_mod, hcores32]
  -- `group_index + cores`, below `2 ^ 33`
  have hadd : (truncate g + capCores cores : Fin (2 ^ w)).val = g.val + cores.val := by
    rw [Fin.val_add, val_truncate_u32 hw32, val_capCores hw32 hmax]
    exact Nat.mod_eq_of_lt (by have := g.isLt; omega)
  have hle : (truncate (i.rotations % truncate (capCores cores)) : Fin (2 ^ w)) ≤ truncate g + capCores cores := by
    rw [Fin.le_iff_val_le_val, hrot, hadd]
    exact Nat.le_add_left_of_le (Nat.mod_lt _ hpos).le
  have hsub : (truncate g + capCores cores - truncate (i.rotations % truncate (capCores cores)) : Fin (2 ^ w)).val =
      g.val + cores.val - i.rotations.val % cores.val := by
    rw [Fin.sub_val_of_le hle, hadd, hrot]
  have hlt : (g.val + cores.val - i.rotations.val % cores.val) % cores.val < 2 ^ 32 := by
    have := Nat.mod_lt (g.val + cores.val - i.rotations.val % cores.val) hpos
    omega
  simp only [coreForGroup, hf, hn, if_false]
  rw [Word.val_truncate_of_lt (by rwa [Fin.val_mod, hsub, val_capCores hw32 hmax]), Fin.val_mod, hsub,
    val_capCores hw32 hmax]

/-! ## The two maps are inverse where `usize` is wide -/

theorem coreForGroup_groupForCore (hw : 33 ≤ w) {cores : Fin (2 ^ w)} (hmax : cores.val ≤ 2 ^ 32 - 1)
    {c : Fin (2 ^ 32)} (hc : c.val < cores.val) : i.coreForGroup (i.groupForCore c cores) cores = c := by
  by_cases hf : i.groupRotationFrequency = 0
  · simp [groupForCore, coreForGroup, hf]
  have hn : cores ≠ 0 := Fin.val_ne_iff.1 (by rw [Fin.val_zero]; omega)
  apply Fin.ext
  rw [val_coreForGroup_wide i hw hf hn hmax, val_groupForCore_wide i hw hf hn hmax]
  exact add_mod_sub_mod hc

theorem groupForCore_coreForGroup (hw : 33 ≤ w) {cores : Fin (2 ^ w)} (hmax : cores.val ≤ 2 ^ 32 - 1)
    {g : Fin (2 ^ 32)} (hg : g.val < cores.val) : i.groupForCore (i.coreForGroup g cores) cores = g := by
  by_cases hf : i.groupRotationFrequency = 0
  · simp [groupForCore, coreForGroup, hf]
  have hn : cores ≠ 0 := Fin.val_ne_iff.1 (by rw [Fin.val_zero]; omega)
  apply Fin.ext
  rw [val_groupForCore_wide i hw hf hn hmax, val_coreForGroup_wide i hw hf hn hmax]
  exact sub_mod_add_mod hg

/-! ## Rotations over time -/

/-- The last rotation is a whole number of frequencies after the session start. -/
theorem lastRotationAt_eq (hf : i.groupRotationFrequency ≠ 0) (hs : i.sessionStartBlock ≤ i.now) :
    ∃ last, i.lastRotationAt = some last ∧
      last.val = i.sessionStartBlock.val + i.groupRotationFrequency.val * i.rotations.val := by
  have hsle : i.sessionStartBlock.val ≤ i.now.val := Fin.le_iff_val_le_val.1 hs
  have hsplit := Nat.mod_add_div (i.now.val - i.sessionStartBlock.val) i.groupRotationFrequency.val
  have hle : saturatingSub i.now i.sessionStartBlock % i.groupRotationFrequency ≤ i.now := by
    rw [Fin.le_iff_val_le_val, Fin.val_mod, Word.val_saturatingSub]
    omega
  refine ⟨i.now - saturatingSub i.now i.sessionStartBlock % i.groupRotationFrequency,
    by simp [lastRotationAt, hf], ?_⟩
  rw [Fin.sub_val_of_le hle, Fin.val_mod, Word.val_saturatingSub, val_rotations]
  omega

/-- The next rotation is one frequency after the last, where `now + group_rotation_frequency` does not overflow. -/
theorem nextRotationAt_eq (hf : i.groupRotationFrequency ≠ 0) (hs : i.sessionStartBlock ≤ i.now)
    (hnow : i.now.val + i.groupRotationFrequency.val < 2 ^ 32) :
    ∃ next, i.nextRotationAt = some next ∧
      next.val = i.sessionStartBlock.val + i.groupRotationFrequency.val * (i.rotations.val + 1) := by
  have hsle : i.sessionStartBlock.val ≤ i.now.val := Fin.le_iff_val_le_val.1 hs
  have hcycle : (i.now + i.groupRotationFrequency).val = i.now.val + i.groupRotationFrequency.val := by
    rw [Fin.val_add]
    exact Nat.mod_eq_of_lt hnow
  -- the remainder of `cycle_once - session_start_block` is that of `now - session_start_block`
  have hrem : (saturatingSub (i.now + i.groupRotationFrequency) i.sessionStartBlock % i.groupRotationFrequency).val =
      (i.now.val - i.sessionStartBlock.val) % i.groupRotationFrequency.val := by
    rw [Fin.val_mod, Word.val_saturatingSub, hcycle, Nat.sub_add_comm hsle, Nat.add_mod_right]
  have hsplit := Nat.mod_add_div (i.now.val - i.sessionStartBlock.val) i.groupRotationFrequency.val
  have hle : saturatingSub (i.now + i.groupRotationFrequency) i.sessionStartBlock % i.groupRotationFrequency ≤
      i.now + i.groupRotationFrequency := by
    rw [Fin.le_iff_val_le_val, hrem, hcycle]
    omega
  refine ⟨i.now + i.groupRotationFrequency -
    saturatingSub (i.now + i.groupRotationFrequency) i.sessionStartBlock % i.groupRotationFrequency,
    by simp [nextRotationAt, hf], ?_⟩
  rw [Fin.sub_val_of_le hle, hrem, hcycle, val_rotations, Nat.mul_add, Nat.mul_one]
  omega

/-- The rotations around `now`: the last at or before it, the next after it and one frequency later, both a whole
number of frequencies after the session start. -/
theorem rotation_instants (hf : i.groupRotationFrequency ≠ 0) (hs : i.sessionStartBlock ≤ i.now)
    (hnow : i.now.val + i.groupRotationFrequency.val < 2 ^ 32) :
    ∃ last next, i.lastRotationAt = some last ∧ i.nextRotationAt = some next ∧
      last ≤ i.now ∧ i.now < next ∧ next.val = last.val + i.groupRotationFrequency.val ∧
      last.val % i.groupRotationFrequency.val = i.sessionStartBlock.val % i.groupRotationFrequency.val ∧
      next.val % i.groupRotationFrequency.val = i.sessionStartBlock.val % i.groupRotationFrequency.val := by
  obtain ⟨last, hlast, hlastv⟩ := i.lastRotationAt_eq hf hs
  obtain ⟨next, hnext, hnextv⟩ := i.nextRotationAt_eq hf hs hnow
  have hfpos : 0 < i.groupRotationFrequency.val := Nat.pos_of_ne_zero (Fin.val_ne_iff.2 hf)
  have hsle : i.sessionStartBlock.val ≤ i.now.val := Fin.le_iff_val_le_val.1 hs
  -- `rotations` whole frequencies fit in `now - session_start_block`, one more does not
  have hbelow : i.groupRotationFrequency.val * i.rotations.val ≤ i.now.val - i.sessionStartBlock.val := by
    rw [val_rotations]
    exact Nat.mul_div_le _ _
  have habove : i.now.val - i.sessionStartBlock.val < i.groupRotationFrequency.val * (i.rotations.val + 1) := by
    rw [val_rotations]
    exact Nat.lt_mul_div_succ _ hfpos
  have hstep : next.val = last.val + i.groupRotationFrequency.val := by
    rw [hnextv, hlastv, Nat.mul_add, Nat.mul_one, Nat.add_assoc]
  have hlastmod : last.val % i.groupRotationFrequency.val =
      i.sessionStartBlock.val % i.groupRotationFrequency.val := by
    rw [hlastv, Nat.add_mul_mod_self_left]
  refine ⟨last, next, hlast, hnext, ?_, ?_, hstep, hlastmod, ?_⟩
  · rw [Fin.le_iff_val_le_val, hlastv]
    omega
  · rw [Fin.lt_def, hnextv]
    omega
  · rw [hstep, Nat.add_mod_right, hlastmod]

/-- A rotation later, where nothing wraps, each core has the next group. -/
theorem groupForCore_bumpRotation (hw : 33 ≤ w) (hf : i.groupRotationFrequency ≠ 0)
    (hs : i.sessionStartBlock ≤ i.now) (hnow : i.now.val + i.groupRotationFrequency.val < 2 ^ 32)
    {cores : Fin (2 ^ w)} (hn : cores ≠ 0) (hmax : cores.val ≤ 2 ^ 32 - 1) (c : Fin (2 ^ 32)) :
    ∃ j, i.bumpRotation = some j ∧
      (j.groupForCore c cores).val = ((i.groupForCore c cores).val + 1) % cores.val := by
  obtain ⟨next, hnext, hnextv⟩ := i.nextRotationAt_eq hf hs hnow
  have hfpos : 0 < i.groupRotationFrequency.val := Nat.pos_of_ne_zero (Fin.val_ne_iff.2 hf)
  -- one more rotation since the session start
  have hrot : ({ i with now := next } : GroupRotationInfo).rotations.val = i.rotations.val + 1 := by
    rw [val_rotations]
    simp only
    rw [hnextv, Nat.add_sub_cancel_left, Nat.mul_div_cancel_left _ hfpos]
  refine ⟨{ i with now := next }, by simp [bumpRotation, hnext], ?_⟩
  rw [val_groupForCore_wide { i with now := next } hw hf hn hmax, val_groupForCore_wide i hw hf hn hmax, hrot,
    Nat.mod_add_mod, Nat.add_assoc]

/-- The scheduler of the runtime assigns each core the group `group_for_core` gives, whatever the width of `usize`. -/
theorem groupAssignedToCore_eq (hw : 32 ≤ w) (hf : i.groupRotationFrequency ≠ 0)
    (hs : i.sessionStartBlock ≤ i.now) {cores : Fin (2 ^ w)} (hmax : cores.val ≤ 2 ^ 32 - 1) {c : Fin (2 ^ 32)}
    (hc : c.val < cores.val) :
    groupAssignedToCore i.sessionStartBlock i.groupRotationFrequency cores c i.now =
      some (some (i.groupForCore c cores)) := by
  have hn : cores ≠ 0 := Fin.val_ne_iff.1 (by rw [Fin.val_zero]; omega)
  have hnotlt : ¬ i.now < i.sessionStartBlock := Fin.not_lt.2 hs
  have hnotle : ¬ cores ≤ truncate c := by
    rw [Fin.le_iff_val_le_val, val_truncate_u32 hw]
    omega
  have hrot : (i.now - i.sessionStartBlock) / i.groupRotationFrequency = i.rotations := by
    apply Fin.ext
    rw [Fin.div_val, Fin.sub_val_of_le hs, val_rotations]
  have hcap : capCores cores = cores := Fin.ext (val_capCores hw hmax)
  simp only [groupAssignedToCore, groupForCore, hnotlt, hnotle, hf, hn, hrot, hcap, if_false]

/-- With a 32-bit `usize`, one rotation a block, five blocks in and `u32::MAX` cores, core `u32::MAX - 1` gets group
`3` where a 64-bit `usize` gives `4`, and the core of that group is `u32::MAX - 2`, not the core it came from. -/
theorem group_rotation_wraps_on_32_bit :
    (⟨0, 1, 5⟩ : GroupRotationInfo).groupForCore 4294967294 (4294967295 : Fin (2 ^ 32)) = 3 ∧
      (⟨0, 1, 5⟩ : GroupRotationInfo).coreForGroup 3 (4294967295 : Fin (2 ^ 32)) = 4294967293 ∧
      (⟨0, 1, 5⟩ : GroupRotationInfo).groupForCore 4294967294 (4294967295 : Fin (2 ^ 64)) = 4 ∧
      (⟨0, 1, 5⟩ : GroupRotationInfo).coreForGroup 4 (4294967295 : Fin (2 ^ 64)) = 4294967294 := by
  decide

end GroupRotationInfo

end CoreChain.Parachain

import CoreChain.StateDb.NonCanonical

/-!
# What the canonicalization window lets through

Two ways the blocks of the overlay stop forming the tree its walks expect.

`insert` checks the parent of a block above the front level only by `parents.contains_key`
(`insertChecks_of_parent`). A block discarded by `canonicalize` while pinned stays in `parents`, so a child of it is
accepted on the next level, where no level below holds its parent (`insert_child_of_discarded`): the walks of
`discard_descendants` and `discard_journals` never reach it from the discarded block.

`canonicalize` takes the front level off before it looks for the block in it, and an unknown block leaves it off
(`canonicalize_of_not_mem`): the level's blocks are gone from the levels, while their parents and their counted
values stay (`canonicalize_unknown_drops_level`).
-/

namespace CoreChain.StateDb

namespace NonCanonicalOverlay

variable {H K : Type} [DecidableEq H] [DecidableEq K]

/-! ## The parent of an inserted block -/

/-- Above the front level, the checks of `insert` accept a parent as soon as the overlay has it in `parents`. -/
theorem insertChecks_of_parent {o : NonCanonicalOverlay H K} {number : Nat} {parentHash : H}
    (hlast : o.lastCanonicalized.isSome) (hlo : o.frontBlockNumber < number)
    (hhi : number ≤ o.frontBlockNumber + o.levels.length) (hparent : (o.parents.lookup parentHash).isSome) :
    insertChecks o number parentHash = .ok (o, []) := by
  -- with a last canonicalized block, the branch of the first block is not taken
  have hfirst : ¬(o.levels.isEmpty = true ∧ o.lastCanonicalized.isNone = true ∧ number > 0) := by
    rintro ⟨-, hnone, -⟩
    rw [Option.isNone_iff_eq_none] at hnone
    simp [hnone] at hlast
  unfold insertChecks
  rw [if_neg hfirst, if_pos hlast, if_neg (by omega), if_neg (by omega), if_pos hparent]

/-- Two blocks at height 1, a child of each at height 2, and the child `4` of `2` pinned. Canonicalizing `1` discards
`2` and `4` but keeps them in `parents` for the pin; a block `5` at height 3 is then accepted as a child of `4`, on a
level above one that lacks its parent. -/
theorem insert_child_of_discarded :
    ∃ o, run (empty : NonCanonicalOverlay Nat Nat)
        [.insert 1 1 0 ⟨[], []⟩, .insert 2 1 0 ⟨[], []⟩, .insert 3 2 1 ⟨[], []⟩, .insert 4 2 2 ⟨[], []⟩, .pin 4,
          .canonicalize 1, .insert 5 3 4 ⟨[], []⟩] = some o ∧
      o.levels.map (·.blocks.map (·.hash)) = [[3], [5]] ∧ o.parents.lookup 5 = some 4 ∧
      o.pinnedInsertions.lookup 4 = some ([], 1) := by
  refine ⟨_, rfl, ?_⟩
  decide

/-! ## Canonicalizing an unknown block -/

/-- A block not on the front level: `canonicalize` returns its error with the front level gone, and nothing else
changed. -/
theorem canonicalize_of_not_mem {o : NonCanonicalOverlay H K} {level : OverlayLevel H K}
    {levels : List (OverlayLevel H K)} (hlevels : o.levels = level :: levels) {hash : H}
    (hnot : ∀ b ∈ level.blocks, b.hash ≠ hash) (commit : CommitSet H K) :
    o.canonicalize hash commit = some ({ o with levels := levels }, commit, .error .invalidBlock) := by
  have hfind : level.blocks.findIdx? (·.hash = hash) = none := by
    rw [List.findIdx?_eq_none_iff]
    intro b hb
    simpa using hnot b hb
  unfold canonicalize
  rw [hlevels]
  simp only [hfind]

/-- A block `1` at #1 that inserted the key `7`, then `canonicalize` of the unknown block `9`: the levels are empty
and nothing waits on a pin, but the value of `7` is still counted once, and `1` is still in `parents`. -/
theorem canonicalize_unknown_drops_level :
    ∃ o, run (empty : NonCanonicalOverlay Nat Nat) [.insert 1 1 0 ⟨[(7, [42])], []⟩, .canonicalize 9] = some o ∧
      o.levels = [] ∧ o.pinnedInsertions.entries = [] ∧ o.values.lookup 7 = some (1, [42]) ∧
      o.parents.lookup 1 = some 0 := by
  refine ⟨_, rfl, ?_⟩
  decide

end NonCanonicalOverlay

end CoreChain.StateDb

import Mathlib
import CoreChain.ForkTree.Data

/-!
# GRANDPA authority sets

The model of `AuthoritySet` in `substrate/client/consensus/grandpa/src/authorities.rs`. Pending changes of the
authority set are standard ones, kept in a `ForkTree` and enacted when their block is finalized, and forced ones,
kept in a list sorted by effective number and announcing height and enacted on the best chain.

- `addPendingChange` checks the new authorities and files the change by its delay kind;
- `applyStandardChanges` finalizes through the fork tree, `applyForcedChanges` returns the new set of the first
  forced change that the best block enacts, and `revert` drops what was announced after a block;
- `currentVoters` is `SharedAuthoritySet::current_authorities`, through `VoterSet::new` of the
  `finality-grandpa` crate, which is a parameter here.

The ancestry oracle is total, so `Error::Client` never occurs; logging and telemetry are left out.
-/

namespace CoreChain.Grandpa

open Fork

/-- `DelayKind`: a change waits for finality, or for depth in the best chain. -/
inductive DelayKind (N : Type _) where
  | finalized
  | best (medianLastFinalized : N)
  deriving DecidableEq, Repr

/-- `PendingChange`: the next authorities with their weights, announced at `canonHeight`/`canonHash` and due
`delay` blocks later. -/
structure PendingChange (A H N : Type _) where
  nextAuthorities : List (A × UInt64)
  delay : N
  canonHeight : N
  canonHash : H
  delayKind : DelayKind N

/-- `AuthoritySet`. -/
structure AuthoritySet (A H N : Type _) where
  currentAuthorities : List (A × UInt64)
  setId : Nat
  pendingStandardChanges : ForkTree H N (PendingChange A H N)
  pendingForcedChanges : List (PendingChange A H N)
  authoritySetChanges : List (Nat × N)

/-- `Error`, without `Client`. -/
inductive Error (N : Type _) where
  | invalidAuthoritySet
  | duplicateAuthoritySetChange
  | multiplePendingForcedAuthoritySetChanges
  | forcedAuthoritySetChangeDependencyUnsatisfied (number : N)
  | forkTree (e : Fork.Error)
  deriving DecidableEq, Repr

/-- `From<fork_tree::Error>`: a duplicate in the tree is a duplicate change. -/
def Error.ofForkTree {N : Type _} : Fork.Error → Error N
  | .duplicate => .duplicateAuthoritySetChange
  | e => .forkTree e

/-- `Status`: whether anything changed, and the block where a new set starts. -/
structure Status (H N : Type _) where
  changed : Bool
  newSetBlock : Option (H × N)

variable {A H N : Type _}

/-- `PendingChange::effective_number`. -/
def PendingChange.effectiveNumber [Add N] (c : PendingChange A H N) : N :=
  c.canonHeight + c.delay

/-- The key that orders `pending_forced_changes`: `(effective_number, canon_height)`, compared as a tuple. -/
def PendingChange.forcedKey [Add N] (c : PendingChange A H N) : Lex (N × N) :=
  toLex (c.effectiveNumber, c.canonHeight)

/-- `invalid_authority_list`: an empty list, or one with a zero weight. -/
def invalidAuthorityList (authorities : List (A × UInt64)) : Bool :=
  authorities.isEmpty || authorities.any (fun a => a.2 == 0)

/-- `AuthoritySet::genesis`. -/
def AuthoritySet.genesis (initial : List (A × UInt64)) : Option (AuthoritySet A H N) :=
  if invalidAuthorityList initial then none else some ⟨initial, 0, ForkTree.new, [], []⟩

/-- `SharedAuthoritySet::current_authorities`: `VoterSet::new` of the current authorities; `none` where its
`expect` panics. -/
def AuthoritySet.currentVoters {VS : Type _} (voterSetNew : List (A × UInt64) → Option VS)
    (s : AuthoritySet A H N) : Option VS :=
  voterSetNew s.currentAuthorities

section Ops

variable [DecidableEq H] [LinearOrder N] [Add N]

/-- `revert`: drop the standard changes announced after the block, walking only its branch, and the forced
changes announced below it. -/
def AuthoritySet.revert (s : AuthoritySet A H N) (hash : H) (number : N) (isDescendentOf : H → H → Bool) :
    AuthoritySet A H N :=
  let filter := fun (nodeHash : H) (nodeNum : N) (_ : PendingChange A H N) =>
    if nodeNum ≤ number ∧ (isDescendentOf nodeHash hash || nodeHash == hash) then FilterAction.keepNode
    else if number < nodeNum ∧ isDescendentOf hash nodeHash then FilterAction.remove
    else FilterAction.keepTree
  { s with
    pendingStandardChanges := s.pendingStandardChanges.drainFilter filter
    pendingForcedChanges := s.pendingForcedChanges.filter (fun c => !isDescendentOf hash c.canonHash) }

/-- `add_standard_change`: import the change into the fork tree at its announcing block. -/
def AuthoritySet.addStandardChange (s : AuthoritySet A H N) (pending : PendingChange A H N)
    (isDescendentOf : H → H → Bool) : Except (Error N) (AuthoritySet A H N) :=
  match s.pendingStandardChanges.import pending.canonHash pending.canonHeight pending isDescendentOf with
  | .error e => .error (Error.ofForkTree e)
  | .ok (_, tree) => .ok { s with pendingStandardChanges := tree }

/-- `add_forced_change`: the first forced change with the same block is a duplicate, one above it a second
forced change on the branch; otherwise insert where `binary_search_by_key` puts the key. -/
def AuthoritySet.addForcedChange (s : AuthoritySet A H N) (pending : PendingChange A H N)
    (isDescendentOf : H → H → Bool) : Except (Error N) (AuthoritySet A H N) :=
  match s.pendingForcedChanges.find?
      (fun c => c.canonHash == pending.canonHash || isDescendentOf c.canonHash pending.canonHash) with
  | some c =>
    .error (if c.canonHash == pending.canonHash then .duplicateAuthoritySetChange
      else .multiplePendingForcedAuthoritySetChanges)
  | none =>
    let idx := match binarySearchBy s.pendingForcedChanges (fun c => compare c.forcedKey pending.forcedKey) with
      | .ok i => i
      | .error i => i
    .ok { s with pendingForcedChanges := s.pendingForcedChanges.insertIdx idx pending }

/-- `add_pending_change`. -/
def AuthoritySet.addPendingChange (s : AuthoritySet A H N) (pending : PendingChange A H N)
    (isDescendentOf : H → H → Bool) : Except (Error N) (AuthoritySet A H N) :=
  if invalidAuthorityList pending.nextAuthorities then .error .invalidAuthoritySet
  else
    match pending.delayKind with
    | .best _ => s.addForcedChange pending isDescendentOf
    | .finalized => s.addStandardChange pending isDescendentOf

/-- The forced changes that `apply_forced_changes` looks at, in order: the `take_while` on effective numbers up
to the best block, then the `filter` on those equal to it. -/
def AuthoritySet.forcedCandidates (s : AuthoritySet A H N) (bestNumber : N) : List (PendingChange A H N) :=
  (s.pendingForcedChanges.takeWhile (fun c => decide (c.effectiveNumber ≤ bestNumber))).filter
    (fun c => decide (c.effectiveNumber = bestNumber))

/-- The loop of `apply_forced_changes` over the candidates: the first on the best block's branch is applied, unless a
pending standard change it depends on is due by its median last finalized block. `none` is the `unreachable!` of a
forced change without a `Best` delay. -/
def AuthoritySet.applyForcedLoop (s : AuthoritySet A H N) (bestHash : H) (isDescendentOf : H → H → Bool) :
    List (PendingChange A H N) → Option (Except (Error N) (Option (N × AuthoritySet A H N)))
  | [] => some (.ok none)
  | change :: rest =>
    if change.canonHash == bestHash || isDescendentOf change.canonHash bestHash then
      match change.delayKind with
      | .finalized => none
      | .best medianLastFinalized =>
        match s.pendingStandardChanges.roots.find? (fun r =>
            decide (r.data.effectiveNumber ≤ medianLastFinalized) && isDescendentOf r.data.canonHash change.canonHash) with
        | some r => some (.error (.forcedAuthoritySetChangeDependencyUnsatisfied r.data.effectiveNumber))
        | none => some (.ok (some (medianLastFinalized,
            ⟨change.nextAuthorities, s.setId + 1, ForkTree.new, [],
              s.authoritySetChanges ++ [(s.setId, medianLastFinalized)]⟩)))
    else s.applyForcedLoop bestHash isDescendentOf rest

/-- `apply_forced_changes`: the new set, if a forced change is enacted at the best block; the set itself does
not change. -/
def AuthoritySet.applyForcedChanges (s : AuthoritySet A H N) (bestHash : H) (bestNumber : N)
    (isDescendentOf : H → H → Bool) : Option (Except (Error N) (Option (N × AuthoritySet A H N))) :=
  s.applyForcedLoop bestHash isDescendentOf (s.forcedCandidates bestNumber)

/-- `apply_standard_changes`: finalize the block in the fork tree, enacting the change of a finalized root
that is due; on any change keep only the forced changes after the block and on its branch. -/
def AuthoritySet.applyStandardChanges (s : AuthoritySet A H N) (finalizedHash : H) (finalizedNumber : N)
    (isDescendentOf : H → H → Bool) : Except (Error N) (Status H N × AuthoritySet A H N) :=
  match s.pendingStandardChanges.finalizeWithDescendentIf finalizedHash finalizedNumber isDescendentOf
      (fun change => decide (change.effectiveNumber ≤ finalizedNumber)) with
  | .error e => .error (Error.ofForkTree e)
  | .ok (.unchanged, tree) => .ok (⟨false, none⟩, { s with pendingStandardChanges := tree })
  | .ok (.changed change, tree) =>
    let forced := s.pendingForcedChanges.filter (fun c =>
      decide (finalizedNumber < c.effectiveNumber) && isDescendentOf finalizedHash c.canonHash)
    match change with
    | none => .ok (⟨true, none⟩, { s with pendingStandardChanges := tree, pendingForcedChanges := forced })
    | some change =>
      .ok (⟨true, some (finalizedHash, finalizedNumber)⟩,
        { currentAuthorities := change.nextAuthorities
          setId := s.setId + 1
          pendingStandardChanges := tree
          pendingForcedChanges := forced
          authoritySetChanges := s.authoritySetChanges ++ [(s.setId, finalizedNumber)] })

end Ops

end CoreChain.Grandpa

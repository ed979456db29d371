import CoreChain.Prospective.Candidates

/-!
# The fragment chain

The model of `BackedChain` and `FragmentChain` in
`polkadot/node/core/prospective-parachains/src/fragment_chain/mod.rs`: the best chain of backed candidates with its
three indices, the operations `init`, `populate_from_previous`, `candidate_backed` and
`try_adding_seconded_candidate`, and what they call (`populate_chain`, `revert_to`, `trim_uneligible_forks`,
`populate_unconnected_potential_candidates`, `check_potential`).

The candidates of a concrete `CandidateEntry` are always complete, so `check_potential` is modelled on entries: the
branches for hypothetical candidates without commitments are left out. The loop of `populate_chain` pushes one
node a turn until the chain reaches `max_backable_len`, so `max_backable_len + 1` turns of fuel are enough for it.
The breadth-first search of `trim_uneligible_forks` runs on fuel that bounds the simple paths through the storage
it can walk.
-/

namespace CoreChain.Prospective

/-- `FragmentNode`. -/
structure FragmentNode (D K M C : Type) where
  fragment : Fragment D K M C
  candidateHash : CandidateHash
  cumulativeModifications : ConstraintModifications D M
  parentHeadDataHash : Hash
  outputHeadDataHash : Hash

variable {D K M C : Type}

/-- `FragmentNode::relay_parent`. -/
def FragmentNode.relayParent (n : FragmentNode D K M C) : Hash :=
  n.fragment.relayParent.hash

/-- `From<&FragmentNode> for CandidateEntry`: a fragment node is always backed. -/
def FragmentNode.toEntry (n : FragmentNode D K M C) : CandidateEntry D C :=
  ⟨n.candidateHash, n.parentHeadDataHash, n.outputHeadDataHash, n.relayParent, n.fragment.candidate, .backed⟩

@[simp] theorem FragmentNode.toEntry_candidateHash (n : FragmentNode D K M C) :
    n.toEntry.candidateHash = n.candidateHash := rfl

@[simp] theorem FragmentNode.toEntry_parentHeadDataHash (n : FragmentNode D K M C) :
    n.toEntry.parentHeadDataHash = n.parentHeadDataHash := rfl

@[simp] theorem FragmentNode.toEntry_outputHeadDataHash (n : FragmentNode D K M C) :
    n.toEntry.outputHeadDataHash = n.outputHeadDataHash := rfl

@[simp] theorem FragmentNode.toEntry_relayParent (n : FragmentNode D K M C) :
    n.toEntry.relayParent = n.relayParent := rfl

@[simp] theorem FragmentNode.toEntry_candidate (n : FragmentNode D K M C) :
    n.toEntry.candidate = n.fragment.candidate := rfl

/-- `BackedChain`. -/
structure BackedChain (D K M C : Type) where
  chain : List (FragmentNode D K M C)
  byParentHead : Hash → Option CandidateHash
  byOutputHead : Hash → Option CandidateHash
  candidates : CandidateHash → Bool

namespace BackedChain

/-- `BackedChain::default`. -/
def empty : BackedChain D K M C :=
  ⟨[], fun _ => none, fun _ => none, fun _ => false⟩

/-- `BackedChain::push`. -/
def push (bc : BackedChain D K M C) (candidate : FragmentNode D K M C) : BackedChain D K M C :=
  { chain := bc.chain ++ [candidate]
    byParentHead := Function.update bc.byParentHead candidate.parentHeadDataHash (some candidate.candidateHash)
    byOutputHead := Function.update bc.byOutputHead candidate.outputHeadDataHash (some candidate.candidateHash)
    candidates := Function.update bc.candidates candidate.candidateHash true }

/-- `BackedChain::clear`: the empty chain, and the nodes taken. -/
def clear (bc : BackedChain D K M C) : BackedChain D K M C × List (FragmentNode D K M C) :=
  (empty, bc.chain)

/-- The indices of one node removed, as `revert_to_parent_hash` does for each node after the one found. -/
def removeIndices (bc : BackedChain D K M C) (node : FragmentNode D K M C) : BackedChain D K M C :=
  { bc with
    byParentHead := Function.update bc.byParentHead node.parentHeadDataHash none
    byOutputHead := Function.update bc.byOutputHead node.outputHeadDataHash none
    candidates := Function.update bc.candidates node.candidateHash false }

/-- The loop of `revert_to_parent_hash` over the chain: `found` is the index of the first node outputting the
head, and the indices of every node after it are removed. -/
def revertScan (parentHeadDataHash : Hash) :
    Option Nat → Nat → List (FragmentNode D K M C) → BackedChain D K M C → Option Nat × BackedChain D K M C
  | found, _, [], bc => (found, bc)
  | found, index, node :: rest, bc =>
    match found with
    | some _ => revertScan parentHeadDataHash found (index + 1) rest (bc.removeIndices node)
    | none =>
      if node.outputHeadDataHash = parentHeadDataHash then
        revertScan parentHeadDataHash (some index) (index + 1) rest bc
      else revertScan parentHeadDataHash none (index + 1) rest bc

/-- `BackedChain::revert_to_parent_hash`: the chain up to the node outputting the head, and the nodes drained. -/
def revertToParentHash (bc : BackedChain D K M C) (parentHeadDataHash : Hash) :
    BackedChain D K M C × List (FragmentNode D K M C) :=
  match revertScan parentHeadDataHash none 0 bc.chain bc with
  | (some index, bc') =>
    ({ bc' with chain := bc.chain.take (min (index + 1) bc.chain.length) },
      bc.chain.drop (min (index + 1) bc.chain.length))
  | (none, bc') => (bc', [])

/-- `BackedChain::contains`. -/
def contains (bc : BackedChain D K M C) (hash : CandidateHash) : Bool :=
  bc.candidates hash

end BackedChain

/-- `Iterator::min_by`: the first of the least elements. -/
def minBy {α : Type} (cmp : α → α → Ordering) : List α → Option α
  | [] => none
  | x :: xs => some (xs.foldl (fun a b => if cmp a b = .gt then b else a) x)

/-- `fork_selection_rule`: the lower candidate hash wins. -/
def forkSelectionRule (hash1 hash2 : CandidateHash) : Ordering :=
  compare hash1 hash2

/-- `FragmentChain`. -/
structure FragmentChain (D K M C : Type) where
  scope : Scope D K
  bestChain : BackedChain D K M C
  unconnected : CandidateStorage D C

namespace FragmentChain

variable (E : Emulator D K M C)

/-- `FragmentChain::best_chain_vec`. -/
def bestChainVec (fc : FragmentChain D K M C) : List CandidateHash :=
  fc.bestChain.chain.map (·.candidateHash)

/-- `FragmentChain::is_candidate_backed`. -/
def isCandidateBacked (fc : FragmentChain D K M C) (hash : CandidateHash) : Bool :=
  fc.bestChain.candidates hash ||
    match fc.unconnected.get hash with
    | some candidate => candidate.state = .backed
    | none => false

/-- `FragmentChain::earliest_relay_parent`. -/
def earliestRelayParent (fc : FragmentChain D K M C) : Option RelayChainBlockInfo :=
  match fc.bestChain.chain.getLast? with
  | some lastCandidate =>
    (fc.scope.ancestor lastCandidate.relayParent).or
      ((fc.scope.getPendingAvailability lastCandidate.candidateHash).map (·.relayParent))
  | none => some fc.scope.earliestRelayParent

/-- `FragmentChain::earliest_relay_parent_pending_availability`. -/
def earliestRelayParentPendingAvailability (fc : FragmentChain D K M C) : RelayChainBlockInfo :=
  (fc.bestChain.chain.reverse.findSome? fun candidate =>
      (fc.scope.getPendingAvailability candidate.candidateHash).map (·.relayParent)).getD
    fc.scope.earliestRelayParent

/-- `FragmentChain::check_cycles_or_invalid_tree`. -/
def checkCyclesOrInvalidTree (fc : FragmentChain D K M C) (outputHeadHash : Hash) : Except Error Unit :=
  if (fc.bestChain.byParentHead outputHeadHash).isSome then .error .cycle
  else if (fc.bestChain.byOutputHead outputHeadHash).isSome then .error .multiplePaths
  else .ok ()

/-- The fork check of `check_potential`: no fork with a candidate pending availability, and only one the fork
selection rule prefers. -/
def checkFork (fc : FragmentChain D K M C) (candidate : CandidateEntry D C) : Except Error Unit :=
  match fc.bestChain.byParentHead candidate.parentHeadDataHash with
  | some otherCandidate =>
    if (fc.scope.getPendingAvailability otherCandidate).isSome then
      .error (.forkWithCandidatePendingAvailability otherCandidate)
    else if forkSelectionRule otherCandidate candidate.candidateHash = .lt then .error (.forkChoiceRule otherCandidate)
    else .ok ()
  | none => .ok ()

/-- The constraints of `check_potential` for a candidate with this parent: whether the parent is unknown, the
constraints to check against, and the relay-parent number of the parent in the chain. -/
def parentConstraints (fc : FragmentChain D K M C) (parentHeadHash : Hash) :
    Except Error (Bool × Constraints D K × Option BlockNumber) :=
  match fc.bestChain.byOutputHead parentHeadHash with
  | some parentCandidate =>
    match fc.bestChain.chain.find? (·.candidateHash = parentCandidate) with
    | none => .error .parentCandidateNotFound
    | some parentCandidate =>
      match fc.scope.baseConstraints.applyModifications E parentCandidate.cumulativeModifications with
      | none => .error .computeConstraints
      | some constraints => .ok (false, constraints, (fc.scope.ancestor parentCandidate.relayParent).map (·.number))
  | none =>
    if E.headHash fc.scope.baseConstraints.requiredParent = parentHeadHash then .ok (false, fc.scope.baseConstraints, none)
    else .ok (true, fc.scope.baseConstraints, none)

variable [DecidableEq D]

/-- `FragmentChain::check_potential`, for a complete candidate. -/
def checkPotential (fc : FragmentChain D K M C) (candidate : CandidateEntry D C) : Except Error Unit :=
  let parentHeadHash := candidate.parentHeadDataHash
  if parentHeadHash = candidate.outputHeadDataHash then .error .zeroLengthCycle
  else
    match fc.scope.ancestor candidate.relayParent with
    | none => .error (.relayParentNotInScope candidate.relayParent fc.scope.earliestRelayParent.hash)
    | some relayParent =>
      let earliestRpOfPendingAvailability := fc.earliestRelayParentPendingAvailability
      if relayParent.number < earliestRpOfPendingAvailability.number then
        .error (.relayParentPrecedesCandidatePendingAvailability relayParent.hash earliestRpOfPendingAvailability.hash)
      else
        match fc.checkFork candidate with
        | .error e => .error e
        | .ok () =>
          match fc.parentConstraints E parentHeadHash with
          | .error e => .error e
          | .ok (isUnconnected, constraints, maybeMinRelayParentNumber) =>
            match fc.checkCyclesOrInvalidTree candidate.outputHeadDataHash with
            | .error e => .error e
            | .ok () =>
              if isUnconnected then
                if validateCommitments E fc.scope.baseConstraints relayParent candidate.candidate then .ok ()
                else .error .checkAgainstConstraints
              else if (checkAgainstConstraints E relayParent constraints candidate.candidate).isNone then
                .error .checkAgainstConstraints
              else if relayParent.number < constraints.minRelayParentNumber then .error .relayParentMovedBackwards
              else
                match maybeMinRelayParentNumber with
                | some earliestRp =>
                  if relayParent.number < earliestRp then .error .relayParentMovedBackwards else .ok ()
                | none => .ok ()

/-- `FragmentChain::can_add_candidate_as_potential`. -/
def canAddCandidateAsPotential (fc : FragmentChain D K M C) (candidate : CandidateEntry D C) : Except Error Unit :=
  if fc.bestChain.contains candidate.candidateHash || fc.unconnected.contains candidate.candidateHash then
    .error .candidateAlreadyKnown
  else fc.checkPotential E candidate

/-- `FragmentChain::try_adding_seconded_candidate`. -/
def tryAddingSecondedCandidate (fc : FragmentChain D K M C) (candidate : CandidateEntry D C) :
    FragmentChain D K M C × Except Error Unit :=
  if candidate.state = .backed then (fc, .error .introduceBackedCandidate)
  else
    match fc.canAddCandidateAsPotential E candidate with
    | .error e => (fc, .error e)
    | .ok () =>
      match fc.unconnected.addCandidateEntry candidate with
      | .error e => (fc, .error e)
      | .ok unconnected => ({ fc with unconnected }, .ok ())

/-- One candidate of `populate_unconnected_potential_candidates`. -/
def keepPotential (fc : FragmentChain D K M C) (candidate : CandidateEntry D C) : FragmentChain D K M C :=
  if (fc.scope.getPendingAvailability candidate.candidateHash).isSome then fc
  else
    match fc.canAddCandidateAsPotential E candidate with
    | .ok () => { fc with unconnected := fc.unconnected.addCandidateEntryOrKeep candidate }
    | .error _ => fc

/-- `FragmentChain::populate_unconnected_potential_candidates`. -/
def populateUnconnectedPotentialCandidates (fc : FragmentChain D K M C) (oldStorage : CandidateStorage D C) :
    FragmentChain D K M C :=
  oldStorage.byCandidateHash.foldl (keepPotential E) fc

/-! ### `trim_uneligible_forks` -/

/-- One child in the loop of `trim_uneligible_forks`: the queue entries to push and the candidates to remove. -/
def trimChild (fc : FragmentChain D K M C) (storage : CandidateStorage D C) (visited : List Hash)
    (parentHasPotential : Bool) (acc : List (Hash × Bool) × List CandidateHash) (childHash : CandidateHash) :
    List (Hash × Bool) × List CandidateHash :=
  match storage.get childHash with
  | none => acc
  | some child =>
    if child.outputHeadDataHash ∈ visited then acc
    else if parentHasPotential && (fc.checkPotential E child).toBool then
      (acc.1 ++ [(child.outputHeadDataHash, true)], acc.2)
    else (acc.1 ++ [(child.outputHeadDataHash, false)], acc.2 ++ [childHash])

/-- The breadth-first loop of `trim_uneligible_forks`, on fuel. -/
def trimLoop (fc : FragmentChain D K M C) :
    Nat → List (Hash × Bool) → List Hash → CandidateStorage D C → CandidateStorage D C
  | 0, _, _, storage => storage
  | _ + 1, [], _, storage => storage
  | fuel + 1, (parent, parentHasPotential) :: queue, visited, storage =>
    let visited := parent :: visited
    let (toPush, toRemove) :=
      (storage.byParentHead parent).foldl (trimChild E fc storage visited parentHasPotential) ([], [])
    trimLoop fc fuel (queue ++ toPush) visited (toRemove.foldl CandidateStorage.removeCandidate storage)

/-- `FragmentChain::trim_uneligible_forks`. -/
def trimUneligibleForks (fc : FragmentChain D K M C) (storage : CandidateStorage D C)
    (startingPoint : Option Hash) : CandidateStorage D C :=
  let queue : List (Hash × Bool) :=
    match startingPoint with
    | some startingPoint => [(startingPoint, true)]
    | none =>
      if fc.bestChain.chain.isEmpty then [(E.headHash fc.scope.baseConstraints.requiredParent, true)]
      else fc.bestChain.chain.map fun c => (c.parentHeadDataHash, true)
  trimLoop E fc ((queue.length + 1) * (storage.len + 1) ^ (storage.len + 1)) queue [] storage

/-! ### `populate_chain` -/

/-- The least relay-parent number `populate_chain` accepts for a candidate: that of its pending availability on an
empty chain, and otherwise that of the last candidate. -/
def minRelayParentNumber (fc : FragmentChain D K M C) (pending : Option PendingAvailability)
    (earliestRp : RelayChainBlockInfo) : BlockNumber :=
  match pending with
  | some p => if fc.bestChain.chain.length = 0 then p.relayParent.number else earliestRp.number
  | none => earliestRp.number

/-- The `filter_map` of `populate_chain`: a candidate that can be added to the chain now, as its fragment, hash,
output head and parent head. -/
def candidateFragment (fc : FragmentChain D K M C) (childConstraints : Constraints D K)
    (earliestRp : RelayChainBlockInfo) (candidate : CandidateEntry D C) :
    Option (Fragment D K M C × CandidateHash × Hash × Hash) :=
  let pending := fc.scope.getPendingAvailability candidate.candidateHash
  match (pending.map (·.relayParent)).or (fc.scope.ancestor candidate.relayParent) with
  | none => none
  | some relayParent =>
    match fc.checkCyclesOrInvalidTree candidate.outputHeadDataHash with
    | .error _ => none
    | .ok () =>
      if relayParent.number < fc.minRelayParentNumber pending earliestRp then none
      else if fc.bestChain.contains candidate.candidateHash then none
      else
        let constraints :=
          match pending with
          | some p => { childConstraints with minRelayParentNumber := p.relayParent.number }
          | none => childConstraints
        (Fragment.new E relayParent constraints candidate.candidate).map fun f =>
          (f, candidate.candidateHash, candidate.outputHeadDataHash, candidate.parentHeadDataHash)

/-- The comparison of `populate_chain`'s `min_by`: a candidate pending availability first, then the fork selection
rule. -/
def compareChildren (fc : FragmentChain D K M C) (child1 child2 : CandidateHash) : Ordering :=
  if (fc.scope.getPendingAvailability child1).isSome then .lt
  else if (fc.scope.getPendingAvailability child2).isSome then .gt
  else forkSelectionRule child1 child2

/-- The loop of `populate_chain`, on fuel. -/
def populateLoop : Nat → FragmentChain D K M C → CandidateStorage D C → ConstraintModifications D M →
    RelayChainBlockInfo → FragmentChain D K M C × CandidateStorage D C
  | 0, fc, storage, _, _ => (fc, storage)
  | fuel + 1, fc, storage, cumulativeModifications, earliestRp =>
    if fc.scope.maxBackableLen ≤ fc.bestChain.chain.length then (fc, storage)
    else
      match fc.scope.baseConstraints.applyModifications E cumulativeModifications with
      | none => (fc, storage)
      | some childConstraints =>
        let requiredHeadHash := E.headHash childConstraints.requiredParent
        let possibleChildren := (storage.possibleBackedParaChildren requiredHeadHash).filterMap
          (fc.candidateFragment E childConstraints earliestRp)
        match minBy (fun a b => fc.compareChildren a.2.1 b.2.1) possibleChildren with
        | none => (fc, storage)
        | some (fragment, candidateHash, outputHeadDataHash, parentHeadDataHash) =>
          let cumulativeModifications := ConstraintModifications.stack E cumulativeModifications fragment.modifications
          let node : FragmentNode D K M C :=
            ⟨fragment, candidateHash, cumulativeModifications, parentHeadDataHash, outputHeadDataHash⟩
          populateLoop fuel { fc with bestChain := fc.bestChain.push node } (storage.removeCandidate candidateHash)
            cumulativeModifications fragment.relayParent

/-- `FragmentChain::populate_chain`: the chain, and the storage left. -/
def populateChain (fc : FragmentChain D K M C) (storage : CandidateStorage D C) :
    FragmentChain D K M C × CandidateStorage D C :=
  let cumulativeModifications :=
    match fc.bestChain.chain.getLast? with
    | some lastCandidate => lastCandidate.cumulativeModifications
    | none => ConstraintModifications.identity E
  match fc.earliestRelayParent with
  | none => (fc, storage)
  | some earliestRp => populateLoop E (fc.scope.maxBackableLen + 1) fc storage cumulativeModifications earliestRp

/-! ### The operations -/

/-- `FragmentChain::revert_to`: the chain reverted so that its last candidate outputs the head, and whether the head
was found; the nodes taken go back to the unconnected storage. -/
def revertTo (fc : FragmentChain D K M C) (parentHeadHash : Hash) : FragmentChain D K M C × Bool :=
  let removedItems : Option (BackedChain D K M C × List (FragmentNode D K M C)) :=
    if E.headHash fc.scope.baseConstraints.requiredParent = parentHeadHash then some fc.bestChain.clear else none
  let removedItems :=
    match removedItems with
    | none =>
      if (fc.bestChain.byOutputHead parentHeadHash).isSome then some (fc.bestChain.revertToParentHash parentHeadHash)
      else none
    | some r => some r
  match removedItems with
  | none => (fc, false)
  | some (bestChain, removedItems) =>
    ({ fc with
        bestChain
        unconnected := removedItems.foldl (fun s node => s.addCandidateEntryOrKeep node.toEntry) fc.unconnected },
      true)

/-- `FragmentChain::init`. -/
def init (scope : Scope D K) (candidatesPendingAvailability : CandidateStorage D C) : FragmentChain D K M C :=
  (populateChain E ⟨scope, .empty, .empty⟩ candidatesPendingAvailability).1

/-- `FragmentChain::populate_from_previous`. -/
def populateFromPrevious (fc prevFragmentChain : FragmentChain D K M C) : FragmentChain D K M C :=
  let prevStorage := prevFragmentChain.bestChain.chain.foldl (fun s candidate =>
      if (prevFragmentChain.scope.getPendingAvailability candidate.candidateHash).isNone then
        s.addCandidateEntryOrKeep candidate.toEntry
      else s) prevFragmentChain.unconnected
  let (fc, prevStorage) := fc.populateChain E prevStorage
  let prevStorage := fc.trimUneligibleForks E prevStorage none
  fc.populateUnconnectedPotentialCandidates E prevStorage

/-- `FragmentChain::candidate_backed`. -/
def candidateBacked (fc : FragmentChain D K M C) (newlyBackedCandidate : CandidateHash) : FragmentChain D K M C :=
  if fc.bestChain.candidates newlyBackedCandidate then fc
  else
    match fc.unconnected.get newlyBackedCandidate with
    | none => fc
    | some entry =>
      let parentHeadHash := entry.parentHeadDataHash
      let fc := { fc with unconnected := fc.unconnected.markBacked newlyBackedCandidate }
      match fc.revertTo E parentHeadHash with
      | (fc, false) => fc
      | (fc, true) =>
        let prevStorage := fc.unconnected
        let fc := { fc with unconnected := .empty }
        let (fc, prevStorage) := fc.populateChain E prevStorage
        let prevStorage := fc.trimUneligibleForks E prevStorage (some parentHeadHash)
        fc.populateUnconnectedPotentialCandidates E prevStorage

end FragmentChain

end CoreChain.Prospective

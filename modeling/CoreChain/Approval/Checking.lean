import CoreChain.Approval.Entries

/-!
# Approval checking

`polkadot/node/core/approval-voting/src/approval_checking.rs`: `check_approval`, the tranche-counting `State` with
`output`, `clock_drift` and `advance`, `filled_tranche_iterator`, `count_no_shows` and `tranches_to_approve`.

The arithmetic is that of a release build: ticks are `u64` and tranches `u32`, and a sum or product that overflows
wraps (`% 2 ^ 64`, `% 2 ^ 32`); `saturating_sub` is the subtraction of `Nat`, and `as u32` keeps the low 32 bits.
The `usize` counters stay far below their bound and are plain numbers.

`tranches_to_approve` scans an infinite iterator until its closure stops, then takes the last output, `expect`ing
one. The model scans on fuel (`scanLoop`): `none` when the fuel runs out, `some none` when the scan ends with no
output (the `expect` panics), and `some (some r)` for the result `r`.
-/

namespace CoreChain.Approval

/-- `RequiredTranches`. -/
inductive RequiredTranches where
  | all
  | pending (considered : Nat) (nextNoShow : Option Nat) (maximumBroadcast : Nat) (clockDrift : Nat)
  | exact (needed : Nat) (toleratedMissing : Nat) (nextNoShow : Option Nat) (lastAssignmentTick : Option Nat)
  deriving DecidableEq, Repr

/-- `TranchesToApproveResult`. -/
structure TranchesToApproveResult where
  requiredTranches : RequiredTranches
  totalObservedNoShows : Nat
  noShowValidators : List Nat
  deriving DecidableEq, Repr

/-- `Check`. -/
inductive Check where
  | unapproved
  | approved (noShows : Nat) (lastAssignmentTick : Option Nat)
  | approvedOneThird
  deriving DecidableEq, Repr

/-- `check_approval`. -/
def checkApproval (candidate : CandidateEntry) (approval : ApprovalEntry) (required : RequiredTranches) : Check :=
  let approvals := candidate.approvals
  -- any set of more than a third of the validators holds an honest one
  if approvals.length < 3 * countOnes approvals then .approvedOneThird
  else
    match required with
    | .pending .. => .unapproved
    | .all => .unapproved
    | .exact needed toleratedMissing _ lastAssignmentTick =>
      let assignedMask := approval.assignmentsUpTo needed
      let nAssigned := countOnes assignedMask
      let assignedMask := andAssign assignedMask approvals
      let nApproved := countOnes assignedMask
      if nAssigned ≤ nApproved + toleratedMissing then .approved toleratedMissing lastAssignmentTick
      else .unapproved

/-- `min_prefer_some`. -/
def minPreferSome (a b : Option Nat) : Option Nat :=
  match a, b with
  | none, none => none
  | none, some x => some x
  | some x, none => some x
  | some x, some y => some (min x y)

/-- `std::cmp::max` of two options, `None` being the least. -/
def maxOption (a b : Option Nat) : Option Nat :=
  match a, b with
  | none, b => b
  | some x, none => some x
  | some x, some y => some (max x y)

/-- `MAX_RECORDED_NO_SHOW_VALIDATORS_PER_CANDIDATE`. -/
def maxRecordedNoShowValidatorsPerCandidate : Nat := 20

/-- The `State` of the tranche count. -/
structure State where
  assignments : Nat
  depth : Nat
  covered : Nat
  covering : Nat
  uncovered : Nat
  nextNoShow : Option Nat
  lastAssignmentTick : Option Nat
  totalObservedNoShows : Nat
  noShowValidators : List Nat
  deriving DecidableEq, Repr

namespace State

/-- `State::clock_drift`. -/
def clockDrift (s : State) (noShowDuration : Nat) : Nat :=
  s.depth * noShowDuration % 2 ^ 64

/-- `State::output`. -/
def output (s : State) (tranche neededApprovals nValidators noShowDuration : Nat) : TranchesToApproveResult :=
  let covering := if s.depth = 0 then 0 else s.covering
  if s.depth ≠ 0 ∧ nValidators ≤ s.assignments + covering + s.uncovered then
    ⟨.all, s.totalObservedNoShows, s.noShowValidators⟩
  else if neededApprovals ≤ s.assignments ∧ covering + s.uncovered = 0 then
    ⟨.exact tranche s.covered s.nextNoShow s.lastAssignmentTick, s.totalObservedNoShows, s.noShowValidators⟩
  else
    let clockDrift := s.clockDrift noShowDuration
    if s.depth = 0 then
      ⟨.pending tranche s.nextNoShow (2 ^ 32 - 1) clockDrift, s.totalObservedNoShows, s.noShowValidators⟩
    else
      ⟨.pending tranche s.nextNoShow ((tranche + (covering + s.uncovered) % 2 ^ 32) % 2 ^ 32) clockDrift,
        s.totalObservedNoShows, s.noShowValidators⟩

/-- `State::advance`. -/
def advance (s : State) (newAssignments newNoShows : Nat) (nextNoShow lastAssignmentTick : Option Nat)
    (noShowValidators : List Nat) : State :=
  -- past depth 0, a non-empty tranche covers one no-show, however many assignments it has
  let newCovered := if s.depth = 0 then newAssignments else min newAssignments 1
  let assignments := s.assignments + newAssignments
  let covering := s.covering - newCovered
  let covered := if s.depth = 0 then 0 else s.covered + newCovered
  let uncovered := s.uncovered + newNoShows
  let nextNoShow := minPreferSome s.nextNoShow nextNoShow
  let lastAssignmentTick := maxOption s.lastAssignmentTick lastAssignmentTick
  let (depth, covering, uncovered) :=
    if covering = 0 then
      if uncovered = 0 then (s.depth, 0, uncovered) else (s.depth + 1, uncovered, 0)
    else (s.depth, covering, uncovered)
  let recorded :=
    if s.noShowValidators.length + noShowValidators.length < maxRecordedNoShowValidatorsPerCandidate then
      s.noShowValidators ++ noShowValidators
    else s.noShowValidators
  ⟨assignments, depth, covered, covering, uncovered, nextNoShow, lastAssignmentTick,
    s.totalObservedNoShows + newNoShows, recorded⟩

end State

/-- The `initial_state` of `tranches_to_approve`. -/
def initialState (neededApprovals : Nat) : State :=
  ⟨0, 0, 0, neededApprovals, 0, none, none, 0, []⟩

/-! ## `filled_tranche_iterator` -/

/-- The entries of `filled_tranche_iterator`'s `flat_map`: each entry's tranche, after the empty tranches from the
one after the previous entry's. -/
def fillGaps : Option Nat → List TrancheEntry → List (Nat × List (Nat × Nat))
  | _, [] => []
  | gapEnd, t :: rest =>
    let gapStart := (gapEnd.map fun e => (e + 1) % 2 ^ 32).getD t.tranche
    ((List.range' gapStart (t.tranche - gapStart)).map fun i => (i, [])) ++
      (t.tranche, t.assignments) :: fillGaps (some t.tranche) rest

/-- The finite part of `filled_tranche_iterator`: the empty tranches before the first entry, then the entries with
their gaps filled. -/
def filledPrefix (tranches : List TrancheEntry) : List (Nat × List (Nat × Nat)) :=
  ((tranches.head?.map fun t => (List.range t.tranche).map fun i => (i, [])).getD []) ++ fillGaps none tranches

/-- Where the empty tranches after the last entry start, in `u32`. -/
def postStart (tranches : List TrancheEntry) : Nat :=
  (tranches.getLast?.map fun t => (t.tranche + 1) % 2 ^ 32).getD 0

/-- `filled_tranche_iterator`, as the item at each position: the finite part, then empty tranches counting on
from `postStart`, wrapping in `u32`. -/
def filledTrancheIterator (tranches : List TrancheEntry) (k : Nat) : Nat × List (Nat × Nat) :=
  if h : k < (filledPrefix tranches).length then (filledPrefix tranches)[k]
  else ((postStart tranches + (k - (filledPrefix tranches).length)) % 2 ^ 32, [])

/-! ## `count_no_shows` and `tranches_to_approve` -/

/-- `count_no_shows`: the no-shows among the assignments of a tranche, the next tick one may occur at, and the
no-show validators. -/
def countNoShows (assignments : List (Nat × Nat)) (approvals : List Bool)
    (clockDrift blockTick noShowDuration driftedTickNow : Nat) : Nat × Option Nat × List Nat :=
  assignments.foldl (fun acc p =>
    let noShowAt := (max p.2 blockTick - clockDrift + noShowDuration) % 2 ^ 64
    match approvals[p.1]? with
    | none => acc
    | some hasApproved =>
      let isNoShow := !hasApproved && decide (noShowAt ≤ driftedTickNow)
      let nextNoShow :=
        if !isNoShow && !hasApproved then minPreferSome acc.2.1 (some ((noShowAt + clockDrift) % 2 ^ 64))
        else acc.2.1
      let noShowValidators := if isNoShow then acc.2.2 ++ [p.1] else acc.2.2
      (if isNoShow then acc.1 + 1 else acc.1, nextNoShow, noShowValidators)) (0, none, [])

/-- The closure of `tranches_to_approve`'s scan at one tranche: `none` ends the scan; otherwise the output, and the
state to go on with, `none` once the output is final. -/
def scanTranche (approvals : List Bool) (tickNow blockTick noShowDuration neededApprovals nValidators : Nat)
    (s : State) (tranche : Nat) (assignments : List (Nat × Nat)) : Option (TranchesToApproveResult × Option State) :=
  let clockDrift := s.clockDrift noShowDuration
  let driftedTickNow := tickNow - clockDrift
  let driftedTrancheNow := (driftedTickNow - blockTick) % 2 ^ 32
  if driftedTrancheNow < tranche then none
  else
    let nAssignments := (assignments.filter fun p => decide (p.1 < nValidators % 2 ^ 32)).length
    let lastAssignmentTick := (assignments.map (·.2)).max?
    let noShows := countNoShows assignments approvals clockDrift blockTick noShowDuration driftedTickNow
    let s := s.advance nAssignments noShows.1 noShows.2.1 lastAssignmentTick noShows.2.2
    let output := s.output tranche neededApprovals nValidators noShowDuration
    some (output,
      match output.requiredTranches with
      | .pending .. => some s
      | _ => none)

/-- `Iterator::scan` followed by `last`, on fuel: the items at positions `k, k + 1, …`, the closure, the state, and
the last output so far. -/
def scanLoop (items : Nat → Nat × List (Nat × Nat))
    (step : State → Nat → List (Nat × Nat) → Option (TranchesToApproveResult × Option State)) :
    Nat → Nat → State → Option TranchesToApproveResult → Option (Option TranchesToApproveResult)
  | 0, _, _, _ => none
  | fuel + 1, k, s, last =>
    match step s (items k).1 (items k).2 with
    | none => some last
    | some (output, none) => some (some output)
    | some (output, some s') => scanLoop items step fuel (k + 1) s' (some output)

/-- `tranches_to_approve`, on fuel. -/
def tranchesToApprove (approvalEntry : ApprovalEntry) (approvals : List Bool)
    (trancheNow blockTick noShowDuration neededApprovals fuel : Nat) : Option (Option TranchesToApproveResult) :=
  let tickNow := (trancheNow + blockTick) % 2 ^ 64
  let nValidators := approvalEntry.nValidators
  scanLoop (filledTrancheIterator approvalEntry.tranches)
    (scanTranche approvals tickNow blockTick noShowDuration neededApprovals nValidators) fuel 0
    (initialState neededApprovals) none

end CoreChain.Approval

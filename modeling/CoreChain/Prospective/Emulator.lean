import Mathlib

/-!
# The inclusion emulator, as the fragment chain sees it

The part of `polkadot/node/subsystem-util/src/inclusion_emulator/mod.rs` that the fragment chain of
prospective-parachains calls: `Constraints`, `ConstraintModifications` (`identity`, `stack`), `apply_modifications`,
`Fragment::new` with `check_against_constraints`, and `validate_commitments`.

The fragment chain reads two things from these: the required parent head data, which the modifications of a
fragment set to the candidate's output head data, and the minimum relay-parent number. Both are kept as the source
computes them, with the persisted-validation-data check of `validate_against_constraints` and the relay-parent age
check of `validate_commitments`. The HRMP, UMP, DMP, size and code-upgrade parts are left abstract: an `Emulator`
supplies them (`K` is the rest of the constraints, `M` the rest of the modifications, `C` the rest of a candidate:
its other commitments, PoV hash and validation-code hash), with the hash of head data (`D`) and of persisted
validation data.

The main facts: applying modifications sets the required parent to theirs, if they have one
(`requiredParent_applyModifications`), and the modifications of a fragment have the candidate's head data as
required parent (`Fragment.new_spec`).
-/

namespace CoreChain.Prospective

/-- `Hash` (`H256`), as a number. -/
abbrev Hash := Nat

/-- `CandidateHash`: an `H256`, ordered as its big-endian bytes, so as a number. -/
abbrev CandidateHash := Nat

/-- `BlockNumber`. -/
abbrev BlockNumber := Nat

/-- `RelayChainBlockInfo`. -/
structure RelayChainBlockInfo where
  hash : Hash
  number : BlockNumber
  storageRoot : Hash
  deriving DecidableEq, Repr

/-- `PersistedValidationData`. -/
structure PersistedValidationData (D : Type) where
  parentHead : D
  relayParentNumber : BlockNumber
  relayParentStorageRoot : Hash
  maxPovSize : Nat
  deriving DecidableEq, Repr

/-- `ProspectiveCandidate`: the output head data of its commitments, the rest of it, and its persisted validation
data. -/
structure ProspectiveCandidate (D C : Type) where
  headData : D
  commitments : C
  persistedValidationData : PersistedValidationData D
  deriving DecidableEq, Repr

/-- `Constraints`: the minimum relay-parent number, the PoV size, the required parent, and the rest. -/
structure Constraints (D K : Type) where
  minRelayParentNumber : BlockNumber
  maxPovSize : Nat
  requiredParent : D
  rest : K
  deriving DecidableEq, Repr

/-- `ConstraintModifications`: the new required parent, if any, and the rest. -/
structure ConstraintModifications (D M : Type) where
  requiredParent : Option D
  rest : M
  deriving DecidableEq, Repr

/-- The parts of the inclusion emulator the fragment chain never looks into. -/
structure Emulator (D K M C : Type) where
  /-- `HeadData::hash`. -/
  headHash : D → Hash
  /-- `PersistedValidationData::hash`. -/
  pvdHash : PersistedValidationData D → Hash
  /-- The rest of `ConstraintModifications::identity`. -/
  identity : M
  /-- The rest of `ConstraintModifications::stack`. -/
  stack : M → M → M
  /-- The rest of `apply_modifications`: the HRMP watermark and channels, UMP, DMP and the code upgrade. -/
  apply : K → M → Option K
  /-- The rest of `check_against_constraints`: the modifications other than the required parent, and the checks
  of `validate_against_constraints` on them (HRMP order, DMP advancement, UMP count, `check_modifications`). -/
  outputs : RelayChainBlockInfo → K → ProspectiveCandidate D C → Option M
  /-- The rest of `validate_commitments`: code hash, head-data size, code upgrade, code size, HRMP count. -/
  validate : K → RelayChainBlockInfo → ProspectiveCandidate D C → Bool

/-- `Fragment`. -/
structure Fragment (D K M C : Type) where
  relayParent : RelayChainBlockInfo
  operatingConstraints : Constraints D K
  candidate : ProspectiveCandidate D C
  modifications : ConstraintModifications D M

variable {D K M C : Type} (E : Emulator D K M C)

/-- `ConstraintModifications::identity`. -/
def ConstraintModifications.identity : ConstraintModifications D M :=
  ⟨none, E.identity⟩

/-- `ConstraintModifications::stack`: `other`'s required parent, if it has one, replaces this one. -/
def ConstraintModifications.stack (m other : ConstraintModifications D M) : ConstraintModifications D M :=
  ⟨match other.requiredParent with
    | some newParent => some newParent
    | none => m.requiredParent,
   E.stack m.rest other.rest⟩

/-- `Constraints::apply_modifications`. -/
def Constraints.applyModifications (c : Constraints D K) (m : ConstraintModifications D M) :
    Option (Constraints D K) :=
  (E.apply c.rest m.rest).map fun rest => { c with requiredParent := m.requiredParent.getD c.requiredParent, rest }

/-- `validate_commitments`. -/
def validateCommitments (c : Constraints D K) (relayParent : RelayChainBlockInfo)
    (candidate : ProspectiveCandidate D C) : Bool :=
  E.validate c.rest relayParent candidate && c.minRelayParentNumber ≤ relayParent.number

variable [DecidableEq D]

/-- `Fragment::check_against_constraints`: the modifications of a valid candidate. -/
def checkAgainstConstraints (relayParent : RelayChainBlockInfo) (c : Constraints D K)
    (candidate : ProspectiveCandidate D C) : Option (ConstraintModifications D M) :=
  match E.outputs relayParent c.rest candidate with
  | none => none
  | some rest =>
    let expectedPvd : PersistedValidationData D :=
      ⟨c.requiredParent, relayParent.number, relayParent.storageRoot, c.maxPovSize⟩
    if validateCommitments E c relayParent candidate ∧ expectedPvd = candidate.persistedValidationData then
      some ⟨some candidate.headData, rest⟩
    else none

/-- `Fragment::new`. -/
def Fragment.new (relayParent : RelayChainBlockInfo) (c : Constraints D K) (candidate : ProspectiveCandidate D C) :
    Option (Fragment D K M C) :=
  (checkAgainstConstraints E relayParent c candidate).map fun m => ⟨relayParent, c, candidate, m⟩

omit [DecidableEq D] in
theorem requiredParent_identity : (ConstraintModifications.identity E : ConstraintModifications D M).requiredParent =
    none := rfl

omit [DecidableEq D] in
/-- Stacking modifications that set a required parent gives that parent. -/
theorem requiredParent_stack {m other : ConstraintModifications D M} {d : D} (h : other.requiredParent = some d) :
    (ConstraintModifications.stack E m other).requiredParent = some d := by
  simp [ConstraintModifications.stack, h]

omit [DecidableEq D] in
/-- Applied modifications set the required parent to theirs, if they have one. -/
theorem requiredParent_applyModifications {c c' : Constraints D K} {m : ConstraintModifications D M}
    (h : c.applyModifications E m = some c') : c'.requiredParent = m.requiredParent.getD c.requiredParent := by
  unfold Constraints.applyModifications at h
  obtain ⟨rest, -, rfl⟩ := Option.map_eq_some_iff.mp h
  rfl

/-- A fragment is built on the relay parent and candidate it is given, and its modifications set the required
parent to the candidate's head data. -/
theorem Fragment.new_spec {relayParent : RelayChainBlockInfo} {c : Constraints D K}
    {candidate : ProspectiveCandidate D C} {f : Fragment D K M C} (h : Fragment.new E relayParent c candidate = some f) :
    f.relayParent = relayParent ∧ f.candidate = candidate ∧ f.modifications.requiredParent = some candidate.headData := by
  unfold Fragment.new at h
  obtain ⟨m, hm, rfl⟩ := Option.map_eq_some_iff.mp h
  refine ⟨rfl, rfl, ?_⟩
  unfold checkAgainstConstraints at hm
  split at hm
  · cases hm
  · dsimp only at hm
    split_ifs at hm
    cases hm
    rfl

end CoreChain.Prospective

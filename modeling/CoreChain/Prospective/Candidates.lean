import CoreChain.Prospective.Emulator
import Mathlib

/-!
# Candidate entries, their storage, and the scope of a fragment chain

The model of `CandidateEntry`, `CandidateStorage` and `Scope` in
`polkadot/node/core/prospective-parachains/src/fragment_chain/mod.rs`.

A `CandidateStorage` keeps its entries (the `by_candidate_hash` map, as the list of its values) and two indices from
head-data hashes to the candidates with that parent or output head. `CandidateStorage.Wf` says what makes them one
store: entry hashes are distinct, each entry is well formed (`CandidateEntry.Wf`: its hashes are those of its head
data, and differ, as `CandidateEntry::new` checks), and each index holds exactly the candidates of the entries with
that head. `add_candidate_entry`, `remove_candidate` and `mark_backed` keep it (`Wf.addCandidateEntry`,
`Wf.removeCandidate`, `Wf.markBacked`).

Hash sets are lists without duplicates, in insertion order; a set that becomes empty reads as an absent one.
-/

namespace CoreChain.Prospective

/-- `CandidateState`. -/
inductive CandidateState where
  | seconded
  | backed
  deriving DecidableEq, Repr

/-- `CandidateEntryError`. -/
inductive CandidateEntryError where
  | persistedValidationDataMismatch
  | zeroLengthCycle
  deriving DecidableEq, Repr

/-- The errors of fragment-chain operations (`Error`); the emulator's errors are not told apart. -/
inductive Error where
  | candidateAlreadyKnown
  | zeroLengthCycle
  | cycle
  | multiplePaths
  | introduceBackedCandidate
  | relayParentPrecedesCandidatePendingAvailability (relayParent pendingRelayParent : Hash)
  | forkWithCandidatePendingAvailability (candidate : CandidateHash)
  | forkChoiceRule (candidate : CandidateHash)
  | parentCandidateNotFound
  | computeConstraints
  | checkAgainstConstraints
  | relayParentMovedBackwards
  | relayParentNotInScope (relayParent earliest : Hash)
  | candidateEntry (e : CandidateEntryError)
  deriving DecidableEq, Repr

/-- The parts of a `CommittedCandidateReceipt` an entry is built from. -/
structure CommittedCandidateReceipt (D C : Type) where
  relayParent : Hash
  persistedValidationDataHash : Hash
  headData : D
  commitments : C

/-- `CandidateEntry`. -/
structure CandidateEntry (D C : Type) where
  candidateHash : CandidateHash
  parentHeadDataHash : Hash
  outputHeadDataHash : Hash
  relayParent : Hash
  candidate : ProspectiveCandidate D C
  state : CandidateState

variable {D K M C : Type} (E : Emulator D K M C)

/-- `CandidateEntry::new`. -/
def CandidateEntry.new (candidateHash : CandidateHash) (candidate : CommittedCandidateReceipt D C)
    (persistedValidationData : PersistedValidationData D) (state : CandidateState) :
    Except CandidateEntryError (CandidateEntry D C) :=
  if E.pvdHash persistedValidationData ≠ candidate.persistedValidationDataHash then
    .error .persistedValidationDataMismatch
  else
    let parentHeadDataHash := E.headHash persistedValidationData.parentHead
    let outputHeadDataHash := E.headHash candidate.headData
    if parentHeadDataHash = outputHeadDataHash then .error .zeroLengthCycle
    else .ok ⟨candidateHash, parentHeadDataHash, outputHeadDataHash, candidate.relayParent,
      ⟨candidate.headData, candidate.commitments, persistedValidationData⟩, state⟩

/-- What `CandidateEntry::new` makes sure of: the two hashes are those of the head data, and they differ. -/
structure CandidateEntry.Wf (e : CandidateEntry D C) : Prop where
  parent : e.parentHeadDataHash = E.headHash e.candidate.persistedValidationData.parentHead
  output : e.outputHeadDataHash = E.headHash e.candidate.headData
  ne : e.parentHeadDataHash ≠ e.outputHeadDataHash

/-! ## The storage -/

/-- `CandidateStorage`. -/
structure CandidateStorage (D C : Type) where
  byParentHead : Hash → List CandidateHash
  byOutputHead : Hash → List CandidateHash
  byCandidateHash : List (CandidateEntry D C)

namespace CandidateStorage

/-- `CandidateStorage::default`. -/
def empty : CandidateStorage D C :=
  ⟨fun _ => [], fun _ => [], []⟩

/-- `by_candidate_hash.get`. -/
def get (s : CandidateStorage D C) (c : CandidateHash) : Option (CandidateEntry D C) :=
  s.byCandidateHash.find? (·.candidateHash = c)

/-- `CandidateStorage::contains`. -/
def contains (s : CandidateStorage D C) (c : CandidateHash) : Bool :=
  (s.get c).isSome

/-- `CandidateStorage::len`. -/
def len (s : CandidateStorage D C) : Nat :=
  s.byCandidateHash.length

/-- `CandidateStorage::add_candidate_entry`. -/
def addCandidateEntry (s : CandidateStorage D C) (candidate : CandidateEntry D C) :
    Except Error (CandidateStorage D C) :=
  if s.contains candidate.candidateHash then .error .candidateAlreadyKnown
  else .ok
    { byParentHead := Function.update s.byParentHead candidate.parentHeadDataHash
        ((s.byParentHead candidate.parentHeadDataHash).insert candidate.candidateHash)
      byOutputHead := Function.update s.byOutputHead candidate.outputHeadDataHash
        ((s.byOutputHead candidate.outputHeadDataHash).insert candidate.candidateHash)
      byCandidateHash := candidate :: s.byCandidateHash }

/-- `add_candidate_entry` with its error dropped (`let _ = ...`). -/
def addCandidateEntryOrKeep (s : CandidateStorage D C) (candidate : CandidateEntry D C) : CandidateStorage D C :=
  match s.addCandidateEntry candidate with
  | .ok s' => s'
  | .error _ => s

/-- `CandidateStorage::add_pending_availability_candidate`. -/
def addPendingAvailabilityCandidate (s : CandidateStorage D C) (candidateHash : CandidateHash)
    (candidate : CommittedCandidateReceipt D C) (pvd : PersistedValidationData D) :
    Except Error (CandidateStorage D C) :=
  match CandidateEntry.new E candidateHash candidate pvd .backed with
  | .error e => .error (.candidateEntry e)
  | .ok entry => s.addCandidateEntry entry

/-- `CandidateStorage::remove_candidate`. -/
def removeCandidate (s : CandidateStorage D C) (c : CandidateHash) : CandidateStorage D C :=
  match s.get c with
  | none => s
  | some entry =>
    { byParentHead := Function.update s.byParentHead entry.parentHeadDataHash
        ((s.byParentHead entry.parentHeadDataHash).erase c)
      byOutputHead := Function.update s.byOutputHead entry.outputHeadDataHash
        ((s.byOutputHead entry.outputHeadDataHash).erase c)
      byCandidateHash := s.byCandidateHash.filter (·.candidateHash ≠ c) }

/-- `CandidateStorage::mark_backed`. -/
def markBacked (s : CandidateStorage D C) (c : CandidateHash) : CandidateStorage D C :=
  { s with byCandidateHash := s.byCandidateHash.map fun e =>
      if e.candidateHash = c then { e with state := .backed } else e }

/-- `CandidateStorage::possible_backed_para_children`. -/
def possibleBackedParaChildren (s : CandidateStorage D C) (parentHeadHash : Hash) : List (CandidateEntry D C) :=
  (s.byParentHead parentHeadHash).filterMap fun h =>
    (s.get h).bind fun candidate => if candidate.state = .backed then some candidate else none

/-- `idx` indexes `entries` by `key`: it holds, at each hash, exactly the candidates of the entries with that key, each
once. -/
structure Index (key : CandidateEntry D C → Hash) (idx : Hash → List CandidateHash)
    (entries : List (CandidateEntry D C)) : Prop where
  mem : ∀ h c, c ∈ idx h ↔ ∃ e ∈ entries, e.candidateHash = c ∧ key e = h
  nodup : ∀ h, (idx h).Nodup

/-- The indices agree with the entries, whose hashes are distinct and which are well formed. -/
structure Wf (s : CandidateStorage D C) : Prop where
  nodup : (s.byCandidateHash.map (·.candidateHash)).Nodup
  entries : ∀ e ∈ s.byCandidateHash, e.Wf E
  byParentHead : Index (·.parentHeadDataHash) s.byParentHead s.byCandidateHash
  byOutputHead : Index (·.outputHeadDataHash) s.byOutputHead s.byCandidateHash

/-! ### Looking entries up -/

/-- In a list of entries with distinct hashes, looking an entry's hash up finds it. -/
theorem find?_candidateHash {l : List (CandidateEntry D C)} (hnd : (l.map (·.candidateHash)).Nodup)
    {e : CandidateEntry D C} (he : e ∈ l) : l.find? (·.candidateHash = e.candidateHash) = some e := by
  induction l with
  | nil => cases he
  | cons x xs ih =>
    rw [List.map_cons, List.nodup_cons] at hnd
    rcases List.mem_cons.mp he with rfl | hmem
    · simp
    · have hne : x.candidateHash ≠ e.candidateHash := fun h => hnd.1 (h ▸ List.mem_map_of_mem hmem)
      rw [List.find?_cons_of_neg (by simpa using hne)]
      exact ih hnd.2 hmem

theorem get_eq_some_iff {s : CandidateStorage D C} (hnd : (s.byCandidateHash.map (·.candidateHash)).Nodup)
    {c : CandidateHash} {e : CandidateEntry D C} :
    s.get c = some e ↔ e ∈ s.byCandidateHash ∧ e.candidateHash = c := by
  constructor
  · intro h
    exact ⟨List.mem_of_find?_eq_some h, by simpa using List.find?_some h⟩
  · rintro ⟨he, rfl⟩
    exact find?_candidateHash hnd he

theorem contains_iff {s : CandidateStorage D C} {c : CandidateHash} :
    s.contains c = true ↔ c ∈ s.byCandidateHash.map (·.candidateHash) := by
  simp [contains, get, List.find?_isSome]

/-! ### The index of one key -/

section Index

variable {key : CandidateEntry D C → Hash} {idx : Hash → List CandidateHash} {l : List (CandidateEntry D C)}

theorem index_nil : Index key (fun _ => []) ([] : List (CandidateEntry D C)) :=
  ⟨by simp, fun _ => List.nodup_nil⟩

theorem Index.insert (hi : Index key idx l) (e : CandidateEntry D C) :
    Index key (Function.update idx (key e) ((idx (key e)).insert e.candidateHash)) (e :: l) := by
  constructor
  · intro h c
    by_cases hk : h = key e
    · subst hk
      simp only [Function.update_self, List.mem_insert_iff, hi.mem, List.mem_cons, exists_eq_or_imp, and_true]
      constructor
      · rintro (rfl | h)
        · exact .inl rfl
        · exact .inr h
      · rintro (rfl | h)
        · exact .inl rfl
        · exact .inr h
    · simp only [Function.update_of_ne hk, hi.mem, List.mem_cons, exists_eq_or_imp]
      constructor
      · exact .inr
      · rintro (⟨-, h⟩ | h)
        · exact absurd h.symm hk
        · exact h
  · intro h
    by_cases hk : h = key e
    · subst hk
      rw [Function.update_self]
      exact List.Nodup.insert (hi.nodup _)
    · rw [Function.update_of_ne hk]
      exact hi.nodup h

theorem Index.erase (hi : Index key idx l) (hnd : (l.map (·.candidateHash)).Nodup) {e : CandidateEntry D C}
    (he : e ∈ l) :
    Index key (Function.update idx (key e) ((idx (key e)).erase e.candidateHash))
      (l.filter (·.candidateHash ≠ e.candidateHash)) := by
  -- an entry of `l` with `e`'s hash is `e`
  have hsame : ∀ x ∈ l, x.candidateHash = e.candidateHash → x = e := fun x hx hxe =>
    Option.some.inj ((find?_candidateHash hnd hx).symm.trans (hxe ▸ find?_candidateHash hnd he))
  constructor
  · intro h c
    simp only [List.mem_filter, decide_eq_true_eq, ne_eq]
    by_cases hk : h = key e
    · subst hk
      rw [Function.update_self, List.Nodup.mem_erase_iff (hi.nodup _), hi.mem]
      constructor
      · rintro ⟨hc, x, hx, rfl, hkey⟩
        exact ⟨x, ⟨hx, hc⟩, rfl, hkey⟩
      · rintro ⟨x, ⟨hx, hxe⟩, rfl, hkey⟩
        exact ⟨hxe, x, hx, rfl, hkey⟩
    · rw [Function.update_of_ne hk, hi.mem]
      constructor
      · rintro ⟨x, hx, rfl, hkey⟩
        refine ⟨x, ⟨hx, fun hxe => ?_⟩, rfl, hkey⟩
        exact hk (hsame x hx hxe ▸ hkey).symm
      · rintro ⟨x, ⟨hx, -⟩, rfl, hkey⟩
        exact ⟨x, hx, rfl, hkey⟩
  · intro h
    by_cases hk : h = key e
    · subst hk
      rw [Function.update_self]
      exact List.Nodup.erase _ (hi.nodup _)
    · rw [Function.update_of_ne hk]
      exact hi.nodup h

/-- Changing entries in a way that keeps their hashes and keys keeps the index. -/
theorem Index.map (hi : Index key idx l) {f : CandidateEntry D C → CandidateEntry D C}
    (hf : ∀ e, (f e).candidateHash = e.candidateHash ∧ key (f e) = key e) : Index key idx (l.map f) := by
  refine ⟨fun h c => ?_, hi.nodup⟩
  rw [hi.mem]
  simp only [List.mem_map, exists_exists_and_eq_and, hf]

end Index

/-! ### The operations keep the storage well formed -/

variable {s s' : CandidateStorage D C}

theorem wf_empty : (empty : CandidateStorage D C).Wf E :=
  ⟨List.nodup_nil, by simp [empty], index_nil, index_nil⟩

theorem addCandidateEntry_eq_ok {e : CandidateEntry D C} (h : s.addCandidateEntry e = .ok s') :
    s.contains e.candidateHash = false ∧ s'.byCandidateHash = e :: s.byCandidateHash := by
  unfold addCandidateEntry at h
  split_ifs at h with hc
  cases h
  exact ⟨by simpa using hc, rfl⟩

theorem Wf.addCandidateEntry (hs : s.Wf E) {e : CandidateEntry D C} (he : e.Wf E)
    (h : s.addCandidateEntry e = .ok s') : s'.Wf E := by
  have hnew : e.candidateHash ∉ s.byCandidateHash.map (·.candidateHash) := by
    rw [← contains_iff, (addCandidateEntry_eq_ok h).1]
    simp
  unfold CandidateStorage.addCandidateEntry at h
  split_ifs at h
  cases h
  refine ⟨?_, ?_, hs.byParentHead.insert e, hs.byOutputHead.insert e⟩
  · exact List.nodup_cons.mpr ⟨hnew, hs.nodup⟩
  · intro x hx
    rcases List.mem_cons.mp hx with rfl | hx
    · exact he
    · exact hs.entries x hx

theorem Wf.addCandidateEntryOrKeep (hs : s.Wf E) {e : CandidateEntry D C} (he : e.Wf E) :
    (s.addCandidateEntryOrKeep e).Wf E := by
  unfold CandidateStorage.addCandidateEntryOrKeep
  split
  · exact hs.addCandidateEntry E he ‹_›
  · exact hs

theorem Wf.removeCandidate (hs : s.Wf E) (c : CandidateHash) : (s.removeCandidate c).Wf E := by
  unfold CandidateStorage.removeCandidate
  split
  · exact hs
  · rename_i entry hget
    obtain ⟨hmem, rfl⟩ := (get_eq_some_iff hs.nodup).mp hget
    refine ⟨?_, ?_, hs.byParentHead.erase hs.nodup hmem, hs.byOutputHead.erase hs.nodup hmem⟩
    · exact hs.nodup.sublist ((List.filter_sublist).map _)
    · intro x hx
      exact hs.entries x (List.mem_of_mem_filter hx)

/-- Removing a candidate keeps only entries that were there. -/
theorem mem_removeCandidate {c : CandidateHash} {e : CandidateEntry D C} (he : e ∈ (s.removeCandidate c).byCandidateHash) :
    e ∈ s.byCandidateHash := by
  unfold CandidateStorage.removeCandidate at he
  split at he
  · exact he
  · exact List.mem_of_mem_filter he

theorem Wf.markBacked (hs : s.Wf E) (c : CandidateHash) : (s.markBacked c).Wf E := by
  -- marking changes a state only
  have hf : ∀ e : CandidateEntry D C,
      (if e.candidateHash = c then { e with state := .backed } else e).candidateHash = e.candidateHash ∧
      (if e.candidateHash = c then { e with state := .backed } else e).parentHeadDataHash = e.parentHeadDataHash ∧
      (if e.candidateHash = c then { e with state := .backed } else e).outputHeadDataHash = e.outputHeadDataHash ∧
      (if e.candidateHash = c then { e with state := .backed } else e).candidate = e.candidate := by
    intro e
    split_ifs <;> simp
  refine ⟨?_, ?_, hs.byParentHead.map fun e => ⟨(hf e).1, (hf e).2.1⟩,
    hs.byOutputHead.map fun e => ⟨(hf e).1, (hf e).2.2.1⟩⟩
  · simpa [CandidateStorage.markBacked, List.map_map, Function.comp_def, (hf _).1] using hs.nodup
  · intro x hx
    obtain ⟨e, he, rfl⟩ := List.mem_map.mp hx
    obtain ⟨hwp, hwo, hne⟩ := hs.entries e he
    obtain ⟨-, hp, ho, hcand⟩ := hf e
    exact ⟨by rw [hp, hcand, hwp], by rw [ho, hcand, hwo], by rw [hp, ho]; exact hne⟩

/-- The backed children of a head are backed entries with that parent. -/
theorem Wf.mem_possibleBackedParaChildren (hs : s.Wf E) {h : Hash} {e : CandidateEntry D C}
    (he : e ∈ s.possibleBackedParaChildren h) :
    e ∈ s.byCandidateHash ∧ e.parentHeadDataHash = h ∧ e.state = .backed := by
  unfold possibleBackedParaChildren at he
  obtain ⟨c, hc, hget⟩ := List.mem_filterMap.mp he
  obtain ⟨x, hx, hbacked⟩ := Option.bind_eq_some_iff.mp hget
  split_ifs at hbacked with hstate
  cases hbacked
  obtain ⟨hmem, rfl⟩ := (get_eq_some_iff hs.nodup).mp hx
  obtain ⟨y, hy, hyc, hyp⟩ := (hs.byParentHead.mem h _).mp hc
  have : y = e :=
    Option.some.inj ((find?_candidateHash hs.nodup hy).symm.trans (hyc ▸ find?_candidateHash hs.nodup hmem))
  subst this
  exact ⟨hmem, hyp, hstate⟩

end CandidateStorage

/-! ## The scope -/

/-- `PendingAvailability`. -/
structure PendingAvailability where
  candidateHash : CandidateHash
  relayParent : RelayChainBlockInfo
  deriving DecidableEq, Repr

/-- `Scope`. The `ancestors` map and `ancestors_by_hash` hold the same blocks: `ancestors` lists them in increasing
order of number, and a block found by hash is the first of them with that hash, the last one inserted. -/
structure Scope (D K : Type) where
  relayParent : RelayChainBlockInfo
  ancestors : List RelayChainBlockInfo
  pendingAvailability : List PendingAvailability
  baseConstraints : Constraints D K
  maxBackableLen : Nat

/-- `UnexpectedAncestor`. -/
structure UnexpectedAncestor where
  number : BlockNumber
  prev : BlockNumber
  deriving DecidableEq, Repr

/-- The loop of `Scope::with_ancestors`: ancestors come in decreasing order of number, and each is put in front. -/
def withAncestorsLoop (minRelayParentNumber : BlockNumber) :
    BlockNumber → List RelayChainBlockInfo → List RelayChainBlockInfo →
      Except UnexpectedAncestor (List RelayChainBlockInfo)
  | _, acc, [] => .ok acc
  | prev, acc, ancestor :: rest =>
    if prev = 0 then .error ⟨ancestor.number, prev⟩
    else if ancestor.number ≠ prev - 1 then .error ⟨ancestor.number, prev⟩
    else if prev = minRelayParentNumber then .ok acc
    else withAncestorsLoop minRelayParentNumber ancestor.number (ancestor :: acc) rest

namespace Scope

/-- `Scope::with_ancestors`. -/
def withAncestors (relayParent : RelayChainBlockInfo) (baseConstraints : Constraints D K)
    (pendingAvailability : List PendingAvailability) (maxBackableLen : Nat) (ancestors : List RelayChainBlockInfo) :
    Except UnexpectedAncestor (Scope D K) :=
  (withAncestorsLoop baseConstraints.minRelayParentNumber relayParent.number [] ancestors).map fun acc =>
    ⟨relayParent, acc, pendingAvailability, baseConstraints, maxBackableLen + pendingAvailability.length⟩

/-- `Scope::earliest_relay_parent`. -/
def earliestRelayParent (s : Scope D K) : RelayChainBlockInfo :=
  s.ancestors.head?.getD s.relayParent

/-- `Scope::ancestor`. -/
def ancestor (s : Scope D K) (hash : Hash) : Option RelayChainBlockInfo :=
  if hash = s.relayParent.hash then some s.relayParent else s.ancestors.find? (·.hash = hash)

/-- `Scope::get_pending_availability`. -/
def getPendingAvailability (s : Scope D K) (candidateHash : CandidateHash) : Option PendingAvailability :=
  s.pendingAvailability.find? (·.candidateHash = candidateHash)

/-- A relay parent of a candidate pending availability has the number the scope gives its hash, if it gives one. -/
def Consistent (s : Scope D K) : Prop :=
  ∀ p ∈ s.pendingAvailability, ∀ info, s.ancestor p.relayParent.hash = some info →
    info.number = p.relayParent.number

theorem hash_of_ancestor {s : Scope D K} {hash : Hash} {info : RelayChainBlockInfo}
    (h : s.ancestor hash = some info) : info.hash = hash := by
  unfold ancestor at h
  split_ifs at h with hrp
  · cases h
    exact hrp.symm
  · simpa using List.find?_some h

theorem mem_of_getPendingAvailability {s : Scope D K} {c : CandidateHash} {p : PendingAvailability}
    (h : s.getPendingAvailability c = some p) : p ∈ s.pendingAvailability ∧ p.candidateHash = c :=
  ⟨List.mem_of_find?_eq_some h, by simpa using List.find?_some h⟩

end Scope

end CoreChain.Prospective

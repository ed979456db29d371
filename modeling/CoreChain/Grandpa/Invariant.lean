import CoreChain.Grandpa.Authorities
import CoreChain.Lib.Machine

/-!
# GRANDPA authority sets: the invariant

Every set reached from `genesis` by the operations of the voter keeps valid authorities, valid pending changes,
and a list of forced changes sorted by `(effective_number, canon_height)` with distinct blocks. The sorting makes
the `take_while` of `apply_forced_changes` an optimisation only (`forcedCandidates_eq_filter`), and the forced
changes all carry a `Best` delay, so its `unreachable!` is (`applyForcedChanges_isSome`).

Validity of the authorities does not make `current_authorities` safe: `VoterSet::new` also refuses a total
weight above `u64::MAX`, which no check of this file rules out (`currentVoters_genesis_overflow`).
-/

namespace CoreChain.Grandpa

open Fork

variable {A H N : Type _}

/-- A change to valid authorities. -/
def PendingChange.Valid (c : PendingChange A H N) : Prop :=
  invalidAuthorityList c.nextAuthorities = false

/-- What every reachable set keeps. -/
structure AuthoritySet.Valid [Add N] [LinearOrder N] (s : AuthoritySet A H N) : Prop where
  current : invalidAuthorityList s.currentAuthorities = false
  standard : ForestData PendingChange.Valid s.pendingStandardChanges.roots
  forced : ∀ c ∈ s.pendingForcedChanges, c.Valid ∧ ∃ m, c.delayKind = .best m
  sorted : s.pendingForcedChanges.Pairwise (fun a b => a.forcedKey ≤ b.forcedKey)
  distinct : (s.pendingForcedChanges.map PendingChange.canonHash).Nodup

/-- The operations of a run: the voter adds changes as blocks announce them, applies the standard ones on
finality and the forced ones on the best block, and reverts. -/
inductive Op (A H N : Type _) where
  | addPendingChange (pending : PendingChange A H N) (isDescendentOf : H → H → Bool)
  | applyStandardChanges (finalizedHash : H) (finalizedNumber : N) (isDescendentOf : H → H → Bool)
  | revert (hash : H) (number : N) (isDescendentOf : H → H → Bool)
  | applyForcedChanges (bestHash : H) (bestNumber : N) (isDescendentOf : H → H → Bool)

section Run

variable [DecidableEq H] [LinearOrder N] [Add N]

/-- One operation: an error leaves the set as it is, and a forced change replaces it by the new set. -/
def AuthoritySet.step (s : AuthoritySet A H N) : Op A H N → AuthoritySet A H N
  | .addPendingChange pending isDescendentOf =>
    match s.addPendingChange pending isDescendentOf with
    | .ok s' => s'
    | .error _ => s
  | .applyStandardChanges finalizedHash finalizedNumber isDescendentOf =>
    match s.applyStandardChanges finalizedHash finalizedNumber isDescendentOf with
    | .ok r => r.2
    | .error _ => s
  | .revert hash number isDescendentOf => s.revert hash number isDescendentOf
  | .applyForcedChanges bestHash bestNumber isDescendentOf =>
    match s.applyForcedChanges bestHash bestNumber isDescendentOf with
    | some (.ok (some r)) => r.2
    | _ => s

/-- The sets a run from `genesis initial` reaches. -/
def Reachable (initial : List (A × UInt64)) (s : AuthoritySet A H N) : Prop :=
  ∃ g, AuthoritySet.genesis initial = some g ∧ Reach g AuthoritySet.step (fun _ _ => True) s

/-! ## Each operation keeps the invariant -/

omit [DecidableEq H] in
theorem genesis_valid {initial : List (A × UInt64)} {s : AuthoritySet A H N}
    (h : AuthoritySet.genesis initial = some s) : s.Valid := by
  unfold AuthoritySet.genesis at h
  split at h
  · cases h
  · rename_i hinv
    cases h
    exact ⟨by simpa using hinv, forestData_nil, by simp, List.Pairwise.nil, List.nodup_nil⟩

theorem AuthoritySet.Valid.revert {s : AuthoritySet A H N} (hv : s.Valid) (hash : H) (number : N)
    (isDescendentOf : H → H → Bool) : (s.revert hash number isDescendentOf).Valid := by
  refine ⟨hv.current, hv.standard.drainFilter _, fun c hc => hv.forced c (List.mem_of_mem_filter hc),
    hv.sorted.filter _, hv.distinct.sublist (List.filter_sublist.map _)⟩

/-- The index that `add_forced_change` computes is where the binary search points. -/
theorem binarySearch_index (r : Except Nat Nat) :
    r = .ok (match r with | .ok i => i | .error i => i) ∨ r = .error (match r with | .ok i => i | .error i => i) := by
  cases r <;> simp

theorem AuthoritySet.Valid.addForcedChange {s s' : AuthoritySet A H N} (hv : s.Valid) {pending : PendingChange A H N}
    (hp : pending.Valid) {m : N} (hbest : pending.delayKind = .best m) {isDescendentOf : H → H → Bool}
    (h : s.addForcedChange pending isDescendentOf = .ok s') : s'.Valid := by
  unfold AuthoritySet.addForcedChange at h
  split at h
  · cases h
  · rename_i hfind
    cases h
    obtain ⟨hle, hlo, hhi⟩ := binarySearchBy_split hv.sorted _ (binarySearch_index _)
    have hnew : pending.canonHash ∉ s.pendingForcedChanges.map PendingChange.canonHash := by
      intro hmem
      obtain ⟨c, hc, heq⟩ := List.mem_map.mp hmem
      have := List.find?_eq_none.mp hfind c hc
      simp [heq] at this
    refine ⟨hv.current, hv.standard, fun c hc => ?_, pairwise_insertIdx hv.sorted hle hlo hhi, ?_⟩
    · rcases (List.mem_insertIdx hle).mp hc with rfl | hc
      · exact ⟨hp, m, hbest⟩
      · exact hv.forced c hc
    · exact ((List.perm_insertIdx _ _ hle).map _).nodup_iff.mpr (List.nodup_cons.mpr ⟨hnew, hv.distinct⟩)

theorem AuthoritySet.Valid.addPendingChange {s s' : AuthoritySet A H N} (hv : s.Valid)
    {pending : PendingChange A H N} {isDescendentOf : H → H → Bool}
    (h : s.addPendingChange pending isDescendentOf = .ok s') : s'.Valid := by
  unfold AuthoritySet.addPendingChange at h
  split at h
  · cases h
  · rename_i hinv
    have hp : pending.Valid := by simpa [PendingChange.Valid] using hinv
    split at h
    · rename_i m hbest
      exact hv.addForcedChange hp hbest h
    · unfold AuthoritySet.addStandardChange at h
      split at h
      · cases h
      · cases h
        exact { hv with standard := hv.standard.import hp ‹_› }

theorem AuthoritySet.Valid.applyStandardChanges {s s' : AuthoritySet A H N} (hv : s.Valid)
    {finalizedHash : H} {finalizedNumber : N} {isDescendentOf : H → H → Bool} {status : Status H N}
    (h : s.applyStandardChanges finalizedHash finalizedNumber isDescendentOf = .ok (status, s')) : s'.Valid := by
  unfold AuthoritySet.applyStandardChanges at h
  split at h
  · cases h
  · rename_i tree htree
    cases h
    exact { hv with standard := (hv.standard.finalizeWithDescendentIf htree).1 }
  · rename_i change tree htree
    obtain ⟨hstd, hchange⟩ := hv.standard.finalizeWithDescendentIf htree
    have hforced : ∀ p : PendingChange A H N → Bool,
        ∀ c ∈ s.pendingForcedChanges.filter p, c.Valid ∧ ∃ m, c.delayKind = .best m :=
      fun p c hc => hv.forced c (List.mem_of_mem_filter hc)
    split at h
    · cases h
      exact ⟨hv.current, hstd, hforced _, hv.sorted.filter _, hv.distinct.sublist (List.filter_sublist.map _)⟩
    · cases h
      exact ⟨hchange _ rfl, hstd, hforced _, hv.sorted.filter _, hv.distinct.sublist (List.filter_sublist.map _)⟩

/-- A new set from the forced-change loop takes the authorities of one of the changes it looked at, and starts
with nothing pending. -/
theorem applyForcedLoop_new {s s' : AuthoritySet A H N} {bestHash : H} {isDescendentOf : H → H → Bool} {m : N} :
    ∀ {l : List (PendingChange A H N)}, s.applyForcedLoop bestHash isDescendentOf l = some (.ok (some (m, s'))) →
      ∃ c ∈ l, s' = ⟨c.nextAuthorities, s.setId + 1, ForkTree.new, [], s.authoritySetChanges ++ [(s.setId, m)]⟩
  | [], h => by simp [AuthoritySet.applyForcedLoop] at h
  | c :: l, h => by
    unfold AuthoritySet.applyForcedLoop at h
    split at h
    · split at h
      · cases h
      · split at h
        · cases h
        · cases h
          exact ⟨c, List.mem_cons_self, rfl⟩
    · obtain ⟨c', hc', rfl⟩ := applyForcedLoop_new h
      exact ⟨c', List.mem_cons_of_mem _ hc', rfl⟩

omit [DecidableEq H] in
theorem forcedCandidates_subset (s : AuthoritySet A H N) (bestNumber : N) :
    ∀ c ∈ s.forcedCandidates bestNumber, c ∈ s.pendingForcedChanges :=
  fun _ hc => (List.takeWhile_sublist _).subset (List.mem_of_mem_filter hc)

theorem AuthoritySet.Valid.applyForcedChanges {s s' : AuthoritySet A H N} (hv : s.Valid) {bestHash : H}
    {bestNumber m : N} {isDescendentOf : H → H → Bool}
    (h : s.applyForcedChanges bestHash bestNumber isDescendentOf = some (.ok (some (m, s')))) : s'.Valid := by
  obtain ⟨c, hc, rfl⟩ := applyForcedLoop_new h
  exact ⟨(hv.forced c (forcedCandidates_subset s bestNumber c hc)).1, forestData_nil, by simp,
    List.Pairwise.nil, List.nodup_nil⟩

theorem AuthoritySet.Valid.step {s : AuthoritySet A H N} (hv : s.Valid) (op : Op A H N) : (s.step op).Valid := by
  cases op with
  | addPendingChange pending isDescendentOf =>
    simp only [AuthoritySet.step]
    split
    · exact hv.addPendingChange ‹_›
    · exact hv
  | applyStandardChanges finalizedHash finalizedNumber isDescendentOf =>
    simp only [AuthoritySet.step]
    split
    · exact hv.applyStandardChanges ‹_›
    · exact hv
  | revert hash number isDescendentOf => exact hv.revert hash number isDescendentOf
  | applyForcedChanges bestHash bestNumber isDescendentOf =>
    simp only [AuthoritySet.step]
    split
    · exact hv.applyForcedChanges ‹_›
    · exact hv

theorem reachable_valid {initial : List (A × UInt64)} {s : AuthoritySet A H N} (h : Reachable initial s) :
    s.Valid := by
  obtain ⟨g, hg, hr⟩ := h
  exact hr.invariant (genesis_valid hg) (fun s op hv _ => hv.step op)

/-! ## What the invariant gives -/

omit [DecidableEq H] in
/-- On a sorted list of forced changes the `take_while` drops none of the changes due at the best block. -/
theorem AuthoritySet.Valid.forcedCandidates_eq_filter {s : AuthoritySet A H N} (hv : s.Valid) (bestNumber : N) :
    s.forcedCandidates bestNumber =
      s.pendingForcedChanges.filter (fun c => decide (c.effectiveNumber = bestNumber)) :=
  filter_takeWhile_of_pairwise
    (hv.sorted.imp fun hab => (Prod.Lex.toLex_le_toLex'.mp hab).1)

theorem applyForcedLoop_isSome {s : AuthoritySet A H N} {bestHash : H} {isDescendentOf : H → H → Bool} :
    ∀ {l : List (PendingChange A H N)}, (∀ c ∈ l, ∃ m, c.delayKind = .best m) →
      (s.applyForcedLoop bestHash isDescendentOf l).isSome
  | [], _ => rfl
  | c :: l, hl => by
    unfold AuthoritySet.applyForcedLoop
    split
    · obtain ⟨m, hm⟩ := hl c List.mem_cons_self
      rw [hm]
      dsimp only
      split <;> rfl
    · exact applyForcedLoop_isSome (fun c' hc' => hl c' (List.mem_cons_of_mem _ hc'))

/-- The `unreachable!` of `apply_forced_changes` is never reached from a valid set. -/
theorem AuthoritySet.Valid.applyForcedChanges_isSome {s : AuthoritySet A H N} (hv : s.Valid) (bestHash : H)
    (bestNumber : N) (isDescendentOf : H → H → Bool) :
    (s.applyForcedChanges bestHash bestNumber isDescendentOf).isSome :=
  applyForcedLoop_isSome fun c hc => (hv.forced c (forcedCandidates_subset s bestNumber c hc)).2

/-- Every set a run reaches has valid authorities and pending changes, and its forced changes sorted by
`(effective_number, canon_height)` with distinct blocks, so that cutting the list at the best block loses no change due
there and no forced change lacks its median. -/
theorem reachable_authoritySet {initial : List (A × UInt64)} {s : AuthoritySet A H N} (h : Reachable initial s) :
    invalidAuthorityList s.currentAuthorities = false ∧
      (∀ n ∈ s.pendingStandardChanges.nodeIter, n.data.Valid) ∧
      (∀ c ∈ s.pendingForcedChanges, c.Valid) ∧
      s.pendingForcedChanges.Pairwise (fun a b => a.forcedKey ≤ b.forcedKey) ∧
      (s.pendingForcedChanges.map PendingChange.canonHash).Nodup ∧
      (∀ bestNumber, s.forcedCandidates bestNumber =
        s.pendingForcedChanges.filter (fun c => decide (c.effectiveNumber = bestNumber))) ∧
      ∀ bestHash bestNumber isDescendentOf, (s.applyForcedChanges bestHash bestNumber isDescendentOf).isSome := by
  have hv := reachable_valid h
  exact ⟨hv.current, hv.standard, fun c hc => (hv.forced c hc).1, hv.sorted, hv.distinct,
    hv.forcedCandidates_eq_filter, hv.applyForcedChanges_isSome⟩

/-- A forced change added to the genesis set of one authority. -/
def sampleForced : AuthoritySet Nat Nat Nat :=
  AuthoritySet.step ⟨[(1, 1)], 0, ForkTree.new, [], []⟩ (.addPendingChange ⟨[(2, 1)], 5, 10, 7, .best 0⟩ fun _ _ => false)

theorem reachable_authoritySet_sampleForced :
    invalidAuthorityList sampleForced.currentAuthorities = false ∧
      (∀ n ∈ sampleForced.pendingStandardChanges.nodeIter, n.data.Valid) ∧
      (∀ c ∈ sampleForced.pendingForcedChanges, c.Valid) ∧
      sampleForced.pendingForcedChanges.Pairwise (fun a b => a.forcedKey ≤ b.forcedKey) ∧
      (sampleForced.pendingForcedChanges.map PendingChange.canonHash).Nodup ∧
      (∀ bestNumber, sampleForced.forcedCandidates bestNumber =
        sampleForced.pendingForcedChanges.filter (fun c => decide (c.effectiveNumber = bestNumber))) ∧
      ∀ bestHash bestNumber isDescendentOf, (sampleForced.applyForcedChanges bestHash bestNumber isDescendentOf).isSome :=
  reachable_authoritySet (show Reachable [(1, 1)] sampleForced from ⟨_, rfl, Reach.step Reach.init trivial⟩)

end Run

/-! ## `current_authorities` -/

/-- What the documentation of `VoterSet::new` in `finality-grandpa` says: there is no voter set when no weight
is non-zero, or when the total weight exceeds `u64::MAX`, and there is one otherwise. -/
def VoterSetNewSpec {VS : Type _} (voterSetNew : List (A × UInt64) → Option VS) : Prop :=
  ∀ l, (voterSetNew l).isNone = true ↔ (∀ x ∈ l, x.2 = 0) ∨ 2 ^ 64 ≤ (l.map (fun x => x.2.toNat)).sum

/-- Two authorities whose weights add up past `u64::MAX` make a valid genesis set, on which
`current_authorities` panics. -/
theorem currentVoters_genesis_overflow {VS : Type _} (voterSetNew : List (Nat × UInt64) → Option VS)
    (hspec : VoterSetNewSpec voterSetNew) :
    ∃ s : AuthoritySet Nat Nat Nat, AuthoritySet.genesis [(0, 18446744073709551615), (1, 1)] = some s ∧
      s.currentVoters voterSetNew = none := by
  refine ⟨_, rfl, ?_⟩
  have h := (hspec [(0, 18446744073709551615), (1, 1)]).mpr (Or.inr (by decide))
  simpa [AuthoritySet.currentVoters] using h

/-- `VoterSet::new` as its documentation describes it, keeping the list. -/
def voterSetOfList (l : List (Nat × UInt64)) : Option (List (Nat × UInt64)) :=
  if (∀ x ∈ l, x.2 = 0) ∨ 2 ^ 64 ≤ (l.map (fun x => x.2.toNat)).sum then none else some l

theorem voterSetOfList_spec : VoterSetNewSpec voterSetOfList := by
  intro l
  unfold voterSetOfList
  split <;> simp_all

theorem currentVoters_genesis_overflow_voterSetOfList :
    ∃ s : AuthoritySet Nat Nat Nat, AuthoritySet.genesis [(0, 18446744073709551615), (1, 1)] = some s ∧
      s.currentVoters voterSetOfList = none :=
  currentVoters_genesis_overflow voterSetOfList voterSetOfList_spec

end CoreChain.Grandpa

import CoreChain.Prospective.BestChain

/-!
# The fragment chain over its lifecycle

A fragment chain of prospective-parachains is built by `init` on the candidates pending availability of its scope,
then, if the previous leaf had one, by `populate_from_previous`, and then changed by `try_adding_seconded_candidate`
and `candidate_backed` (`lib.rs`). `Inv` is what every such chain keeps (`reachable_inv`): its best chain is well
formed (`ChainWf`), the candidates pending availability come first in it and all of them are in it, and the
unconnected storage is well formed, apart from the chain, and holds no candidate pending availability and no fork of
one.

`init` relies on the candidates pending availability forming a chain with the latest included head (`Admissible`);
one that does not build on it is left out of the best chain. `populate_from_previous` relies on the unconnected
storage it adds to being empty, which it is right after `init`; on a chain that already holds a seconded candidate, it
can put that candidate in the best chain while leaving it in the storage. Both cases are in
`fragmentChain_restrictions_needed`.
-/

namespace CoreChain.Prospective

variable {D K M C : Type} (E : Emulator D K M C)

/-! ## Taking candidates out of a storage, and putting them back -/

namespace CandidateStorage

variable {s : CandidateStorage D C}

/-- A fold whose every step keeps a storage well formed keeps it well formed. -/
theorem Wf.foldl {α : Type} (g : CandidateStorage D C → α → CandidateStorage D C) (l : List α)
    (hg : ∀ s : CandidateStorage D C, s.Wf E → ∀ a ∈ l, (g s a).Wf E) (hs : s.Wf E) : (l.foldl g s).Wf E := by
  induction l generalizing s with
  | nil => exact hs
  | cons a rest ih =>
    exact ih (fun s hs b hb => hg s hs b (List.mem_cons_of_mem _ hb)) (hg s hs a List.mem_cons_self)

theorem Wf.foldl_removeCandidate (hs : s.Wf E) (l : List CandidateHash) :
    (l.foldl CandidateStorage.removeCandidate s).Wf E ∧
      ∀ e ∈ (l.foldl CandidateStorage.removeCandidate s).byCandidateHash, e ∈ s.byCandidateHash := by
  induction l generalizing s with
  | nil => exact ⟨hs, fun _ he => he⟩
  | cons c rest ih =>
    obtain ⟨hwf, hsub⟩ := ih (hs.removeCandidate E c)
    exact ⟨hwf, fun e he => mem_removeCandidate (hsub e he)⟩

/-- Adding an entry, or keeping the storage on an error, adds nothing else. -/
theorem mem_addCandidateEntryOrKeep {e x : CandidateEntry D C} (hx : x ∈ (s.addCandidateEntryOrKeep e).byCandidateHash) :
    x = e ∨ x ∈ s.byCandidateHash := by
  unfold addCandidateEntryOrKeep at hx
  split at hx
  · rename_i s' hadd
    rw [(addCandidateEntry_eq_ok hadd).2] at hx
    exact List.mem_cons.mp hx
  · exact .inr hx

/-- Marking a candidate as backed changes states only. -/
theorem mem_markBacked {c : CandidateHash} {x : CandidateEntry D C} (hx : x ∈ (s.markBacked c).byCandidateHash) :
    ∃ e ∈ s.byCandidateHash, x.candidateHash = e.candidateHash ∧ x.parentHeadDataHash = e.parentHeadDataHash := by
  obtain ⟨e, he, rfl⟩ := List.mem_map.mp hx
  refine ⟨e, he, ?_⟩
  split_ifs <;> simp

end CandidateStorage

/-! ## Candidates pending availability come first -/

/-- Along the chain, a node pending availability has only nodes pending availability before it. -/
def PendingFirst (scope : Scope D K) (chain : List (FragmentNode D K M C)) : Prop :=
  chain.Pairwise fun a b =>
    (scope.getPendingAvailability b.candidateHash).isSome → (scope.getPendingAvailability a.candidateHash).isSome

section PendingFirst

variable {scope : Scope D K} {chain : List (FragmentNode D K M C)}

theorem PendingFirst.append (h : PendingFirst scope chain) {added : List (FragmentNode D K M C)}
    (hadded : ∀ n ∈ added, scope.getPendingAvailability n.candidateHash = none) :
    PendingFirst scope (chain ++ added) := by
  -- nothing comes after an added node, as none is pending availability
  have hvac : ∀ a : FragmentNode D K M C, ∀ b ∈ added, (scope.getPendingAvailability b.candidateHash).isSome →
      (scope.getPendingAvailability a.candidateHash).isSome := by
    intro a b hb hsome
    simp [hadded b hb] at hsome
  refine List.pairwise_append.mpr ⟨h, ?_, fun a _ b hb => hvac a b hb⟩
  exact List.pairwise_of_forall_mem_list fun a _ b hb => hvac a b hb

theorem PendingFirst.of_append {pre post : List (FragmentNode D K M C)} (h : PendingFirst scope (pre ++ post)) :
    PendingFirst scope pre :=
  List.Pairwise.sublist (List.sublist_append_left pre post) h

/-- From a node that is not pending availability on, no node is. -/
theorem PendingFirst.not_pending_tail {pre post : List (FragmentNode D K M C)} {y : FragmentNode D K M C}
    (h : PendingFirst scope (pre ++ y :: post)) (hy : scope.getPendingAvailability y.candidateHash = none) :
    ∀ z ∈ y :: post, scope.getPendingAvailability z.candidateHash = none := by
  have hy' := List.pairwise_cons.mp (List.pairwise_append.mp h).2.1
  intro z hz
  rcases List.mem_cons.mp hz with rfl | hz
  · exact hy
  · by_contra hne
    have hsome := hy'.1 z hz (Option.ne_none_iff_isSome.mp hne)
    simp [hy] at hsome

/-- The candidates pending availability on the chain are a prefix of it. -/
theorem PendingFirst.split (h : PendingFirst scope chain) :
    ∃ pre post, chain = pre ++ post ∧ (∀ n ∈ pre, (scope.getPendingAvailability n.candidateHash).isSome) ∧
      ∀ n ∈ post, scope.getPendingAvailability n.candidateHash = none := by
  induction chain with
  | nil => exact ⟨[], [], rfl, by simp, by simp⟩
  | cons a rest ih =>
    obtain ⟨ha, hrest⟩ := List.pairwise_cons.mp h
    by_cases hpa : (scope.getPendingAvailability a.candidateHash).isSome
    · obtain ⟨pre, post, hsplit, hpre, hpost⟩ := ih hrest
      refine ⟨a :: pre, post, by rw [hsplit, List.cons_append], ?_, hpost⟩
      exact List.forall_mem_cons.mpr ⟨hpa, hpre⟩
    · refine ⟨[], a :: rest, rfl, by simp, ?_⟩
      have hnone := Option.not_isSome_iff_eq_none.mp hpa
      have h' : PendingFirst scope ([] ++ a :: rest) := h
      exact PendingFirst.not_pending_tail h' hnone

end PendingFirst

theorem Scope.getPendingAvailability_isSome {scope : Scope D K} {p : PendingAvailability}
    (hp : p ∈ scope.pendingAvailability) : (scope.getPendingAvailability p.candidateHash).isSome :=
  List.find?_isSome.mpr ⟨p, hp, by simp⟩

/-- A candidate pending availability is on a chain that holds all of them. -/
theorem mem_of_pending {scope : Scope D K} {bc : BackedChain D K M C} (hwf : ChainWf E scope bc)
    (hin : ∀ p ∈ scope.pendingAvailability, bc.candidates p.candidateHash = true) {c : CandidateHash}
    (hc : (scope.getPendingAvailability c).isSome) : c ∈ bc.chain.map (·.candidateHash) := by
  obtain ⟨p, hp⟩ := Option.isSome_iff_exists.mp hc
  obtain ⟨hmem, rfl⟩ := Scope.mem_of_getPendingAvailability hp
  exact (hwf.candidates _).mp (hin p hmem)

/-- The index by parent head finds the node with that parent. -/
theorem ChainWf.byParentHead_of_mem {scope : Scope D K} {bc : BackedChain D K M C} (hwf : ChainWf E scope bc)
    {n : FragmentNode D K M C} (hn : n ∈ bc.chain) : bc.byParentHead n.parentHeadDataHash = some n.candidateHash := by
  rw [hwf.byParentHead]
  have hfind : (bc.chain.find? (·.parentHeadDataHash = n.parentHeadDataHash)).isSome :=
    List.find?_isSome.mpr ⟨n, hn, by simp⟩
  obtain ⟨z, hz⟩ := Option.isSome_iff_exists.mp hfind
  have hzp : z.parentHeadDataHash = n.parentHeadDataHash := by simpa using List.find?_some hz
  -- parents are distinct along the chain, so the node found is `n`
  have hzn : z = n := List.inj_on_of_nodup_map (hwf.parents_nodup E) (List.mem_of_find?_eq_some hz) hn hzp
  rw [hz, hzn]
  rfl

/-! ## The invariant -/

/-- The unconnected storage is well formed, apart from the best chain, and holds no candidate pending availability and
no fork of one. -/
structure UnconnectedInv (fc : FragmentChain D K M C) : Prop where
  wf : fc.unconnected.Wf E
  notPending : ∀ e ∈ fc.unconnected.byCandidateHash, fc.scope.getPendingAvailability e.candidateHash = none
  disjoint : ∀ e ∈ fc.unconnected.byCandidateHash, fc.bestChain.candidates e.candidateHash = false
  noPendingFork : ∀ e ∈ fc.unconnected.byCandidateHash, ∀ o,
    fc.bestChain.byParentHead e.parentHeadDataHash = some o → fc.scope.getPendingAvailability o = none

/-- What every fragment chain of the lifecycle keeps. -/
structure Inv (fc : FragmentChain D K M C) : Prop where
  chainWf : ChainWf E fc.scope fc.bestChain
  consistent : fc.scope.Consistent
  pendingFirst : PendingFirst fc.scope fc.bestChain.chain
  pendingInChain : ∀ p ∈ fc.scope.pendingAvailability, fc.bestChain.candidates p.candidateHash = true
  unconnected : UnconnectedInv E fc

theorem unconnectedInv_empty {fc : FragmentChain D K M C} (h : fc.unconnected = .empty) : UnconnectedInv E fc := by
  refine ⟨h ▸ CandidateStorage.wf_empty E, ?_, ?_, ?_⟩ <;> simp [h, CandidateStorage.empty]

/-- Storing one more candidate, not pending availability, apart from the chain and no fork of a candidate pending
availability, keeps the unconnected storage's invariant. -/
theorem UnconnectedInv.insert {fc : FragmentChain D K M C} (hinv : UnconnectedInv E fc) {e : CandidateEntry D C}
    {s : CandidateStorage D C} (hs : s.Wf E) (hsub : ∀ x ∈ s.byCandidateHash, x = e ∨ x ∈ fc.unconnected.byCandidateHash)
    (hnp : fc.scope.getPendingAvailability e.candidateHash = none) (hchain : fc.bestChain.candidates e.candidateHash = false)
    (hfork : ∀ o, fc.bestChain.byParentHead e.parentHeadDataHash = some o → fc.scope.getPendingAvailability o = none) :
    UnconnectedInv E { fc with unconnected := s } := by
  refine ⟨hs, fun x hx => ?_, fun x hx => ?_, fun x hx => ?_⟩ <;> rcases hsub x hx with rfl | hx
  · exact hnp
  · exact hinv.notPending x hx
  · exact hchain
  · exact hinv.disjoint x hx
  · exact hfork
  · exact hinv.noPendingFork x hx

/-! ## `revert_to` -/

namespace FragmentChain

variable {fc fc' : FragmentChain D K M C} {p : Hash}

theorem revertTo_false (h : fc.revertTo E p = (fc', false)) : fc' = fc := by
  unfold revertTo at h
  by_cases hr : E.headHash fc.scope.baseConstraints.requiredParent = p
  · simp [hr] at h
  · by_cases ho : (fc.bestChain.byOutputHead p).isSome
    · simp [hr, ho] at h
    · simp [hr, ho] at h
      exact h.symm

/-- A revert that finds the head keeps a well formed prefix of the chain, up to a node outputting the head (or none,
at the required parent), and gives the nodes after it, the first of which builds on the head, to the unconnected
storage. -/
theorem revertTo_spec (hwf : ChainWf E fc.scope fc.bestChain) (h : fc.revertTo E p = (fc', true)) :
    fc'.scope = fc.scope ∧ ∃ removed, fc.bestChain.chain = fc'.bestChain.chain ++ removed ∧
      fc'.unconnected = removed.foldl (fun s node => s.addCandidateEntryOrKeep node.toEntry) fc.unconnected ∧
      ChainWf E fc.scope fc'.bestChain ∧ ∀ y ∈ removed.head?, y.parentHeadDataHash = p := by
  unfold revertTo at h
  by_cases hr : E.headHash fc.scope.baseConstraints.requiredParent = p
  · -- at the required parent, the whole chain goes
    simp [hr] at h
    subst h
    refine ⟨rfl, fc.bestChain.chain, rfl, rfl, chainWf_empty E, fun y hy => ?_⟩
    rw [← hr]
    exact hwf.first y hy
  · by_cases ho : (fc.bestChain.byOutputHead p).isSome
    · simp [hr, ho] at h
      subst h
      obtain ⟨pre, x, post, hchain, hxp, hpre, hpost, hwf'⟩ := hwf.revertToParentHash E ho
      refine ⟨rfl, post, ?_, by rw [hpost], hwf', fun y hy => ?_⟩
      · rw [hpre, hchain, List.append_assoc, List.singleton_append]
      · cases post with
        | nil => cases hy
        | cons y' rest =>
          obtain rfl : y = y' := (Option.some.inj hy).symm
          -- the first node drained builds on the one outputting the head
          have hlinked := hwf.linked
          rw [hchain] at hlinked
          rw [← hxp]
          exact (List.isChain_cons_cons.mp (List.isChain_append.mp hlinked).2.1).1
    · simp [hr, ho] at h

end FragmentChain

variable [DecidableEq D]

namespace FragmentChain

variable {fc : FragmentChain D K M C}

/-! ## `trim_uneligible_forks` only takes candidates out -/

theorem trimLoop_spec (fc : FragmentChain D K M C) (fuel : Nat) :
    ∀ (queue : List (Hash × Bool)) (visited : List Hash) (storage : CandidateStorage D C), storage.Wf E →
      (trimLoop E fc fuel queue visited storage).Wf E ∧
        ∀ e ∈ (trimLoop E fc fuel queue visited storage).byCandidateHash, e ∈ storage.byCandidateHash := by
  induction fuel with
  | zero => intro queue visited storage hs; exact ⟨hs, fun _ he => he⟩
  | succ fuel ih =>
    intro queue visited storage hs
    cases queue with
    | nil => exact ⟨hs, fun _ he => he⟩
    | cons entry queue =>
      obtain ⟨parent, parentHasPotential⟩ := entry
      simp only [trimLoop]
      -- the children of a parent are removed together, then the search goes on
      obtain ⟨hwf, hsub⟩ := hs.foldl_removeCandidate E
        ((storage.byParentHead parent).foldl (trimChild E fc storage (parent :: visited) parentHasPotential) ([], [])).2
      obtain ⟨hwf', hsub'⟩ := ih _ _ _ hwf
      exact ⟨hwf', fun e he => hsub e (hsub' e he)⟩

theorem trimUneligibleForks_spec {storage : CandidateStorage D C} (hs : storage.Wf E) (startingPoint : Option Hash) :
    (fc.trimUneligibleForks E storage startingPoint).Wf E ∧
      ∀ e ∈ (fc.trimUneligibleForks E storage startingPoint).byCandidateHash, e ∈ storage.byCandidateHash :=
  trimLoop_spec E fc _ _ _ _ hs

/-! ## What `can_add_candidate_as_potential` makes sure of -/

/-- A candidate with potential is no fork of a candidate pending availability. -/
theorem checkPotential_noPendingFork {e : CandidateEntry D C} {u : Unit} (h : fc.checkPotential E e = .ok u) :
    ∀ o, fc.bestChain.byParentHead e.parentHeadDataHash = some o → fc.scope.getPendingAvailability o = none := by
  have hfork : fc.checkFork e = .ok () := by
    unfold checkPotential at h
    by_cases hz : e.parentHeadDataHash = e.outputHeadDataHash
    · simp [hz] at h
    · rw [if_neg hz] at h
      cases ha : fc.scope.ancestor e.relayParent with
      | none => simp [ha] at h
      | some rp =>
        simp only [ha] at h
        by_cases hlt : rp.number < fc.earliestRelayParentPendingAvailability.number
        · simp [hlt] at h
        · rw [if_neg hlt] at h
          cases hf : fc.checkFork e with
          | error err => simp [hf] at h
          | ok v => rfl
  intro o ho
  unfold checkFork at hfork
  rw [ho] at hfork
  dsimp only at hfork
  split_ifs at hfork with hp
  simpa using hp

theorem canAddCandidateAsPotential_ok {e : CandidateEntry D C} {u : Unit}
    (h : fc.canAddCandidateAsPotential E e = .ok u) :
    fc.bestChain.candidates e.candidateHash = false ∧ fc.unconnected.contains e.candidateHash = false ∧
      fc.checkPotential E e = .ok u := by
  unfold canAddCandidateAsPotential at h
  split_ifs at h with hknown
  simp only [BackedChain.contains, Bool.or_eq_true, not_or, Bool.not_eq_true] at hknown
  exact ⟨hknown.1, hknown.2, h⟩

/-! ## `populate_unconnected_potential_candidates` -/

theorem keepPotential_chain (e : CandidateEntry D C) :
    (fc.keepPotential E e).scope = fc.scope ∧ (fc.keepPotential E e).bestChain = fc.bestChain := by
  unfold keepPotential
  split_ifs
  · exact ⟨rfl, rfl⟩
  · split <;> exact ⟨rfl, rfl⟩

end FragmentChain

/-- Keeping a well formed candidate with potential keeps the unconnected storage's invariant. -/
theorem UnconnectedInv.keepPotential {fc : FragmentChain D K M C} (hinv : UnconnectedInv E fc) {e : CandidateEntry D C}
    (he : e.Wf E) : UnconnectedInv E (fc.keepPotential E e) := by
  unfold FragmentChain.keepPotential
  split_ifs with hp
  · exact hinv
  · split
    · rename_i u hadd
      obtain ⟨hchain, -, hpot⟩ := FragmentChain.canAddCandidateAsPotential_ok E hadd
      exact hinv.insert E (hinv.wf.addCandidateEntryOrKeep E he) (fun x hx => CandidateStorage.mem_addCandidateEntryOrKeep hx)
        (Option.not_isSome_iff_eq_none.mp hp) hchain (FragmentChain.checkPotential_noPendingFork E hpot)
    · exact hinv

namespace FragmentChain

theorem populateUnconnectedPotentialCandidates_spec (l : List (CandidateEntry D C)) (hl : ∀ e ∈ l, e.Wf E) :
    ∀ {fc : FragmentChain D K M C}, UnconnectedInv E fc →
      (l.foldl (keepPotential E) fc).scope = fc.scope ∧ (l.foldl (keepPotential E) fc).bestChain = fc.bestChain ∧
        UnconnectedInv E (l.foldl (keepPotential E) fc) := by
  induction l with
  | nil => intro fc hinv; exact ⟨rfl, rfl, hinv⟩
  | cons e rest ih =>
    intro fc hinv
    obtain ⟨hscope, hchain⟩ : (fc.keepPotential E e).scope = fc.scope ∧ (fc.keepPotential E e).bestChain = fc.bestChain :=
      keepPotential_chain E e
    obtain ⟨hscope', hchain', hinv'⟩ :=
      ih (fun x hx => hl x (List.mem_cons_of_mem _ hx)) (hinv.keepPotential E (hl e List.mem_cons_self))
    exact ⟨hscope'.trans hscope, hchain'.trans hchain, hinv'⟩

end FragmentChain

/-! ## Every operation keeps the invariant -/

section Operations

variable {fc : FragmentChain D K M C}

/-- `populate_chain`, then `trim_uneligible_forks` and `populate_unconnected_potential_candidates`, from a chain that
keeps the invariant with an empty unconnected storage: how `populate_from_previous` and `candidate_backed` end. -/
theorem Inv.rebuild {storage : CandidateStorage D C}
    (hwf : ChainWf E fc.scope fc.bestChain) (hcons : fc.scope.Consistent)
    (hfirst : PendingFirst fc.scope fc.bestChain.chain)
    (hin : ∀ p ∈ fc.scope.pendingAvailability, fc.bestChain.candidates p.candidateHash = true)
    (hempty : fc.unconnected = .empty) (hstorage : storage.Wf E) (startingPoint : Option Hash) :
    Inv E ((fc.populateChain E storage).1.populateUnconnectedPotentialCandidates E
      ((fc.populateChain E storage).1.trimUneligibleForks E (fc.populateChain E storage).2 startingPoint)) := by
  have hP := populateChain_spec E hwf hstorage hcons
  obtain ⟨htrim, -⟩ := FragmentChain.trimUneligibleForks_spec E hP.storageWf startingPoint
  obtain ⟨hscope, hchain, hunc⟩ := FragmentChain.populateUnconnectedPotentialCandidates_spec E _ htrim.entries
    (unconnectedInv_empty E (hP.unconnected_eq.trans hempty))
  obtain ⟨added, hadded, -⟩ := hP.added
  -- the nodes `populate_chain` adds are new to a chain that holds every candidate pending availability
  have hnew : ∀ n ∈ added, fc.scope.getPendingAvailability n.candidateHash = none := by
    intro n hn
    have hnd := hP.chainWf.hashes
    rw [hadded, List.map_append, List.nodup_append] at hnd
    by_contra hne
    exact hnd.2.2 _ (mem_of_pending E hwf hin (Option.ne_none_iff_isSome.mp hne)) _ (List.mem_map_of_mem hn) rfl
  unfold FragmentChain.populateUnconnectedPotentialCandidates
  refine ⟨?_, ?_, ?_, ?_, hunc⟩
  · rw [hscope, hchain, hP.scope_eq]
    exact hP.chainWf
  · rw [hscope, hP.scope_eq]
    exact hcons
  · rw [hscope, hchain, hP.scope_eq, hadded]
    exact hfirst.append hnew
  · rw [hscope, hchain, hP.scope_eq]
    intro p hp
    rw [hP.chainWf.candidates, hadded, List.map_append]
    exact List.mem_append_left _ ((hwf.candidates _).mp (hin p hp))

theorem init_unconnected {scope : Scope D K} {storage : CandidateStorage D C} (hstorage : storage.Wf E)
    (hcons : scope.Consistent) : (FragmentChain.init E scope storage).unconnected = .empty := by
  have hP : Populated E (⟨scope, .empty, .empty⟩ : FragmentChain D K M C) storage _ _ :=
    populateChain_spec E (chainWf_empty E) hstorage hcons
  exact hP.unconnected_eq

/-- `init` on candidates pending availability that it all takes. -/
theorem Inv.init {scope : Scope D K} {storage : CandidateStorage D C} (hstorage : storage.Wf E)
    (hcons : scope.Consistent)
    (hpending : ∀ e ∈ storage.byCandidateHash, (scope.getPendingAvailability e.candidateHash).isSome)
    (hin : ∀ p ∈ scope.pendingAvailability, (FragmentChain.init E scope storage).bestChain.candidates p.candidateHash = true) :
    Inv E (FragmentChain.init E scope storage) := by
  have hP : Populated E (⟨scope, .empty, .empty⟩ : FragmentChain D K M C) storage _ _ :=
    populateChain_spec E (chainWf_empty E) hstorage hcons
  have hscope : (FragmentChain.init E scope storage).scope = scope := hP.scope_eq
  obtain ⟨added, hadded, hmem⟩ := hP.added
  have hchain : (FragmentChain.init E scope storage).bestChain.chain = added := hadded
  -- every node comes from the storage of candidates pending availability
  have hall : ∀ n ∈ added, (scope.getPendingAvailability n.candidateHash).isSome := by
    intro n hn
    obtain ⟨e, he, hhash⟩ := List.mem_map.mp (hmem n hn)
    rw [← hhash]
    exact hpending e he
  refine ⟨?_, ?_, ?_, ?_, unconnectedInv_empty E hP.unconnected_eq⟩
  · rw [hscope]
    exact hP.chainWf
  · rw [hscope]
    exact hcons
  · rw [hscope, hchain]
    exact List.pairwise_of_forall_mem_list fun a ha _ _ _ => hall a ha
  · rw [hscope]
    exact hin

/-- `populate_from_previous` right after `init`, whose unconnected storage is empty. -/
theorem Inv.populateFromPrevious {prev : FragmentChain D K M C} (hinv : Inv E fc) (hempty : fc.unconnected = .empty)
    (hprev : Inv E prev) : Inv E (fc.populateFromPrevious E prev) := by
  unfold FragmentChain.populateFromPrevious
  dsimp only
  refine Inv.rebuild E hinv.chainWf hinv.consistent hinv.pendingFirst hinv.pendingInChain hempty ?_ none
  -- the previous unconnected storage, with the previous chain's nodes out of pending availability
  refine CandidateStorage.Wf.foldl E _ _ (fun s hs n hn => ?_) hprev.unconnected.wf
  split_ifs
  · exact hs.addCandidateEntryOrKeep E (hprev.chainWf.nodes n hn).entry
  · exact hs

theorem Inv.tryAddingSecondedCandidate (hinv : Inv E fc) {e : CandidateEntry D C} (he : e.Wf E) :
    Inv E (fc.tryAddingSecondedCandidate E e).1 := by
  unfold FragmentChain.tryAddingSecondedCandidate
  split_ifs
  · exact hinv
  · split
    · exact hinv
    · rename_i u hadd
      split
      · exact hinv
      · rename_i s' hs'
        obtain ⟨hchain, -, hpot⟩ := FragmentChain.canAddCandidateAsPotential_ok E hadd
        -- every candidate pending availability is on the chain already, so this one is not pending
        have hnp : fc.scope.getPendingAvailability e.candidateHash = none := by
          by_contra hne
          have hmem := mem_of_pending E hinv.chainWf hinv.pendingInChain (Option.ne_none_iff_isSome.mp hne)
          rw [← hinv.chainWf.candidates, hchain] at hmem
          cases hmem
        have hsub : ∀ x ∈ s'.byCandidateHash, x = e ∨ x ∈ fc.unconnected.byCandidateHash := by
          rw [(CandidateStorage.addCandidateEntry_eq_ok hs').2]
          exact fun x hx => List.mem_cons.mp hx
        exact ⟨hinv.chainWf, hinv.consistent, hinv.pendingFirst, hinv.pendingInChain,
          hinv.unconnected.insert E (hinv.unconnected.wf.addCandidateEntry E he hs') hsub hnp hchain
            (FragmentChain.checkPotential_noPendingFork E hpot)⟩

omit [DecidableEq D] in
theorem Inv.markBacked (hinv : Inv E fc) (c : CandidateHash) :
    Inv E { fc with unconnected := fc.unconnected.markBacked c } := by
  refine ⟨hinv.chainWf, hinv.consistent, hinv.pendingFirst, hinv.pendingInChain,
    hinv.unconnected.wf.markBacked E c, fun x hx => ?_, fun x hx => ?_, fun x hx => ?_⟩ <;>
    obtain ⟨e, he, hhash, hparent⟩ := CandidateStorage.mem_markBacked hx
  · rw [hhash]
    exact hinv.unconnected.notPending e he
  · rw [hhash]
    exact hinv.unconnected.disjoint e he
  · rw [hparent]
    exact hinv.unconnected.noPendingFork e he

theorem Inv.candidateBacked (hinv : Inv E fc) (c : CandidateHash) : Inv E (fc.candidateBacked E c) := by
  unfold FragmentChain.candidateBacked
  split_ifs with hc
  · exact hinv
  · cases hget : fc.unconnected.get c with
    | none => exact hinv
    | some entry =>
      dsimp only
      have hentry : entry ∈ fc.unconnected.byCandidateHash :=
        ((CandidateStorage.get_eq_some_iff hinv.unconnected.wf.nodup).mp hget).1
      have hinv₁ := hinv.markBacked E c
      split
      · rename_i fc₂ hrev
        rw [FragmentChain.revertTo_false E hrev]
        exact hinv₁
      · rename_i fc₂ hrev
        obtain ⟨hscope, removed, hchain, hunc, hwf₂, hhead⟩ := FragmentChain.revertTo_spec E hinv₁.chainWf hrev
        have hchain : fc.bestChain.chain = fc₂.bestChain.chain ++ removed := hchain
        -- the nodes drained build on the parent of the candidate backed, no fork of a candidate pending
        -- availability, so none of them is pending availability
        have hdrained : ∀ y ∈ removed, fc.scope.getPendingAvailability y.candidateHash = none := by
          cases removed with
          | nil => intro y hy; cases hy
          | cons y rest =>
            have hy : y ∈ fc.bestChain.chain := by
              rw [hchain]
              exact List.mem_append_right _ List.mem_cons_self
            have hfork := hinv.unconnected.noPendingFork entry hentry y.candidateHash
              (by rw [← hhead y rfl]; exact hinv.chainWf.byParentHead_of_mem E hy)
            exact PendingFirst.not_pending_tail (hchain ▸ hinv.pendingFirst) hfork
        have hstorage : fc₂.unconnected.Wf E := by
          rw [hunc]
          refine CandidateStorage.Wf.foldl E _ _ (fun s hs n hn => ?_) hinv₁.unconnected.wf
          refine hs.addCandidateEntryOrKeep E (hinv.chainWf.nodes n ?_).entry
          rw [hchain]
          exact List.mem_append_right _ hn
        refine Inv.rebuild E ?_ ?_ ?_ ?_ rfl hstorage _
        · rw [hscope]
          exact hwf₂
        · rw [hscope]
          exact hinv.consistent
        · rw [hscope]
          exact PendingFirst.of_append (hchain ▸ hinv.pendingFirst)
        · -- every candidate pending availability stays, as none was drained
          rw [hscope]
          intro p hp
          have hmem := mem_of_pending E hinv.chainWf hinv.pendingInChain (Scope.getPendingAvailability_isSome hp)
          rw [hchain, List.map_append, List.mem_append] at hmem
          rcases hmem with hmem | hmem
          · exact (hwf₂.candidates _).mpr hmem
          · obtain ⟨y, hy, hyp⟩ := List.mem_map.mp hmem
            have hsome := Scope.getPendingAvailability_isSome hp
            rw [← hyp, hdrained y hy] at hsome
            cases hsome

end Operations

/-! ## The lifecycle -/

/-- What `init` is called with in `lib.rs`: a well formed storage of candidates pending availability of a consistent
scope, which form a chain with the latest included head, so that the chain takes all of them. -/
structure Admissible (scope : Scope D K) (storage : CandidateStorage D C) : Prop where
  storageWf : storage.Wf E
  consistent : scope.Consistent
  pending : ∀ e ∈ storage.byCandidateHash, (scope.getPendingAvailability e.candidateHash).isSome
  allInChain : ∀ p ∈ scope.pendingAvailability,
    (FragmentChain.init E scope storage).bestChain.candidates p.candidateHash = true

/-- The fragment chains of `lib.rs`: `init`, followed at once by `populate_from_previous` if the previous leaf has a
chain, then `try_adding_seconded_candidate` (of an entry `CandidateEntry::new` built) and `candidate_backed`. -/
inductive Reachable : FragmentChain D K M C → Prop
  | init {scope : Scope D K} {storage : CandidateStorage D C} :
      Admissible E scope storage → Reachable (FragmentChain.init E scope storage)
  | populateFromPrevious {scope : Scope D K} {storage : CandidateStorage D C} {prev : FragmentChain D K M C} :
      Admissible E scope storage → Reachable prev →
        Reachable ((FragmentChain.init E scope storage).populateFromPrevious E prev)
  | tryAddingSecondedCandidate {fc : FragmentChain D K M C} {e : CandidateEntry D C} :
      Reachable fc → e.Wf E → Reachable (fc.tryAddingSecondedCandidate E e).1
  | candidateBacked {fc : FragmentChain D K M C} (c : CandidateHash) :
      Reachable fc → Reachable (fc.candidateBacked E c)

theorem Admissible.inv {scope : Scope D K} {storage : CandidateStorage D C} (h : Admissible E scope storage) :
    Inv E (FragmentChain.init E scope storage) :=
  Inv.init E h.storageWf h.consistent h.pending h.allInChain

theorem reachable_inv {fc : FragmentChain D K M C} (h : Reachable E fc) : Inv E fc := by
  induction h with
  | init hadm => exact hadm.inv E
  | populateFromPrevious hadm _ ihprev =>
    exact (hadm.inv E).populateFromPrevious E (init_unconnected E hadm.storageWf hadm.consistent) ihprev
  | tryAddingSecondedCandidate _ he ih => exact ih.tryAddingSecondedCandidate E he
  | candidateBacked c _ ih => exact ih.candidateBacked E c

/-- An emulator over numbers as head data, each its own hash, that accepts every candidate. -/
def acceptingEmulator : Emulator Nat Unit Unit Unit :=
  ⟨id, fun _ => 0, (), fun _ _ => (), fun _ _ => some (), fun _ _ _ => some (), fun _ _ _ => true⟩

/-- A scope at relay parent `1` (number `10`), with no ancestors and nothing pending availability, required parent
`0` and room for one candidate. -/
def sampleScope : Scope Nat Unit :=
  ⟨⟨1, 10, 0⟩, [], [], ⟨0, 0, 0, ()⟩, 1⟩

/-- Candidate `7`, seconded, from head `0` to head `1` at relay parent `1`. -/
def sampleEntry : CandidateEntry Nat Unit :=
  ⟨7, 0, 1, 1, ⟨1, (), ⟨0, 10, 0, 0⟩⟩, .seconded⟩

theorem sampleEntry_wf : sampleEntry.Wf acceptingEmulator :=
  ⟨rfl, rfl, by decide⟩

theorem sampleScope_admissible :
    Admissible acceptingEmulator sampleScope (CandidateStorage.empty : CandidateStorage Nat Unit) := by
  refine ⟨CandidateStorage.wf_empty _, ?_, ?_, ?_⟩
  · intro p hp
    cases hp
  · intro e he
    cases he
  · intro p hp
    cases hp

/-- The chain with candidate `7` seconded. -/
def sampleChain : FragmentChain Nat Unit Unit Unit :=
  ((FragmentChain.init acceptingEmulator sampleScope .empty).tryAddingSecondedCandidate acceptingEmulator sampleEntry).1

/-- The chain with candidate `7` backed. -/
def sampleBacked : FragmentChain Nat Unit Unit Unit :=
  sampleChain.candidateBacked acceptingEmulator 7

theorem sampleChain_reachable : Reachable acceptingEmulator sampleChain :=
  .tryAddingSecondedCandidate (.init sampleScope_admissible) sampleEntry_wf

theorem sampleBacked_reachable : Reachable acceptingEmulator sampleBacked :=
  .candidateBacked 7 sampleChain_reachable

/-- Candidate `8`, backed, from head `5` to head `6` at relay parent `1`: it does not build on the required parent
`0`. -/
def unlinkedEntry : CandidateEntry Nat Unit :=
  ⟨8, 5, 6, 1, ⟨6, (), ⟨5, 10, 0, 0⟩⟩, .backed⟩

/-- The scope of `sampleScope` with candidate `8` pending availability at its relay parent. -/
def unlinkedScope : Scope Nat Unit :=
  ⟨⟨1, 10, 0⟩, [], [⟨8, ⟨1, 10, 0⟩⟩], ⟨0, 0, 0, ()⟩, 1⟩

/-- The storage of candidates pending availability that `lib.rs` builds for `unlinkedScope`. -/
def unlinkedStorage : CandidateStorage Nat Unit :=
  CandidateStorage.empty.addCandidateEntryOrKeep unlinkedEntry

end CoreChain.Prospective

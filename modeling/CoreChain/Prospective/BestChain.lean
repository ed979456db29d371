import CoreChain.Prospective.FragmentChain
import Mathlib

/-!
# The best chain stays a backable chain

`ChainWf` is what the fork-choice rule of `fragment_chain` asks of a best chain, with its indices: it starts at
the required parent of the base constraints and each candidate builds on the output of the one before; its head
hashes (the required parent, then each output) are distinct, as are its candidate hashes; its three indices are
exactly those of the list of nodes;
it is no longer than `max_backable_len`; each node keeps how it was added (`FragmentNode.Wf`: its relay parent is the
one the scope gives it, and its cumulative modifications end on its own head data); and relay-parent numbers do not
decrease along it.

`push` keeps it for a node that builds on the chain's next head and outputs a head new to it (`ChainWf.push`),
`revert_to_parent_hash` keeps it (`ChainWf.revertToParentHash`), and so `populate_chain` keeps it
(`ChainWf.populateChain`): every node it adds comes from the storage it is given, which it leaves well formed.
-/

namespace CoreChain.Prospective

variable {D K M C : Type} (E : Emulator D K M C)

/-- The head hashes along a chain: the required parent of the base constraints, then each candidate's output. -/
def chainHeads (scope : Scope D K) (chain : List (FragmentNode D K M C)) : List Hash :=
  E.headHash scope.baseConstraints.requiredParent :: chain.map (·.outputHeadDataHash)

/-- The head the next candidate of a chain builds on: the last output, or the required parent. -/
def nextHead (scope : Scope D K) (chain : List (FragmentNode D K M C)) : Hash :=
  (chain.getLast?.map (·.outputHeadDataHash)).getD (E.headHash scope.baseConstraints.requiredParent)

/-- What a node keeps of how `populate_chain` added it: it came from a well formed entry, its cumulative modifications
end on its head data, and its relay parent is the one the scope gives it (that of its pending availability, or the
scope's block). -/
structure FragmentNode.Wf (scope : Scope D K) (n : FragmentNode D K M C) : Prop where
  entry : n.toEntry.Wf E
  cumulative : n.cumulativeModifications.requiredParent = some n.fragment.candidate.headData
  relayParent : ((scope.getPendingAvailability n.candidateHash).map (·.relayParent)).or (scope.ancestor n.relayParent) =
    some n.fragment.relayParent

/-- A best chain with its indices. -/
structure ChainWf (scope : Scope D K) (bc : BackedChain D K M C) : Prop where
  first : ∀ n ∈ bc.chain.head?, n.parentHeadDataHash = E.headHash scope.baseConstraints.requiredParent
  linked : bc.chain.IsChain fun a b => b.parentHeadDataHash = a.outputHeadDataHash
  heads : (chainHeads E scope bc.chain).Nodup
  hashes : (bc.chain.map (·.candidateHash)).Nodup
  byParentHead : ∀ h, bc.byParentHead h = (bc.chain.find? (·.parentHeadDataHash = h)).map (·.candidateHash)
  byOutputHead : ∀ h, bc.byOutputHead h = (bc.chain.find? (·.outputHeadDataHash = h)).map (·.candidateHash)
  candidates : ∀ c, bc.candidates c = true ↔ c ∈ bc.chain.map (·.candidateHash)
  length : bc.chain.length ≤ scope.maxBackableLen
  nodes : ∀ n ∈ bc.chain, n.Wf E scope
  relayParentNumbers : (bc.chain.map (·.fragment.relayParent.number)).IsChain (· ≤ ·)

section Heads

/-- A chain that starts at `r` and links up has, as parents, its head hashes but the last. -/
theorem map_parent_append_nextHead {r : Hash} {chain : List (FragmentNode D K M C)}
    (hfirst : ∀ n ∈ chain.head?, n.parentHeadDataHash = r)
    (hlinked : chain.IsChain fun a b => b.parentHeadDataHash = a.outputHeadDataHash) :
    chain.map (·.parentHeadDataHash) ++ [(chain.getLast?.map (·.outputHeadDataHash)).getD r] =
      r :: chain.map (·.outputHeadDataHash) := by
  induction chain generalizing r with
  | nil => rfl
  | cons n rest ih =>
    obtain ⟨hnext, hrest⟩ := List.isChain_cons.mp hlinked
    have hn : n.parentHeadDataHash = r := hfirst n rfl
    have ih' := ih (fun m hm => hnext m hm) hrest
    cases rest with
    | nil => simp [hn]
    | cons m rest' =>
      -- past the first node, the default of the next head is never read
      have hsome := List.getLast?_eq_some_getLast (l := m :: rest') (List.cons_ne_nil _ _)
      simp only [List.map_cons, List.cons_append, List.getLast?_cons_cons, hsome, Option.map_some,
        Option.getD_some] at ih' ⊢
      rw [hn, ih']

theorem ChainWf.heads_eq {scope : Scope D K} {bc : BackedChain D K M C} (hwf : ChainWf E scope bc) :
    chainHeads E scope bc.chain = bc.chain.map (·.parentHeadDataHash) ++ [nextHead E scope bc.chain] :=
  (map_parent_append_nextHead hwf.first hwf.linked).symm

/-- The next head of a chain is not the parent of any of its candidates. -/
theorem ChainWf.nextHead_not_mem_parents {scope : Scope D K} {bc : BackedChain D K M C} (hwf : ChainWf E scope bc) :
    nextHead E scope bc.chain ∉ bc.chain.map (·.parentHeadDataHash) := by
  have hnodup := hwf.heads
  rw [hwf.heads_eq, List.nodup_append] at hnodup
  intro hmem
  exact hnodup.2.2 _ hmem _ (List.mem_singleton_self _) rfl

end Heads

/-! ## Pushing a node -/

section Push

/-- An index of a chain by a key, after a node with a new key is pushed and indexed. -/
theorem index_push {f : FragmentNode D K M C → Hash} {idx : Hash → Option CandidateHash}
    {chain : List (FragmentNode D K M C)} {n : FragmentNode D K M C}
    (hidx : ∀ h, idx h = (chain.find? (f · = h)).map (·.candidateHash)) (hnew : f n ∉ chain.map f) (h : Hash) :
    Function.update idx (f n) (some n.candidateHash) h = ((chain ++ [n]).find? (f · = h)).map (·.candidateHash) := by
  rw [List.find?_append]
  by_cases hh : h = f n
  · subst hh
    have hnone : chain.find? (f · = f n) = none := by
      rw [List.find?_eq_none]
      intro x hx hfx
      exact hnew (List.mem_map.mpr ⟨x, hx, of_decide_eq_true hfx⟩)
    simp [hnone]
  · rw [Function.update_of_ne hh, hidx h]
    have hn : [n].find? (f · = h) = none := by simp [Ne.symm hh]
    rw [hn, Option.or_none]

variable {scope : Scope D K} {bc : BackedChain D K M C} {n : FragmentNode D K M C}

theorem ChainWf.push (hwf : ChainWf E scope bc) (hparent : n.parentHeadDataHash = nextHead E scope bc.chain)
    (houtput : n.outputHeadDataHash ∉ chainHeads E scope bc.chain)
    (hhash : n.candidateHash ∉ bc.chain.map (·.candidateHash)) (hlen : bc.chain.length < scope.maxBackableLen)
    (hnode : n.Wf E scope)
    (hnumber : ∀ last ∈ bc.chain.getLast?, last.fragment.relayParent.number ≤ n.fragment.relayParent.number) :
    ChainWf E scope (bc.push n) := by
  have hout : n.outputHeadDataHash ∉ bc.chain.map (·.outputHeadDataHash) := fun h =>
    houtput (List.mem_cons_of_mem _ h)
  constructor
  · -- the first node is the old first one, or `n` on an empty chain
    intro m hm
    cases hchain : bc.chain with
    | nil =>
      simp only [BackedChain.push, hchain, List.nil_append, List.head?_cons, Option.mem_def,
        Option.some.injEq] at hm
      subst hm
      simpa [nextHead, hchain] using hparent
    | cons x xs =>
      simp only [BackedChain.push, hchain, List.cons_append, List.head?_cons] at hm
      exact hwf.first m (by simpa [hchain] using hm)
  · -- `n` links to the last node
    refine List.isChain_append.mpr ⟨hwf.linked, List.isChain_singleton _, ?_⟩
    intro x hx y hy
    simp only [List.head?_cons, Option.mem_def, Option.some.injEq] at hy
    subst hy
    simp [hparent, nextHead, Option.mem_def.mp hx]
  · simp only [BackedChain.push, chainHeads, List.map_append, List.map_singleton, ← List.cons_append]
    refine List.nodup_append.mpr ⟨hwf.heads, List.nodup_singleton _, fun a ha b hb hab => ?_⟩
    rw [List.mem_singleton] at hb
    subst hb hab
    exact houtput ha
  · simp only [BackedChain.push, List.map_append, List.map_singleton]
    refine List.nodup_append.mpr ⟨hwf.hashes, List.nodup_singleton _, fun a ha b hb hab => ?_⟩
    rw [List.mem_singleton] at hb
    subst hb hab
    exact hhash ha
  · have hnew : n.parentHeadDataHash ∉ bc.chain.map (·.parentHeadDataHash) := hparent ▸ hwf.nextHead_not_mem_parents E
    exact index_push (f := (·.parentHeadDataHash)) hwf.byParentHead hnew
  · exact index_push (f := (·.outputHeadDataHash)) hwf.byOutputHead hout
  · intro c
    by_cases hc : c = n.candidateHash
    · subst hc
      simp [BackedChain.push]
    · simp [BackedChain.push, hwf.candidates c, hc]
  · simp only [BackedChain.push, List.length_append, List.length_singleton]
    omega
  · intro m hm
    rcases List.mem_append.mp hm with hm | hm
    · exact hwf.nodes m hm
    · rw [List.mem_singleton.mp hm]
      exact hnode
  · simp only [BackedChain.push, List.map_append, List.map_singleton]
    refine List.isChain_append.mpr ⟨hwf.relayParentNumbers, List.isChain_singleton _, ?_⟩
    intro x hx y hy
    simp only [List.head?_cons, Option.mem_def, Option.some.injEq] at hy
    subst hy
    rw [List.getLast?_map] at hx
    obtain ⟨last, hlast, rfl⟩ := Option.map_eq_some_iff.mp hx
    exact hnumber last hlast

end Push

/-! ## Reverting to a head -/

section Revert

namespace BackedChain

/-- Removing the indices of a list of nodes. -/
theorem foldl_removeIndices (l : List (FragmentNode D K M C)) (bc : BackedChain D K M C) (h : Hash)
    (c : CandidateHash) :
    (l.foldl removeIndices bc).byParentHead h =
        (if h ∈ l.map (·.parentHeadDataHash) then none else bc.byParentHead h) ∧
      (l.foldl removeIndices bc).byOutputHead h =
        (if h ∈ l.map (·.outputHeadDataHash) then none else bc.byOutputHead h) ∧
      (l.foldl removeIndices bc).candidates c = (if c ∈ l.map (·.candidateHash) then false else bc.candidates c) := by
  induction l generalizing bc with
  | nil => simp
  | cons n rest ih =>
    obtain ⟨hp, ho, hc⟩ := ih (bc.removeIndices n)
    simp only [List.foldl_cons, hp, ho, hc, List.map_cons, List.mem_cons]
    -- each index: removed by a later node, by `n`, or left as it was
    refine ⟨?_, ?_, ?_⟩
    · by_cases hr : h ∈ rest.map (·.parentHeadDataHash)
      · simp [hr]
      · by_cases hn : h = n.parentHeadDataHash
        · simp [hn, removeIndices]
        · simp [hr, hn, removeIndices]
    · by_cases hr : h ∈ rest.map (·.outputHeadDataHash)
      · simp [hr]
      · by_cases hn : h = n.outputHeadDataHash
        · simp [hn, removeIndices]
        · simp [hr, hn, removeIndices]
    · by_cases hr : c ∈ rest.map (·.candidateHash)
      · simp [hr]
      · by_cases hn : c = n.candidateHash
        · simp [hn, removeIndices]
        · simp [hr, hn, removeIndices]

/-- The loop of `revert_to_parent_hash` once the node is found removes the indices of every node it passes. -/
theorem revertScan_some (p : Hash) (j : Nat) (l : List (FragmentNode D K M C)) :
    ∀ (i : Nat) (bc : BackedChain D K M C), revertScan p (some j) i l bc = (some j, l.foldl removeIndices bc) := by
  induction l with
  | nil => intro i bc; rfl
  | cons n rest ih =>
    intro i bc
    simp only [revertScan, List.foldl_cons]
    exact ih (i + 1) (bc.removeIndices n)

/-- The loop of `revert_to_parent_hash` finds the first node outputting the head, and removes the indices of the
nodes after it. -/
theorem revertScan_split {p : Hash} {pre post : List (FragmentNode D K M C)} {x : FragmentNode D K M C}
    (hx : x.outputHeadDataHash = p) (hpre : ∀ y ∈ pre, y.outputHeadDataHash ≠ p) :
    ∀ (i : Nat) (bc : BackedChain D K M C),
      revertScan p none i (pre ++ x :: post) bc = (some (i + pre.length), post.foldl removeIndices bc) := by
  induction pre with
  | nil =>
    intro i bc
    simp [revertScan, hx, revertScan_some]
  | cons y ys ih =>
    intro i bc
    have hy : y.outputHeadDataHash ≠ p := hpre y List.mem_cons_self
    simp only [List.cons_append, revertScan, hy, if_false]
    rw [ih (fun z hz => hpre z (List.mem_cons_of_mem _ hz)) (i + 1) bc]
    simp [Nat.add_assoc, Nat.add_comm 1]

theorem revertToParentHash_eq {bc : BackedChain D K M C} {p : Hash} {pre post : List (FragmentNode D K M C)}
    {x : FragmentNode D K M C} (hchain : bc.chain = pre ++ x :: post) (hx : x.outputHeadDataHash = p)
    (hpre : ∀ y ∈ pre, y.outputHeadDataHash ≠ p) :
    bc.revertToParentHash p = ({ post.foldl removeIndices bc with chain := pre ++ [x] }, post) := by
  unfold revertToParentHash
  rw [hchain, revertScan_split hx hpre 0 bc]
  have hmin : min (0 + pre.length + 1) (pre ++ x :: post).length = (pre ++ [x]).length := by
    simp
  have hsplit : pre ++ x :: post = (pre ++ [x]) ++ post := by simp
  simp only [hmin]
  rw [hsplit, List.take_left, List.drop_left]

end BackedChain

/-- An index of a chain by a key with distinct values, once the keys of a suffix are removed, is the index of the
prefix. -/
theorem index_prefix {f : FragmentNode D K M C → Hash} {idx : Hash → Option CandidateHash}
    {pre post : List (FragmentNode D K M C)}
    (hidx : ∀ h, idx h = ((pre ++ post).find? (f · = h)).map (·.candidateHash)) (hnodup : ((pre ++ post).map f).Nodup)
    (h : Hash) : (if h ∈ post.map f then none else idx h) = (pre.find? (f · = h)).map (·.candidateHash) := by
  rw [List.map_append, List.nodup_append] at hnodup
  split_ifs with hh
  · -- the key is one of the suffix, so none of the prefix
    have hnone : pre.find? (f · = h) = none := by
      rw [List.find?_eq_none]
      intro y hy hfy
      exact hnodup.2.2 _ (List.mem_map_of_mem hy) _ hh (of_decide_eq_true hfy)
    rw [hnone, Option.map_none]
  · have hnone : post.find? (f · = h) = none := by
      rw [List.find?_eq_none]
      intro y hy hfy
      exact hh (List.mem_map.mpr ⟨y, hy, of_decide_eq_true hfy⟩)
    rw [hidx h, List.find?_append, hnone, Option.or_none]

variable {scope : Scope D K} {bc : BackedChain D K M C}

theorem ChainWf.parents_nodup (hwf : ChainWf E scope bc) : (bc.chain.map (·.parentHeadDataHash)).Nodup := by
  have h := hwf.heads
  rw [hwf.heads_eq E] at h
  exact (List.nodup_append.mp h).1

theorem ChainWf.outputs_nodup (hwf : ChainWf E scope bc) : (bc.chain.map (·.outputHeadDataHash)).Nodup :=
  (List.nodup_cons.mp hwf.heads).2

/-- Keeping a prefix of the chain and removing the indices of the rest keeps the chain well formed. -/
theorem ChainWf.dropIndices (hwf : ChainWf E scope bc) {pre post : List (FragmentNode D K M C)}
    (hchain : bc.chain = pre ++ post) :
    ChainWf E scope { post.foldl BackedChain.removeIndices bc with chain := pre } := by
  have hpfx : pre <+: bc.chain := hchain ▸ List.prefix_append pre post
  constructor
  · intro n hn
    refine hwf.first n ?_
    rw [hchain, List.head?_append]
    simp [Option.mem_def.mp hn]
  · exact hwf.linked.prefix hpfx
  · exact hwf.heads.sublist ((hpfx.map _).sublist.cons_cons _)
  · exact hwf.hashes.sublist (hpfx.map _).sublist
  · intro h
    rw [(BackedChain.foldl_removeIndices post bc h 0).1]
    have hp := hwf.byParentHead
    have hnd := hwf.parents_nodup E
    rw [hchain] at hp hnd
    exact index_prefix hp hnd h
  · intro h
    rw [(BackedChain.foldl_removeIndices post bc h 0).2.1]
    have ho := hwf.byOutputHead
    have hnd := hwf.outputs_nodup E
    rw [hchain] at ho hnd
    exact index_prefix ho hnd h
  · intro c
    have hnd := hwf.hashes
    rw [hchain, List.map_append, List.nodup_append] at hnd
    rw [(BackedChain.foldl_removeIndices post bc 0 c).2.2]
    dsimp only
    split_ifs with hc
    · simp only [false_iff]
      exact fun hpre => hnd.2.2 _ hpre _ hc rfl
    · rw [hwf.candidates c, hchain, List.map_append, List.mem_append]
      simp [hc]
  · exact le_trans hpfx.length_le hwf.length
  · exact fun n hn => hwf.nodes n (hpfx.subset hn)
  · exact hwf.relayParentNumbers.prefix (hpfx.map _)

theorem chainWf_empty : ChainWf E scope (BackedChain.empty : BackedChain D K M C) := by
  constructor <;> simp [BackedChain.empty, chainHeads]

/-- `revert_to_parent_hash` at a head the chain outputs keeps the chain up to the node outputting it, well formed,
and drains the rest. -/
theorem ChainWf.revertToParentHash (hwf : ChainWf E scope bc) {p : Hash} (hp : (bc.byOutputHead p).isSome) :
    ∃ pre x post, bc.chain = pre ++ x :: post ∧ x.outputHeadDataHash = p ∧
      (bc.revertToParentHash p).1.chain = pre ++ [x] ∧ (bc.revertToParentHash p).2 = post ∧
      ChainWf E scope (bc.revertToParentHash p).1 := by
  rw [hwf.byOutputHead p, Option.isSome_map] at hp
  obtain ⟨x, hx⟩ := Option.isSome_iff_exists.mp hp
  obtain ⟨hxp, pre, post, hchain, hpre⟩ := List.find?_eq_some_iff_append.mp hx
  have hxp : x.outputHeadDataHash = p := by simpa using hxp
  have hpre : ∀ y ∈ pre, y.outputHeadDataHash ≠ p := fun y hy => by simpa using hpre y hy
  rw [BackedChain.revertToParentHash_eq hchain hxp hpre]
  refine ⟨pre, x, post, hchain, hxp, rfl, rfl, ?_⟩
  exact hwf.dropIndices E (by rw [hchain]; simp)

end Revert

/-! ## Populating the chain -/

section Populate

theorem minBy_mem {α : Type} {cmp : α → α → Ordering} {l : List α} {x : α} (h : minBy cmp l = some x) : x ∈ l := by
  cases l with
  | nil => cases h
  | cons y ys =>
    simp only [minBy, Option.some.injEq] at h
    subst h
    -- the fold keeps one of the elements it has seen
    have hkeep : ∀ (zs : List α) (a : α), zs.foldl (fun a b => if cmp a b = .gt then b else a) a ∈ a :: zs := by
      intro zs
      induction zs with
      | nil => intro a; simp
      | cons z zs ih =>
        intro a
        simp only [List.foldl_cons]
        split_ifs
        · exact List.mem_cons_of_mem _ (ih z)
        · rcases List.mem_cons.mp (ih a) with h | h
          · rw [h]
            exact List.mem_cons_self
          · exact List.mem_cons_of_mem _ (List.mem_cons_of_mem _ h)
    exact hkeep ys y

/-- The state of the loop of `populate_chain`: a well formed chain and storage, the cumulative modifications of the
last node, and the relay parent of the last node. -/
structure PopulateInv (fc : FragmentChain D K M C) (storage : CandidateStorage D C)
    (cumulative : ConstraintModifications D M) (earliestRp : RelayChainBlockInfo) : Prop where
  chainWf : ChainWf E fc.scope fc.bestChain
  storageWf : storage.Wf E
  cumulative : cumulative =
    (fc.bestChain.chain.getLast?.map (·.cumulativeModifications)).getD (ConstraintModifications.identity E)
  earliestRp : ∀ last ∈ fc.bestChain.chain.getLast?, earliestRp.number = last.fragment.relayParent.number

/-- What a run of `populate_chain` did: it appended nodes of candidates of the storage to a chain it kept well
formed, and left a well formed part of the storage. -/
structure Populated (fc : FragmentChain D K M C) (storage : CandidateStorage D C) (fc' : FragmentChain D K M C)
    (storage' : CandidateStorage D C) : Prop where
  scope_eq : fc'.scope = fc.scope
  unconnected_eq : fc'.unconnected = fc.unconnected
  chainWf : ChainWf E fc.scope fc'.bestChain
  storageWf : storage'.Wf E
  added : ∃ added, fc'.bestChain.chain = fc.bestChain.chain ++ added ∧
    ∀ n ∈ added, n.candidateHash ∈ storage.byCandidateHash.map (·.candidateHash)
  sub : ∀ e ∈ storage'.byCandidateHash, e ∈ storage.byCandidateHash

theorem Populated.refl {fc : FragmentChain D K M C} {storage : CandidateStorage D C}
    (hchain : ChainWf E fc.scope fc.bestChain) (hstorage : storage.Wf E) : Populated E fc storage fc storage :=
  ⟨rfl, rfl, hchain, hstorage, ⟨[], by simp, by simp⟩, fun _ he => he⟩

theorem Populated.trans {fc₁ fc₂ fc₃ : FragmentChain D K M C} {s₁ s₂ s₃ : CandidateStorage D C}
    (h₁ : Populated E fc₁ s₁ fc₂ s₂) (h₂ : Populated E fc₂ s₂ fc₃ s₃) : Populated E fc₁ s₁ fc₃ s₃ := by
  obtain ⟨a₁, hc₁, hm₁⟩ := h₁.added
  obtain ⟨a₂, hc₂, hm₂⟩ := h₂.added
  refine ⟨h₂.scope_eq.trans h₁.scope_eq, h₂.unconnected_eq.trans h₁.unconnected_eq, h₁.scope_eq ▸ h₂.chainWf,
    h₂.storageWf,
    ⟨a₁ ++ a₂, by rw [hc₂, hc₁, List.append_assoc], ?_⟩, fun e he => h₁.sub e (h₂.sub e he)⟩
  intro n hn
  rcases List.mem_append.mp hn with hn | hn
  · exact hm₁ n hn
  · obtain ⟨e, he, hhash⟩ := List.mem_map.mp (hm₂ n hn)
    exact hhash ▸ List.mem_map_of_mem (h₁.sub e he)

/-- A key an exact index does not hold is no node's. -/
theorem not_mem_of_index_none {f : FragmentNode D K M C → Hash} {idx : Hash → Option CandidateHash}
    {chain : List (FragmentNode D K M C)} (hidx : ∀ h, idx h = (chain.find? (f · = h)).map (·.candidateHash))
    {h : Hash} (hnone : idx h = none) : h ∉ chain.map f := by
  rw [hidx h, Option.map_eq_none_iff, List.find?_eq_none] at hnone
  intro hmem
  obtain ⟨n, hn, rfl⟩ := List.mem_map.mp hmem
  exact hnone n hn (by simp)

namespace FragmentChain

variable {fc : FragmentChain D K M C}

/-- On a chain that is not empty, the least relay-parent number is the earliest one. -/
theorem minRelayParentNumber_of_ne_nil (hne : fc.bestChain.chain ≠ []) (pending : Option PendingAvailability)
    (earliestRp : RelayChainBlockInfo) : fc.minRelayParentNumber pending earliestRp = earliestRp.number := by
  have hlen : fc.bestChain.chain.length ≠ 0 := fun h0 => hne (List.eq_nil_of_length_eq_zero h0)
  cases pending with
  | none => rfl
  | some p => simp [minRelayParentNumber, hlen]

/-- What `check_cycles_or_invalid_tree` accepts: a head that is neither a parent nor an output of the chain. -/
theorem checkCyclesOrInvalidTree_ok {h : Hash} {u : Unit} (hok : fc.checkCyclesOrInvalidTree h = .ok u) :
    fc.bestChain.byParentHead h = none ∧ fc.bestChain.byOutputHead h = none := by
  unfold checkCyclesOrInvalidTree at hok
  split_ifs at hok with hp ho
  exact ⟨Option.not_isSome_iff_eq_none.mp hp, Option.not_isSome_iff_eq_none.mp ho⟩

variable [DecidableEq D]

/-- What `populate_chain` checks of a candidate before it makes it a fragment. -/
theorem candidateFragment_spec {cc : Constraints D K} {earliestRp : RelayChainBlockInfo} {e : CandidateEntry D C}
    {f : Fragment D K M C} {hash : CandidateHash} {out par : Hash}
    (h : fc.candidateFragment E cc earliestRp e = some (f, hash, out, par)) :
    hash = e.candidateHash ∧ out = e.outputHeadDataHash ∧ par = e.parentHeadDataHash ∧
      ((fc.scope.getPendingAvailability e.candidateHash).map (·.relayParent)).or (fc.scope.ancestor e.relayParent) =
        some f.relayParent ∧
      fc.checkCyclesOrInvalidTree e.outputHeadDataHash = .ok () ∧ fc.bestChain.contains e.candidateHash = false ∧
      (fc.bestChain.chain ≠ [] → earliestRp.number ≤ f.relayParent.number) ∧
      f.candidate = e.candidate ∧ f.modifications.requiredParent = some e.candidate.headData := by
  unfold candidateFragment at h
  dsimp only at h
  cases hrp : ((fc.scope.getPendingAvailability e.candidateHash).map (·.relayParent)).or
      (fc.scope.ancestor e.relayParent) with
  | none => simp [hrp] at h
  | some relayParent =>
    rw [hrp] at h
    cases hcycles : fc.checkCyclesOrInvalidTree e.outputHeadDataHash with
    | error => simp [hcycles] at h
    | ok u =>
      simp only [hcycles] at h
      split_ifs at h with hlt hcontains
      obtain ⟨f', hf', heq⟩ := Option.map_eq_some_iff.mp h
      simp only [Prod.mk.injEq] at heq
      obtain ⟨rfl, rfl, rfl, rfl⟩ := heq
      obtain ⟨hfrp, hfcand, hfmod⟩ := Fragment.new_spec E hf'
      refine ⟨rfl, rfl, rfl, hfrp ▸ rfl, rfl, by simpa using hcontains, fun hne => ?_, hfcand, hfmod⟩
      rw [hfrp, ← minRelayParentNumber_of_ne_nil hne]
      exact Nat.le_of_not_lt hlt

end FragmentChain

variable {fc : FragmentChain D K M C} {storage : CandidateStorage D C} {cumulative : ConstraintModifications D M}
  {earliestRp : RelayChainBlockInfo}

/-- The next candidate builds on the chain's next head. -/
theorem PopulateInv.requiredHead (hinv : PopulateInv E fc storage cumulative earliestRp) {cc : Constraints D K}
    (hcc : fc.scope.baseConstraints.applyModifications E cumulative = some cc) :
    E.headHash cc.requiredParent = nextHead E fc.scope fc.bestChain.chain := by
  rw [requiredParent_applyModifications E hcc, hinv.cumulative]
  cases hlast : fc.bestChain.chain.getLast? with
  | none => simp [nextHead, hlast, requiredParent_identity]
  | some last =>
    have hnode := hinv.chainWf.nodes last (List.mem_of_getLast? hlast)
    simp only [nextHead, hlast, Option.map_some, Option.getD_some, hnode.cumulative]
    exact hnode.entry.output.symm

variable [DecidableEq D]

/-- One node pushed by `populate_chain` keeps the loop's state, and is a run of it. -/
theorem PopulateInv.push (hinv : PopulateInv E fc storage cumulative earliestRp)
    (hlen : fc.bestChain.chain.length < fc.scope.maxBackableLen) {cc : Constraints D K}
    (hcc : fc.scope.baseConstraints.applyModifications E cumulative = some cc) {f : Fragment D K M C}
    {hash : CandidateHash} {out par : Hash}
    (hmem : (f, hash, out, par) ∈ (storage.possibleBackedParaChildren (E.headHash cc.requiredParent)).filterMap
      (fc.candidateFragment E cc earliestRp)) :
    PopulateInv E { fc with bestChain := (fc.bestChain.push
        ⟨f, hash, ConstraintModifications.stack E cumulative f.modifications, par, out⟩) }
      (storage.removeCandidate hash) (ConstraintModifications.stack E cumulative f.modifications) f.relayParent ∧
    Populated E fc storage { fc with bestChain := (fc.bestChain.push
        ⟨f, hash, ConstraintModifications.stack E cumulative f.modifications, par, out⟩) }
      (storage.removeCandidate hash) := by
  obtain ⟨e, he, hfrag⟩ := List.mem_filterMap.mp hmem
  obtain ⟨hestore, hepar, -⟩ := hinv.storageWf.mem_possibleBackedParaChildren E he
  obtain ⟨rfl, rfl, rfl, hrp, hcycles, hcontains, hnumber, hcand, hmod⟩ := FragmentChain.candidateFragment_spec E hfrag
  have hewf := hinv.storageWf.entries e hestore
  have hwf := hinv.chainWf
  have hparent : e.parentHeadDataHash = nextHead E fc.scope fc.bestChain.chain := hepar.trans (hinv.requiredHead E hcc)
  -- the new output is no head of the chain: not a parent, by the cycle check, and not the next head, its parent
  have houtput : e.outputHeadDataHash ∉ chainHeads E fc.scope fc.bestChain.chain := by
    obtain ⟨hnp, -⟩ := FragmentChain.checkCyclesOrInvalidTree_ok hcycles
    rw [hwf.heads_eq E, List.mem_append, List.mem_singleton, not_or]
    exact ⟨not_mem_of_index_none hwf.byParentHead hnp, fun h => hewf.ne (hparent.trans h.symm)⟩
  have hhash : e.candidateHash ∉ fc.bestChain.chain.map (·.candidateHash) := by
    rw [← hwf.candidates]
    simpa [BackedChain.contains] using hcontains
  have hnode : FragmentNode.Wf E fc.scope
      ⟨f, e.candidateHash, ConstraintModifications.stack E cumulative f.modifications, e.parentHeadDataHash,
        e.outputHeadDataHash⟩ := by
    refine ⟨⟨?_, ?_, hewf.ne⟩, ?_, ?_⟩
    · simp only [FragmentNode.toEntry_parentHeadDataHash, FragmentNode.toEntry_candidate, hcand]
      exact hewf.parent
    · simp only [FragmentNode.toEntry_outputHeadDataHash, FragmentNode.toEntry_candidate, hcand]
      exact hewf.output
    · show (ConstraintModifications.stack E cumulative f.modifications).requiredParent = some f.candidate.headData
      rw [hcand]
      exact requiredParent_stack E hmod
    · show _ = some f.relayParent
      cases hp : fc.scope.getPendingAvailability e.candidateHash with
      | some p => simpa [hp] using hrp
      | none =>
        simp only [hp, Option.map_none, Option.none_or] at hrp ⊢
        simp only [FragmentNode.relayParent, Scope.hash_of_ancestor hrp, hrp]
  have hnum : ∀ last ∈ fc.bestChain.chain.getLast?, last.fragment.relayParent.number ≤ f.relayParent.number := by
    intro last hlast
    rw [← hinv.earliestRp last hlast]
    exact hnumber (fun hnil => by simp [hnil] at hlast)
  have hchain' := hwf.push E hparent houtput hhash hlen hnode hnum
  refine ⟨⟨hchain', hinv.storageWf.removeCandidate E _, ?_, ?_⟩,
    ⟨rfl, rfl, hchain', hinv.storageWf.removeCandidate E _, ⟨[_], rfl, ?_⟩, fun x hx => CandidateStorage.mem_removeCandidate hx⟩⟩
  · simp [BackedChain.push]
  · intro last hlast
    simp only [BackedChain.push, List.getLast?_append, List.getLast?_singleton, Option.some_or,
      Option.mem_def, Option.some.injEq] at hlast
    rw [← hlast]
  · intro n hn
    rw [List.mem_singleton.mp hn]
    exact List.mem_map_of_mem hestore

/-- The loop of `populate_chain`, from any state that keeps its invariant. -/
theorem populateLoop_spec (fuel : Nat) :
    ∀ {fc : FragmentChain D K M C} {storage : CandidateStorage D C} {cumulative : ConstraintModifications D M}
      {earliestRp : RelayChainBlockInfo}, PopulateInv E fc storage cumulative earliestRp →
      Populated E fc storage (FragmentChain.populateLoop E fuel fc storage cumulative earliestRp).1
        (FragmentChain.populateLoop E fuel fc storage cumulative earliestRp).2 := by
  induction fuel with
  | zero => intro fc storage cumulative earliestRp hinv; exact Populated.refl E hinv.chainWf hinv.storageWf
  | succ fuel ih =>
    intro fc storage cumulative earliestRp hinv
    have hrefl := Populated.refl E hinv.chainWf hinv.storageWf
    simp only [FragmentChain.populateLoop]
    split_ifs with hfull
    · exact hrefl
    · split
      · exact hrefl
      · rename_i cc hcc
        split
        · exact hrefl
        · rename_i x f hash out par hx
          obtain ⟨hinv', hpop⟩ := hinv.push E (by omega) hcc (minBy_mem hx)
          exact hpop.trans E (ih hinv')

omit [DecidableEq D] in
/-- Under a consistent scope, the earliest relay parent of a chain has the number of its last node's relay parent. -/
theorem earliestRelayParent_number (hwf : ChainWf E fc.scope fc.bestChain) (hcons : fc.scope.Consistent)
    {erp : RelayChainBlockInfo} (h : fc.earliestRelayParent = some erp) :
    ∀ last ∈ fc.bestChain.chain.getLast?, erp.number = last.fragment.relayParent.number := by
  intro last hlast
  rw [Option.mem_def] at hlast
  simp only [FragmentChain.earliestRelayParent, hlast] at h
  have hrp := (hwf.nodes last (List.mem_of_getLast? hlast)).relayParent
  cases hp : fc.scope.getPendingAvailability last.candidateHash with
  | none =>
    -- out of pending availability, the node's relay parent is the scope's block
    simp only [hp, Option.map_none, Option.none_or, Option.or_none] at hrp h
    rw [hrp] at h
    cases h
    rfl
  | some p =>
    simp only [hp, Option.map_some, Option.some_or, Option.some.injEq] at hrp h
    cases ha : fc.scope.ancestor last.relayParent with
    | none =>
      rw [ha, Option.none_or, Option.some.injEq] at h
      rw [← h, hrp]
    | some info =>
      -- a block of the scope with the hash of a pending relay parent has its number
      rw [ha, Option.some_or, Option.some.injEq] at h
      subst h
      have hmem := (Scope.mem_of_getPendingAvailability hp).1
      rw [← hrp]
      exact hcons p hmem info (by rw [← ha, FragmentNode.relayParent, ← hrp])

/-- `populate_chain` from a well formed chain and storage, in a consistent scope. -/
theorem populateChain_spec (hwf : ChainWf E fc.scope fc.bestChain) (hstorage : storage.Wf E)
    (hcons : fc.scope.Consistent) :
    Populated E fc storage (fc.populateChain E storage).1 (fc.populateChain E storage).2 := by
  cases herp : fc.earliestRelayParent with
  | none =>
    simp only [FragmentChain.populateChain, herp]
    exact Populated.refl E hwf hstorage
  | some erp =>
    simp only [FragmentChain.populateChain, herp]
    refine populateLoop_spec E _ ⟨hwf, hstorage, ?_, earliestRelayParent_number E hwf hcons herp⟩
    cases fc.bestChain.chain.getLast? <;> rfl

end Populate

end CoreChain.Prospective

import CoreChain.ForkTree.Find
import CoreChain.ForkTree.Levels
import CoreChain.ForkTree.Finality

/-!
# Fork trees: what `prune` keeps

`prune` re-roots the tree at the node `find_node_index_where` finds and keeps below it exactly the nodes on the
target's branch (`onBranch`): those between the new root and the target, the target, and the nodes below it. In a
good tree numbered by heights, for a target at its height:

- the tree mirrors the block tree, so every node at or below the new root in the block tree is in its subtree
  (`ForestGood.mem_subtrees_of_below`);
- the walk below the new root keeps the one child above the target, whose siblings lie on other branches, and at
  the end the children at or below the target; so the nodes it keeps are those of the subtree on the target's
  branch, and those it removes are the others (`pruneNode_items`);
- detaching the new root splits the forest's items (`detachPath_items`), and rebalancing reorders them
  (`forestItems_rebalance`), so nothing is lost or duplicated.

Without heights, or with siblings on one branch, `prune` removes nodes of the branch (`prune_drops_branch_node`).
-/

namespace CoreChain.Fork

open Node TreeOrder

variable {H N V : Type _}

/-! ## Items -/

theorem forestItems_singleton (n : Node H N V) :
    forestItems [n] = (n.hash, n.number, n.data) :: forestItems n.children := by
  simp [forestItems, subtrees_eq n]

theorem forestItems_eq_map (n : Node H N V) : forestItems [n] = n.subtrees.map (fun m => (m.hash, m.number, m.data)) := by
  simp [forestItems]

theorem forestItems_rebalance (n : Node H N V) : (forestItems [n.rebalance]).Perm (forestItems [n]) := by
  induction n using Node.ind with
  | h h num d cs ih =>
    -- the children are rebalanced one by one, then sorted
    have hcs : ∀ ds, (∀ c ∈ ds, c ∈ cs) → (forestItems (ds.map rebalance)).Perm (forestItems ds) := by
      intro ds hds
      induction ds with
      | nil => exact List.Perm.refl _
      | cons c ds ihd =>
        rw [List.map_cons, ← List.singleton_append, ← List.singleton_append (l := ds), forestItems_append,
          forestItems_append]
        exact (ih c (hds c List.mem_cons_self)).append (ihd (fun c' h' => hds c' (List.mem_cons_of_mem _ h')))
    rw [rebalance_mk, forestItems_singleton, forestItems_singleton]
    exact ((forestItems_perm (List.mergeSort_perm _ _)).trans (hcs cs (fun _ h => h))).cons _

/-! ## The tree mirrors the block tree -/

section Shape

variable [LinearOrder N] {T : TreeOrder H N} {ok : H → N → Prop}

/-- In a good subtree, a node at or above another in the block tree is above it in the tree. -/
theorem Node.Good.mem_subtrees_of_below {n : Node H N V} (hg : n.Good T ok) :
    ∀ {A B : Node H N V}, A ∈ n.subtrees → B ∈ n.subtrees → T.Below A.hash B.hash → B ∈ A.subtrees := by
  induction hg with
  | @mk h num d cs hok he hg hp ih =>
    intro A B hA hB hAB
    have hB' := hB
    rw [subtrees_mk, List.mem_cons, mem_forestSubtrees] at hA hB
    rcases hA with rfl | ⟨c, hc, hA⟩
    · exact hB'
    · have hcA : T.Below c.hash A.hash := ((hg c hc).below_of_mem A hA).1
      rcases hB with rfl | ⟨c', hc', hB⟩
      · -- the node itself would lie below its own descendant `A`
        have hd : T.desc h A.hash := T.desc_of_desc_of_below (he c hc).2 hcA
        exact absurd (desc_of_below_of_desc hAB hd) (T.not_desc_self _)
      · by_cases hcc : c = c'
        · subst hcc
          exact ih c hc hA hB hAB
        · -- `B` would lie below two siblings on different branches
          have hu := ForestGood.unrelated_of_ne (⟨hg, hp⟩ : ForestGood T ok cs) hc hc' hcc
          exact absurd rfl (hu.below (hcA.trans hAB) ((hg c' hc').below_of_mem B hB).1).1

/-- In a good forest, a node at or above another in the block tree is above it in the forest. -/
theorem ForestGood.mem_subtrees_of_below {roots : List (Node H N V)} (hf : ForestGood T ok roots)
    {A B : Node H N V} (hA : A ∈ forestSubtrees roots) (hB : B ∈ forestSubtrees roots)
    (hAB : T.Below A.hash B.hash) : B ∈ A.subtrees := by
  obtain ⟨r, hr, hA⟩ := mem_forestSubtrees.mp hA
  obtain ⟨r', hr', hB⟩ := mem_forestSubtrees.mp hB
  by_cases hrr : r = r'
  · subst hrr
    exact (hf.1 r hr).mem_subtrees_of_below hA hB hAB
  · have hu := hf.unrelated_of_ne hr hr' hrr
    exact absurd rfl (hu.below (((hf.1 r hr).below_of_mem A hA).1.trans hAB) ((hf.1 r' hr').below_of_mem B hB).1).1

end Shape

/-! ## The target's branch -/

/-- Where each subtree of a list is wholly in or wholly out, filtering the list's nodes filters the list. -/
theorem filter_forestSubtrees {p q : Node H N V → Bool} {cs : List (Node H N V)}
    (h : ∀ c ∈ cs, ∀ m ∈ c.subtrees, p m = q c) : (forestSubtrees cs).filter p = forestSubtrees (cs.filter q) := by
  induction cs with
  | nil => rfl
  | cons c cs ih =>
    have hc := h c List.mem_cons_self
    rw [forestSubtrees_cons, List.filter_append, ih (fun c' h' => h c' (List.mem_cons_of_mem _ h')), List.filter_cons]
    by_cases hq : q c = true
    · rw [if_pos hq, forestSubtrees_cons, List.filter_eq_self.mpr (fun m hm => (hc m hm).trans hq)]
    · rw [if_neg hq, List.filter_eq_nil_iff.mpr (fun m hm e => hq ((hc m hm).symm.trans e)), List.nil_append]

section Branch

variable [DecidableEq H] [LinearOrder N] (T : TreeOrder H N) (hash : H)

/-- A node on the target's branch: the target, above it, or below it. -/
def onBranch (m : Node H N V) : Bool := m.hash == hash || T.desc m.hash hash || T.desc hash m.hash

/-- The nodes `prune` is to keep below its new root `P`: `P` itself, the nodes on the chain from `P` to the target,
the target, and the nodes below it. -/
def PruneRole (P m : Node H N V) : Prop :=
  m.hash = P.hash ∨ (T.desc P.hash m.hash ∧ T.desc m.hash hash) ∨ m.hash = hash ∨ T.desc hash m.hash

variable {T hash} {ok : H → N → Prop}

theorem onBranch_iff {m : Node H N V} : onBranch T hash m = true ↔ T.Below m.hash hash ∨ T.desc hash m.hash := by
  simp [onBranch, Below, or_assoc]

/-- Everything below a node at or below the target is on its branch. -/
theorem onBranch_of_below {c : Node H N V} (hg : c.Good T ok) (hb : T.Below hash c.hash) :
    ∀ m ∈ c.subtrees, onBranch T hash m = true := by
  intro m hm
  rcases hb.trans ((hg.below_of_mem m hm).1) with e | e
  · exact onBranch_iff.mpr (Or.inl (Or.inl e.symm))
  · exact onBranch_iff.mpr (Or.inr e)

theorem onBranch_eq_false {c : Node H N V} (hg : c.Good T ok) (hu : T.Unrelated c.hash hash) :
    ∀ m ∈ c.subtrees, onBranch T hash m = false := by
  intro m hm
  have hcm : T.Below c.hash m.hash := (hg.below_of_mem m hm).1
  rw [Bool.eq_false_iff]
  intro ho
  rcases onBranch_iff.mp ho with hb | hd
  · exact hu.not_below (hcm.trans hb)
  · rcases T.comparable_of_below hcm (Or.inr hd) with e | e | e
    · exact hu.1 e
    · exact hu.2.1 e
    · exact hu.2.2 e

/-- In a good forest, the nodes with a role below a strict ancestor `P` of the target are the nodes of `P`'s
subtree on the target's branch. -/
theorem pruneRole_iff {roots : List (Node H N V)} (hf : ForestGood T ok roots) {P m : Node H N V}
    (hP : P ∈ forestSubtrees roots) (hPb : T.desc P.hash hash) (hm : m ∈ forestSubtrees roots) :
    PruneRole T hash P m ↔ m ∈ P.subtrees ∧ onBranch T hash m = true := by
  constructor
  · intro hr
    -- each role puts `m` at or below `P`, and on the branch
    have hb : T.Below P.hash m.hash ∧ onBranch T hash m = true := by
      rcases hr with e | ⟨h₁, h₂⟩ | e | e
      · exact ⟨Or.inl e.symm, onBranch_iff.mpr (Or.inl (Or.inr (by rw [e]; exact hPb)))⟩
      · exact ⟨Or.inr h₁, onBranch_iff.mpr (Or.inl (Or.inr h₂))⟩
      · exact ⟨Or.inr (by rw [e]; exact hPb), onBranch_iff.mpr (Or.inl (Or.inl e))⟩
      · exact ⟨Or.inr (T.desc_trans hPb e), onBranch_iff.mpr (Or.inr e)⟩
    exact ⟨hf.mem_subtrees_of_below hP hm hb.1, hb.2⟩
  · rintro ⟨hmP, ho⟩
    rcases onBranch_iff.mp ho with (e | e) | e
    · exact Or.inr (Or.inr (Or.inl e))
    · rcases ((hf.good_of_mem hP).below_of_mem m hmP).1 with e' | e'
      · exact Or.inl e'.symm
      · exact Or.inr (Or.inl ⟨e', e⟩)
    · exact Or.inr (Or.inr (Or.inr e))

end Branch

/-! ## The walk below the new root -/

section Walk

variable [DecidableEq H] [LinearOrder N] (hash : H) (number : N) (isDescendentOf : H → H → Bool)

/-- The walk goes into the first child above the block by number and ancestry; the others stay siblings. -/
theorem pruneChildren_some {cs : List (Node H N V)} {r : Node H N V × List (Node H N V) × List (Node H N V)}
    (h : pruneChildren hash number isDescendentOf cs = some r) :
    ∃ c ∈ cs, c.number < number ∧ isDescendentOf c.hash hash = true ∧
      r = ((pruneNode hash number isDescendentOf c).1, r.2.1, (pruneNode hash number isDescendentOf c).2) ∧
      (c :: r.2.1).Perm cs := by
  induction cs generalizing r with
  | nil => simp [pruneChildren] at h
  | cons c cs ih =>
    simp only [pruneChildren] at h
    split at h
    · rename_i hc
      cases h
      simp only [Bool.and_eq_true, decide_eq_true_eq] at hc
      exact ⟨c, List.mem_cons_self, hc.1, hc.2, rfl, List.Perm.refl _⟩
    · obtain ⟨r', hr', rfl⟩ := Option.map_eq_some_iff.mp h
      obtain ⟨c₀, hc₀, hn, hd, he, hp⟩ := ih hr'
      refine ⟨c₀, List.mem_cons_of_mem _ hc₀, hn, hd, by rw [he], ?_⟩
      exact (List.Perm.swap c c₀ r'.2.1).trans (hp.cons c)

/-- Where the walk stops, no child is above the block by number and ancestry. -/
theorem pruneChildren_none {cs : List (Node H N V)} (h : pruneChildren hash number isDescendentOf cs = none) :
    ∀ c ∈ cs, ¬ (c.number < number ∧ isDescendentOf c.hash hash = true) := by
  induction cs with
  | nil => simp
  | cons c cs ih =>
    simp only [pruneChildren] at h
    split at h
    · cases h
    · rename_i hc
      simp only [Bool.and_eq_true, decide_eq_true_eq] at hc
      intro x hx
      rcases List.mem_cons.mp hx with rfl | hx
      · exact hc
      · exact ih (Option.map_eq_none_iff.mp h) x hx

end Walk

/-! ## What the walk keeps -/

section Items

variable [DecidableEq H] [LinearOrder N] {T : TreeOrder H N} {hash : H}

/-- Where the walk stops, with heights, a child is kept exactly when its whole subtree is on the target's branch,
and dropped exactly when none of it is. -/
theorem onBranch_eq_pruneKeeps {c : Node H N V} (hg : c.Good T (Heights T))
    (hc : ¬ (c.number < T.height hash ∧ T.desc c.hash hash = true)) :
    ∀ m ∈ c.subtrees, onBranch T hash m = pruneKeeps hash (T.height hash) T.desc c := by
  have hcn : c.number = T.height c.hash := hg.self_ok
  by_cases hb : T.Below hash c.hash
  · have hk : pruneKeeps hash (T.height hash) T.desc c = true := by
      rcases hb with e | e
      · simp [pruneKeeps, hcn, e]
      · simp [pruneKeeps, hcn, e, T.height_lt e]
    intro m hm
    rw [onBranch_of_below hg hb m hm, hk]
  · -- neither at or below the target, nor above it: on another branch
    have hu : T.Unrelated c.hash hash :=
      ⟨fun e => hb (Or.inl e.symm), fun e => hc ⟨hcn ▸ T.height_lt e, e⟩, fun e => hb (Or.inr e)⟩
    have hk : pruneKeeps hash (T.height hash) T.desc c = false := by
      simp only [pruneKeeps, Bool.or_eq_false_iff, Bool.and_eq_false_iff, decide_eq_false_iff_not]
      exact ⟨Or.inr (by simpa using hu.1), Or.inr (by simpa using hu.2.2)⟩
    intro m hm
    rw [onBranch_eq_false hg hu m hm, hk]

theorem pruneNode_data (number : N) (isDescendentOf : H → H → Bool) (n : Node H N V) :
    (pruneNode hash number isDescendentOf n).1.data = n.data := by
  obtain ⟨h, num, d, cs⟩ := n
  simp only [pruneNode]
  split <;> rfl

/-- The walk below a good node above the target, with heights: it keeps the items of the subtree's nodes on the
target's branch and removes the items of the others. -/
theorem pruneNode_items {n : Node H N V} (hg : n.Good T (Heights T)) (hn : T.desc n.hash hash) :
    (forestItems [(pruneNode hash (T.height hash) T.desc n).1]).Perm
        ((n.subtrees.filter (onBranch T hash)).map (fun m => (m.hash, m.number, m.data))) ∧
      (forestItems (pruneNode hash (T.height hash) T.desc n).2).Perm
        ((n.subtrees.filter (fun m => !onBranch T hash m)).map (fun m => (m.hash, m.number, m.data))) := by
  induction hg with
  | @mk h num d cs hok he hg hp ih =>
    have hon : onBranch T hash (⟨h, num, d, cs⟩ : Node H N V) = true := onBranch_iff.mpr (Or.inl (Or.inr hn))
    rw [subtrees_mk, List.filter_cons, if_pos hon, List.filter_cons, if_neg (by simp [hon]), List.map_cons]
    simp only [pruneNode]
    split
    · -- walked into the child above the target, whose siblings lie on other branches
      rename_i next siblings removed hc
      obtain ⟨c, hcs, -, hcd, he', hperm⟩ := pruneChildren_some hash (T.height hash) T.desc hc
      simp only [Prod.mk.injEq] at he'
      obtain ⟨rfl, -, rfl⟩ := he'
      simp only at hperm
      obtain ⟨hk, hr⟩ := ih c hcs hcd
      have hpc : ((c :: siblings).map Node.hash).Pairwise T.Unrelated :=
        hp.perm (hperm.symm.map _) (fun h => h.symm)
      rw [List.map_cons, List.pairwise_cons] at hpc
      have hoff : ∀ s ∈ siblings, ∀ m ∈ s.subtrees, onBranch T hash m = false := by
        intro s hs
        have hsc : s ∈ cs := hperm.subset (List.mem_cons_of_mem _ hs)
        have hu : T.Unrelated s.hash hash :=
          ((hpc.1 s.hash (List.mem_map_of_mem hs)).below_left (Or.inr hcd)).symm
        exact onBranch_eq_false (hg s hsc) hu
      have hsplit := forestSubtrees_perm hperm
      rw [forestSubtrees_cons] at hsplit
      have hon' : ∀ s ∈ siblings, ∀ m ∈ s.subtrees, (!onBranch T hash m) = true :=
        fun s hs m hm => by rw [hoff s hs m hm]; rfl
      have hkept : (forestSubtrees siblings).filter (onBranch T hash) = [] := by
        rw [filter_forestSubtrees hoff, List.filter_false, forestSubtrees_nil]
      have hdropped : (forestSubtrees siblings).filter (fun m => !onBranch T hash m) = forestSubtrees siblings := by
        rw [filter_forestSubtrees hon', List.filter_true]
      constructor
      · rw [forestItems_singleton]
        refine List.Perm.cons _ (hk.trans ((List.Perm.of_eq ?_).trans (hsplit.filter _ |>.map _)))
        rw [List.filter_append, hkept, List.append_nil]
      · rw [forestItems_append]
        refine (List.Perm.append_left _ hr).trans (List.perm_append_comm.trans ?_)
        refine (List.Perm.of_eq ?_).trans (hsplit.filter _ |>.map _)
        rw [List.filter_append, hdropped, List.map_append]
        rfl
    · -- the last step: the children at or below the target stay whole, the others go whole
      rename_i hc
      have hnone := pruneChildren_none hash (T.height hash) T.desc hc
      have hkeep := fun c hc => onBranch_eq_pruneKeeps (hg c hc) (hnone c hc)
      constructor
      · rw [forestItems_singleton, filter_forestSubtrees hkeep]
        rfl
      · have hkeep' : ∀ c ∈ cs, ∀ m ∈ c.subtrees, (!onBranch T hash m) = !pruneKeeps hash (T.height hash) T.desc c :=
          fun c hc m hm => by rw [hkeep c hc m hm]
        rw [filter_forestSubtrees hkeep']
        rfl

end Items

/-! ## Detaching the found node -/

/-- Detaching the node at a path that leads to one splits the forest's items between that node's subtree and
what is left. -/
theorem detachPath_items : ∀ {roots : List (Node H N V)} {p : List Nat} {P : Node H N V}, getPath roots p = some P →
    ∃ rest, detachPath roots p = some (P, rest) ∧ (forestItems [P] ++ forestItems rest).Perm (forestItems roots)
  | _, [], _, h => by simp [getPath] at h
  | roots, [i], P, h => by
    simp [getPath, getAt] at h
    obtain ⟨hi, rfl⟩ := List.getElem?_eq_some_iff.mp h
    refine ⟨roots.eraseIdx i, by simp [detachPath, hi], ?_⟩
    rw [← forestItems_append, List.singleton_append]
    exact forestItems_perm (List.getElem_cons_eraseIdx_perm hi)
  | roots, i :: j :: p, P, h => by
    simp only [getPath, getAt] at h
    obtain ⟨n, hn, hP⟩ := Option.bind_eq_some_iff.mp h
    obtain ⟨hi, rfl⟩ := List.getElem?_eq_some_iff.mp hn
    -- detach below the root `roots[i]`, then put the root back with the children that are left
    obtain ⟨rest, hd, hperm⟩ := detachPath_items (show getPath roots[i].children (j :: p) = some P from hP)
    let n' : Node H N V := { roots[i] with children := rest }
    have hi' : i < (roots.set i n').length := by rw [List.length_set]; exact hi
    refine ⟨roots.set i n', by simp [detachPath, hi, hd, n'], ?_⟩
    have hset : (forestItems (roots.set i n')).Perm (forestItems [n'] ++ forestItems (roots.eraseIdx i)) := by
      have hs := List.getElem_cons_eraseIdx_perm hi'
      rw [List.getElem_set_self, List.eraseIdx_set_eq] at hs
      rw [← forestItems_append, List.singleton_append]
      exact forestItems_perm hs.symm
    have hroots : (forestItems [roots[i]] ++ forestItems (roots.eraseIdx i)).Perm (forestItems roots) := by
      rw [← forestItems_append, List.singleton_append]
      exact forestItems_perm (List.getElem_cons_eraseIdx_perm hi)
    refine (List.Perm.append_left _ hset).trans (List.Perm.trans ?_ hroots)
    rw [forestItems_singleton n', forestItems_singleton roots[i], List.cons_append, List.cons_append]
    refine List.perm_middle.trans (List.Perm.cons _ ?_)
    rw [← List.append_assoc]
    exact List.Perm.append_right _ hperm

/-! ## `prune` -/

section Prune

variable [DecidableEq H] [LinearOrder N] {T : TreeOrder H N}

theorem prune_of_none {t : ForkTree H N V} {hash : H} {number : N} {isDescendentOf : H → H → Bool}
    {predicate : V → Bool} (h : findNodeIndexWhere hash number isDescendentOf predicate t.roots = none) :
    t.prune hash number isDescendentOf predicate = ([], t) := by
  simp [ForkTree.prune, h]

/-- After the search and the detach, `prune` walks below the detached node and makes what it keeps the one root. -/
theorem prune_of_detach {t : ForkTree H N V} {hash : H} {number : N} {isDescendentOf : H → H → Bool}
    {predicate : V → Bool} {p : List Nat} {P : Node H N V} {rest : List (Node H N V)}
    (h : findNodeIndexWhere hash number isDescendentOf predicate t.roots = some p)
    (hd : detachPath t.roots p = some (P, rest)) :
    t.prune hash number isDescendentOf predicate =
      (removedItems (rest ++ (pruneNode hash number isDescendentOf P).2),
        ⟨[(pruneNode hash number isDescendentOf P).1.rebalance], t.bestFinalizedNumber⟩) := by
  simp [ForkTree.prune, h, hd, ForkTree.rebalance, rebalanceList, List.mergeSort_singleton]

/-- With heights, the new root's subtree holds the items of the detached node's subtree on the target's branch,
and the removed items together with it are the items of the old forest. -/
theorem prune_items {roots rest : List (Node H N V)} {P : Node H N V} {hash : H}
    (hg : P.Good T (Heights T)) (hPb : T.desc P.hash hash)
    (hsplit : (forestItems [P] ++ forestItems rest).Perm (forestItems roots)) :
    (forestItems [(pruneNode hash (T.height hash) T.desc P).1.rebalance]).Perm
        ((P.subtrees.filter (onBranch T hash)).map (fun m => (m.hash, m.number, m.data))) ∧
      (removedItems (rest ++ (pruneNode hash (T.height hash) T.desc P).2) ++
        forestItems [(pruneNode hash (T.height hash) T.desc P).1.rebalance]).Perm (forestItems roots) := by
  obtain ⟨hk, hr⟩ := pruneNode_items hg hPb
  have hkept := (forestItems_rebalance _).trans hk
  refine ⟨hkept, ?_⟩
  have hrem : (removedItems (rest ++ (pruneNode hash (T.height hash) T.desc P).2)).Perm
      (forestItems rest ++ (P.subtrees.filter (fun m => !onBranch T hash m)).map (fun m => (m.hash, m.number, m.data))) := by
    rw [removedItems_eq]
    refine (forestItems_perm (List.reverse_perm _)).trans ?_
    rw [forestItems_append]
    exact List.Perm.append_left _ hr
  -- the walk splits the detached subtree between the two sides; put it back together
  have hP : ((P.subtrees.filter (fun m => !onBranch T hash m)).map (fun m => (m.hash, m.number, m.data)) ++
      (P.subtrees.filter (onBranch T hash)).map (fun m => (m.hash, m.number, m.data))).Perm (forestItems [P]) := by
    rw [← List.map_append, forestItems_eq_map]
    exact (List.perm_append_comm.trans (List.filter_append_perm _ _)).map _
  refine (List.Perm.append hrem hkept).trans ?_
  rw [List.append_assoc]
  exact ((List.Perm.append_left _ hP).trans List.perm_append_comm).trans hsplit

/-- `prune` in a good tree numbered by heights, for a target at its height. With no strict ancestor of the target
passing the predicate the tree stays; otherwise the deepest one, `P`, becomes the one root, with `P`'s hash, number and
data, holding exactly the old nodes in the roles of `PruneRole`; the removed and kept items are the old ones, each once.
-/
theorem prune_keeps_branch {t : ForkTree H N V} (hf : ForestGood T (Heights T) t.roots) (hash : H) (number : N)
    (hn : number = T.height hash) (predicate : V → Bool) :
    ((∀ m ∈ forestSubtrees t.roots, StrictAncestor T hash number m → predicate m.data = false) ↔
        findNodeIndexWhereStack hash number T.desc predicate t.roots = none) ∧
    (findNodeIndexWhereStack hash number T.desc predicate t.roots = none →
        t.prune hash number T.desc predicate = ([], t)) ∧
    ∀ p, findNodeIndexWhereStack hash number T.desc predicate t.roots = some p →
      ∃ P root, getPath t.roots p = some P ∧ StrictAncestor T hash number P ∧ predicate P.data = true ∧
        (∀ m ∈ forestSubtrees t.roots, StrictAncestor T hash number m → predicate m.data = true →
          T.Below m.hash P.hash) ∧
        (t.prune hash number T.desc predicate).2 = ⟨[root], t.bestFinalizedNumber⟩ ∧
        root.hash = P.hash ∧ root.number = P.number ∧ root.data = P.data ∧
        (∀ x ∈ forestItems [root], ∃ m ∈ forestSubtrees t.roots, PruneRole T hash P m ∧
          (m.hash, m.number, m.data) = x) ∧
        (∀ m ∈ forestSubtrees t.roots, PruneRole T hash P m → (m.hash, m.number, m.data) ∈ forestItems [root]) ∧
        ((t.prune hash number T.desc predicate).1 ++ forestItems [root]).Perm (forestItems t.roots) := by
  rw [findNodeIndexWhereStack_eq]
  have hfound := findNodeIndexWhere_found hash number predicate hf
  refine ⟨⟨fun hno => ?_, fun hnone => ?_⟩, prune_of_none, fun p hp => ?_⟩
  · -- no strict ancestor passes: a found path would lead to one that does
    rcases hfound with ⟨hnone, -⟩ | ⟨p, P, -, hP, hPa, hpP, -⟩
    · exact hnone
    · exact absurd hpP (by rw [hno P (getPath_mem hP) hPa]; decide)
  · rcases hfound with ⟨-, hno⟩ | ⟨p, P, hp, -⟩
    · exact hno
    · rw [hp] at hnone; cases hnone
  · rcases hfound with ⟨hnone, -⟩ | ⟨p', P, hp', hP, hPa, hpP, hdeep⟩
    · rw [hp] at hnone; cases hnone
    rw [hp] at hp'
    cases hp'
    subst hn
    have hPm : P ∈ forestSubtrees t.roots := getPath_mem hP
    have hg : P.Good T (Heights T) := hf.good_of_mem hPm
    obtain ⟨rest, hd, hsplit⟩ := detachPath_items hP
    obtain ⟨hkept, hall⟩ := prune_items hg hPa.1 hsplit
    obtain ⟨-, hh, hnum⟩ := pruneNode_good hash (T.height hash) T.desc hg
    refine ⟨P, (pruneNode hash (T.height hash) T.desc P).1.rebalance, hP, hPa, hpP, hdeep, by rw [prune_of_detach hp hd], by simp [hh], by simp [hnum],
      by simp [pruneNode_data], fun x hx => ?_, fun m hm hr => ?_, by rw [prune_of_detach hp hd]; exact hall⟩
    · -- a kept item is the item of a node of `P`'s subtree on the branch
      obtain ⟨m, hmf, rfl⟩ := List.mem_map.mp (hkept.subset hx)
      obtain ⟨hmP, ho⟩ := List.mem_filter.mp hmf
      have hm : m ∈ forestSubtrees t.roots := by
        obtain ⟨r, hr, hPr⟩ := mem_forestSubtrees.mp hPm
        exact mem_forestSubtrees.mpr ⟨r, hr, subtrees_subset hPr hmP⟩
      exact ⟨m, hm, (pruneRole_iff hf hPm hPa.1 hm).mpr ⟨hmP, ho⟩, rfl⟩
    · obtain ⟨hmP, ho⟩ := (pruneRole_iff hf hPm hPa.1 hm).mp hr
      exact hkept.symm.subset (List.mem_map_of_mem (List.mem_filter.mpr ⟨hmP, ho⟩))

/-- A root `[0]` with the chain `[0, 1]`, `[0, 1, 2]` below it and a fork `[0, 2]` beside it, numbered by heights. -/
def chainAndFork : ForkTree (List Nat) Nat Unit :=
  ⟨[⟨[0], 1, (), [⟨[0, 1], 2, (), [⟨[0, 1, 2], 3, (), []⟩]⟩, ⟨[0, 2], 2, (), []⟩]⟩], none⟩

theorem prune_keeps_branch_chainAndFork :
    ForestGood (prefixes Nat) (Heights (prefixes Nat)) chainAndFork.roots ∧ 3 = (prefixes Nat).height [0, 1, 2] ∧
    ((∀ m ∈ forestSubtrees chainAndFork.roots, StrictAncestor (prefixes Nat) [0, 1, 2] 3 m →
          (fun _ : Unit => true) m.data = false) ↔
        findNodeIndexWhereStack [0, 1, 2] 3 (prefixes Nat).desc (fun _ => true) chainAndFork.roots = none) ∧
    (findNodeIndexWhereStack [0, 1, 2] 3 (prefixes Nat).desc (fun _ => true) chainAndFork.roots = none →
        chainAndFork.prune [0, 1, 2] 3 (prefixes Nat).desc (fun _ => true) = ([], chainAndFork)) ∧
    ∀ p, findNodeIndexWhereStack [0, 1, 2] 3 (prefixes Nat).desc (fun _ => true) chainAndFork.roots = some p →
      ∃ P root, getPath chainAndFork.roots p = some P ∧ StrictAncestor (prefixes Nat) [0, 1, 2] 3 P ∧
        (fun _ : Unit => true) P.data = true ∧
        (∀ m ∈ forestSubtrees chainAndFork.roots, StrictAncestor (prefixes Nat) [0, 1, 2] 3 m →
          (fun _ : Unit => true) m.data = true → (prefixes Nat).Below m.hash P.hash) ∧
        (chainAndFork.prune [0, 1, 2] 3 (prefixes Nat).desc (fun _ => true)).2 =
          ⟨[root], chainAndFork.bestFinalizedNumber⟩ ∧
        root.hash = P.hash ∧ root.number = P.number ∧ root.data = P.data ∧
        (∀ x ∈ forestItems [root], ∃ m ∈ forestSubtrees chainAndFork.roots, PruneRole (prefixes Nat) [0, 1, 2] P m ∧
          (m.hash, m.number, m.data) = x) ∧
        (∀ m ∈ forestSubtrees chainAndFork.roots, PruneRole (prefixes Nat) [0, 1, 2] P m →
          (m.hash, m.number, m.data) ∈ forestItems [root]) ∧
        ((chainAndFork.prune [0, 1, 2] 3 (prefixes Nat).desc (fun _ => true)).1 ++ forestItems [root]).Perm
          (forestItems chainAndFork.roots) := by
  have hf : ForestGood (prefixes Nat) (Heights (prefixes Nat)) chainAndFork.roots := by
    simp [chainAndFork, ForestGood, good_iff, Heights, prefixes, Unrelated]
  exact ⟨hf, rfl, prune_keeps_branch hf [0, 1, 2] 3 rfl (fun _ => true)⟩

/-- Both conditions are needed. With siblings on one branch (the tree of `find_node_index_where_sibling_above`), pruning
for `[0, 1, 2, 3]` re-roots at `[0, 1]` and removes `[0, 1, 2]`, on the chain to the target. With numbers other than
heights, pruning `[0]` with the child `[0, 1, 2]` numbered `2` for `[0, 1]` at `2` removes that child, below the target.
-/
theorem prune_drops_branch_node :
    (⟨siblingsOnOneBranch, none⟩ : ForkTree (List Nat) Nat Unit).prune [0, 1, 2, 3] 4 (prefixes Nat).desc
        (fun _ => true) = ([([0], 1, ()), ([0, 1, 2], 3, ())], ⟨[⟨[0, 1], 2, (), []⟩], none⟩) ∧
      (prefixes Nat).desc [0, 1] [0, 1, 2] = true ∧ (prefixes Nat).desc [0, 1, 2] [0, 1, 2, 3] = true ∧
    (⟨[⟨[0], 1, (), [⟨[0, 1, 2], 2, (), []⟩]⟩], none⟩ : ForkTree (List Nat) Nat Unit).prune [0, 1] 2
        (prefixes Nat).desc (fun _ => true) = ([([0, 1, 2], 2, ())], ⟨[⟨[0], 1, (), []⟩], none⟩) ∧
      (prefixes Nat).desc [0, 1] [0, 1, 2] = true := by
  have hsib : findNodeIndexWhere [0, 1, 2, 3] 4 (prefixes Nat).desc (fun _ => true) siblingsOnOneBranch =
      some [0, 0] := by
    decide
  have hnum : findNodeIndexWhere [0, 1] 2 (prefixes Nat).desc (fun _ => true)
      [⟨[0], 1, (), [⟨[0, 1, 2], 2, (), []⟩]⟩] = some [0] := by
    decide
  refine ⟨?_, by decide, by decide, ?_, by decide⟩
  · rw [prune_of_detach hsib rfl]
    simp [pruneNode, pruneChildren, removedItems, siblingsOnOneBranch, prefixes, forestSubtrees]
  · rw [prune_of_detach hnum rfl]
    simp [pruneNode, pruneChildren, pruneKeeps, removedItems, prefixes, forestSubtrees]

end Prune

end CoreChain.Fork

import CoreChain.Lib.Ancestry
import CoreChain.ForkTree.Ops

/-!
# Fork trees: the shape invariant

Fix the strict ancestor relation `T` of a block tree and a condition `ok` on the hash and number of a single node
(for a run of imports: the number is the block's height). A node is `Good` when it and everything below it is
`ok`, each child has a larger number than its parent and lies below it in `T`, and the children of every node lie
on pairwise different branches (`TreeOrder.Unrelated`). A forest is good when its nodes are and its roots lie on
different branches. Every operation below moves whole nodes, hash and number together, so `ok` travels along.

- Everything in a good subtree lies at or below its root (`Good.below_of_mem`), so a good forest never holds a hash
  twice (`ForestGood.nodup`): the branches of two siblings never meet again.
- The shape survives reordering children (`ForestGood.perm`, `Good.rebalance`), dropping subtrees
  (`ForestGood.of_sublist`, `drainForest_good`, `pruneNode_good`) and opening a root into its children
  (`ForestGood.open`).
-/

namespace CoreChain.Fork

open Node TreeOrder

variable {H N V : Type _} [LinearOrder N] (T : TreeOrder H N) (ok : H → N → Prop)

/-- The shape invariant below a node. -/
inductive Node.Good : Node H N V → Prop
  | mk {h : H} {n : N} {d : V} {cs : List (Node H N V)} : ok h n →
      (∀ c ∈ cs, n < c.number ∧ T.desc h c.hash) → (∀ c ∈ cs, Node.Good c) →
      (cs.map Node.hash).Pairwise T.Unrelated → Node.Good ⟨h, n, d, cs⟩

/-- The shape invariant of a list of roots (or of a children list). -/
def ForestGood (roots : List (Node H N V)) : Prop :=
  (∀ r ∈ roots, r.Good T ok) ∧ (roots.map Node.hash).Pairwise T.Unrelated

variable {T ok}

theorem good_iff {h : H} {n : N} {d : V} {cs : List (Node H N V)} :
    Node.Good T ok ⟨h, n, d, cs⟩ ↔ ok h n ∧ (∀ c ∈ cs, n < c.number ∧ T.desc h c.hash) ∧ ForestGood T ok cs := by
  constructor
  · rintro ⟨hok, he, hg, hp⟩
    exact ⟨hok, he, hg, hp⟩
  · rintro ⟨hok, he, hg, hp⟩
    exact ⟨hok, he, hg, hp⟩

theorem Node.Good.self_ok {n : Node H N V} (hg : n.Good T ok) : ok n.hash n.number := by
  cases hg with
  | mk hok _ _ _ => exact hok

theorem Node.Good.edges {n : Node H N V} (hg : n.Good T ok) : ∀ c ∈ n.children, n.number < c.number ∧
    T.desc n.hash c.hash := by
  cases hg with
  | mk _ he _ _ => exact he

theorem Node.Good.children {n : Node H N V} (hg : n.Good T ok) : ForestGood T ok n.children := by
  cases hg with
  | mk _ _ hg hp => exact ⟨hg, hp⟩

/-- Everything in a good subtree lies at or below its root, with a number at least the root's. -/
theorem Node.Good.below_of_mem {n : Node H N V} (hg : n.Good T ok) :
    ∀ m ∈ n.subtrees, T.Below n.hash m.hash ∧ n.number ≤ m.number := by
  induction hg with
  | @mk h num d cs _ he _ _ ih =>
    intro m hm
    rw [subtrees_mk, List.mem_cons, mem_forestSubtrees] at hm
    rcases hm with rfl | ⟨c, hc, hm⟩
    · exact ⟨Below.refl T h, le_rfl⟩
    · obtain ⟨hlt, hd⟩ := he c hc
      obtain ⟨hb, hle⟩ := ih c hc m hm
      exact ⟨Or.inr (T.desc_of_desc_of_below hd hb), le_of_lt (lt_of_lt_of_le hlt hle)⟩

theorem Node.Good.subtrees_good {n : Node H N V} (hg : n.Good T ok) : ∀ m ∈ n.subtrees, m.Good T ok := by
  induction hg with
  | @mk h num d cs hok he hg hp ih =>
    intro m hm
    rw [subtrees_mk, List.mem_cons, mem_forestSubtrees] at hm
    rcases hm with rfl | ⟨c, hc, hm⟩
    · exact ⟨hok, he, hg, hp⟩
    · exact ih c hc m hm

theorem ForestGood.good_of_mem {roots : List (Node H N V)} (hf : ForestGood T ok roots) {m : Node H N V}
    (hm : m ∈ forestSubtrees roots) : m.Good T ok := by
  obtain ⟨r, hr, hm⟩ := mem_forestSubtrees.mp hm
  exact (hf.1 r hr).subtrees_good m hm

/-! ## No hash twice -/

/-- Subtrees whose hashes are each duplicate-free and lie below pairwise unrelated roots have duplicate-free
hashes together. -/
theorem nodup_forestSubtrees {cs : List (Node H N V)}
    (hc : ∀ c ∈ cs, (c.subtrees.map Node.hash).Nodup ∧ ∀ m ∈ c.subtrees, T.Below c.hash m.hash)
    (hp : (cs.map Node.hash).Pairwise T.Unrelated) : ((forestSubtrees cs).map Node.hash).Nodup := by
  induction cs with
  | nil => simp
  | cons c cs ih =>
    rw [List.map_cons, List.pairwise_cons] at hp
    rw [forestSubtrees_cons, List.map_append, List.nodup_append]
    refine ⟨(hc c List.mem_cons_self).1, ih (fun c' h' => hc c' (List.mem_cons_of_mem _ h')) hp.2, ?_⟩
    intro a ha b hb hab
    obtain ⟨x, hx, rfl⟩ := List.mem_map.mp ha
    obtain ⟨y, hy, rfl⟩ := List.mem_map.mp hb
    obtain ⟨c', hc', hy⟩ := mem_forestSubtrees.mp hy
    have hu : T.Unrelated c.hash c'.hash := hp.1 c'.hash (List.mem_map_of_mem hc')
    exact (hu.below ((hc c List.mem_cons_self).2 x hx) ((hc c' (List.mem_cons_of_mem _ hc')).2 y hy)).1 hab

theorem Node.Good.nodup {n : Node H N V} (hg : n.Good T ok) : (n.subtrees.map Node.hash).Nodup := by
  induction hg with
  | @mk h num d cs _ he hg hp ih =>
    rw [subtrees_mk, List.map_cons, List.nodup_cons]
    refine ⟨?_, nodup_forestSubtrees (fun c hc => ⟨ih c hc, fun m hm => ((hg c hc).below_of_mem m hm).1⟩) hp⟩
    -- the root is strictly above everything in its children's subtrees
    intro hmem
    obtain ⟨m, hm, hmh⟩ := List.mem_map.mp hmem
    obtain ⟨c, hc, hm⟩ := mem_forestSubtrees.mp hm
    have hd : T.desc h m.hash := T.desc_of_desc_of_below (he c hc).2 ((hg c hc).below_of_mem m hm).1
    exact T.ne_of_desc hd hmh.symm

theorem ForestGood.nodup {roots : List (Node H N V)} (hf : ForestGood T ok roots) :
    ((forestSubtrees roots).map Node.hash).Nodup :=
  nodup_forestSubtrees (fun r hr => ⟨(hf.1 r hr).nodup, fun m hm => ((hf.1 r hr).below_of_mem m hm).1⟩) hf.2

/-! ## Forests that keep the shape -/

/-- Good nodes whose hashes are taken, in order, from a good forest's roots form a good forest. -/
theorem ForestGood.of_sublist {roots roots' : List (Node H N V)} (hf : ForestGood T ok roots)
    (hg : ∀ r ∈ roots', r.Good T ok) (hs : (roots'.map Node.hash).Sublist (roots.map Node.hash)) :
    ForestGood T ok roots' :=
  ⟨hg, hf.2.sublist hs⟩

theorem ForestGood.filter {roots : List (Node H N V)} (hf : ForestGood T ok roots) (p : Node H N V → Bool) :
    ForestGood T ok (roots.filter p) :=
  hf.of_sublist (fun r hr => hf.1 r (List.mem_of_mem_filter hr)) ((List.filter_sublist).map _)

theorem ForestGood.perm {roots roots' : List (Node H N V)} (hf : ForestGood T ok roots) (hp : roots.Perm roots') :
    ForestGood T ok roots' :=
  ⟨fun r hr => hf.1 r (hp.symm.subset hr), hf.2.perm (hp.map _) (fun h => h.symm)⟩

theorem ForestGood.swapRemove {roots : List (Node H N V)} (hf : ForestGood T ok roots) {idx : Nat}
    (hi : idx < roots.length) : ForestGood T ok (swapRemove roots idx) :=
  (hf.of_sublist (fun r hr => hf.1 r (List.mem_of_mem_eraseIdx hr))
    ((List.eraseIdx_sublist roots idx).map _)).perm (swapRemove_perm hi).symm

theorem ForestGood.open_head {r : Node H N V} {rs : List (Node H N V)} (hf : ForestGood T ok (r :: rs)) :
    ForestGood T ok (rs ++ r.children) := by
  obtain ⟨hg, hp⟩ := hf
  rw [List.map_cons, List.pairwise_cons] at hp
  have hr := (hg r List.mem_cons_self).children
  refine ⟨?_, ?_⟩
  · intro x hx
    rcases List.mem_append.mp hx with hx | hx
    · exact hg x (List.mem_cons_of_mem _ hx)
    · exact hr.1 x hx
  · rw [List.map_append, List.pairwise_append]
    refine ⟨hp.2, hr.2, ?_⟩
    -- a child of the opened root sits below it, on another branch than every other root
    intro a ha b hb
    obtain ⟨c, hc, rfl⟩ := List.mem_map.mp hb
    have hu : T.Unrelated r.hash a := hp.1 a ha
    exact (hu.below_left (Or.inr ((hg r List.mem_cons_self).edges c hc).2)).symm

/-- Opening the root at `idx` the way `finalize_with_ancestors` does. -/
theorem ForestGood.open {roots : List (Node H N V)} (hf : ForestGood T ok roots) {idx : Nat}
    (hi : idx < roots.length) : ForestGood T ok (CoreChain.swapRemove roots idx ++ roots[idx].children) := by
  have hp : roots.Perm (roots[idx] :: roots.eraseIdx idx) := (List.getElem_cons_eraseIdx_perm hi).symm
  have ho := (hf.perm hp).open_head
  exact ho.perm (((swapRemove_perm hi).symm).append_right _)

/-- Replacing each root by a good node with the same hash keeps a forest good. -/
theorem ForestGood.map {roots : List (Node H N V)} (hf : ForestGood T ok roots) (f : Node H N V → Node H N V)
    (hg : ∀ r ∈ roots, (f r).Good T ok) (hh : ∀ r, (f r).hash = r.hash) : ForestGood T ok (roots.map f) := by
  refine ⟨?_, ?_⟩
  · intro r hr
    obtain ⟨r₀, hr₀, rfl⟩ := List.mem_map.mp hr
    exact hg r₀ hr₀
  · rw [List.map_map]
    have he : (Node.hash ∘ f) = Node.hash := funext hh
    rw [he]
    exact hf.2

/-! ## Rebalancing, filtering and pruning keep the shape -/

theorem Node.Good.rebalance {n : Node H N V} (hg : n.Good T ok) : n.rebalance.Good T ok := by
  induction hg with
  | @mk h num d cs hok he hg hp ih =>
    rw [rebalance_mk, good_iff]
    have hperm := List.mergeSort_perm (cs.map Node.rebalance) deeperFirst
    refine ⟨hok, ?_, (ForestGood.map (⟨hg, hp⟩ : ForestGood T ok cs) _ ih rebalance_hash).perm hperm.symm⟩
    intro c hc
    obtain ⟨c₀, hc₀, rfl⟩ := List.mem_map.mp (hperm.subset hc)
    simpa using he c₀ hc₀

theorem ForestGood.rebalance {roots : List (Node H N V)} (hf : ForestGood T ok roots) :
    ForestGood T ok ((rebalanceList roots).mergeSort deeperFirst) := by
  rw [rebalanceList_eq]
  exact (hf.map _ (fun r hr => (hf.1 r hr).rebalance) rebalance_hash).perm (List.mergeSort_perm _ _).symm

section Drain

variable (filter : H → N → V → FilterAction)

/-- What `drainForest` keeps of a list comes, in order, from the list, and is good when each kept part is. -/
theorem drainForest_spec {cs : List (Node H N V)}
    (hc : ∀ c ∈ cs, ∀ c', drainNode filter c = some c' → c'.Good T ok ∧ c'.hash = c.hash ∧ c'.number = c.number) :
    (∀ c' ∈ drainForest filter cs, c'.Good T ok ∧ ∃ c ∈ cs, c'.hash = c.hash ∧ c'.number = c.number) ∧
      ((drainForest filter cs).map Node.hash).Sublist (cs.map Node.hash) := by
  induction cs with
  | nil => simp [drainForest]
  | cons c cs ih =>
    obtain ⟨ih₁, ih₂⟩ := ih (fun c' h' => hc c' (List.mem_cons_of_mem _ h'))
    cases hd : drainNode filter c with
    | none =>
      simp only [drainForest, hd]
      refine ⟨fun c' h' => ?_, ih₂.cons _⟩
      obtain ⟨hg, c₀, hc₀, he⟩ := ih₁ c' h'
      exact ⟨hg, c₀, List.mem_cons_of_mem _ hc₀, he⟩
    | some c' =>
      simp only [drainForest, hd, List.map_cons]
      obtain ⟨hg, hh, hn⟩ := hc c List.mem_cons_self c' hd
      refine ⟨fun x hx => ?_, hh ▸ ih₂.cons_cons _⟩
      rcases List.mem_cons.mp hx with rfl | hx
      · exact ⟨hg, c, List.mem_cons_self, hh, hn⟩
      · obtain ⟨hg, c₀, hc₀, he⟩ := ih₁ x hx
        exact ⟨hg, c₀, List.mem_cons_of_mem _ hc₀, he⟩

theorem drainNode_good {n : Node H N V} (hg : n.Good T ok) :
    ∀ n', drainNode filter n = some n' → n'.Good T ok ∧ n'.hash = n.hash ∧ n'.number = n.number := by
  induction hg with
  | @mk h num d cs hok he hg hp ih =>
    intro n' hn'
    simp only [drainNode] at hn'
    split at hn'
    · cases hn'
    · cases hn'
      exact ⟨⟨hok, he, hg, hp⟩, rfl, rfl⟩
    · cases hn'
      obtain ⟨h₁, h₂⟩ := drainForest_spec filter ih
      refine ⟨good_iff.mpr ⟨hok, ?_, ⟨fun c hc => (h₁ c hc).1, hp.sublist h₂⟩⟩, rfl, rfl⟩
      intro c hc
      obtain ⟨-, c₀, hc₀, hh, hn⟩ := h₁ c hc
      rw [hh, hn]
      exact he c₀ hc₀

theorem ForestGood.drainForest {roots : List (Node H N V)} (hf : ForestGood T ok roots) :
    ForestGood T ok (drainForest filter roots) := by
  obtain ⟨h₁, h₂⟩ := drainForest_spec filter (fun c hc => drainNode_good filter (hf.1 c hc))
  exact ⟨fun c hc => (h₁ c hc).1, hf.2.sublist h₂⟩

end Drain

section Prune

variable [DecidableEq H] (hash : H) (number : N) (isDescendentOf : H → H → Bool)

theorem pruneChildren_mem {cs : List (Node H N V)} {r : Node H N V × List (Node H N V) × List (Node H N V)}
    (h : pruneChildren hash number isDescendentOf cs = some r) :
    ∃ c ∈ cs, r.1 = (pruneNode hash number isDescendentOf c).1 := by
  induction cs generalizing r with
  | nil => simp [pruneChildren] at h
  | cons c cs ih =>
    simp only [pruneChildren] at h
    split at h
    · cases h
      exact ⟨c, List.mem_cons_self, rfl⟩
    · obtain ⟨r', hr', rfl⟩ := Option.map_eq_some_iff.mp h
      obtain ⟨c₀, hc₀, he⟩ := ih hr'
      exact ⟨c₀, List.mem_cons_of_mem _ hc₀, he⟩

/-- The walk of `prune` keeps the shape, and the node it starts from. -/
theorem pruneNode_good {n : Node H N V} (hg : n.Good T ok) :
    (pruneNode hash number isDescendentOf n).1.Good T ok ∧ (pruneNode hash number isDescendentOf n).1.hash = n.hash ∧
      (pruneNode hash number isDescendentOf n).1.number = n.number := by
  induction hg with
  | @mk h num d cs hok he hg hp ih =>
    simp only [pruneNode]
    split
    · -- one child, the ancestor of the block, walked into
      rename_i next siblings removed hc
      obtain ⟨c, hcs, rfl⟩ := pruneChildren_mem hash number isDescendentOf hc
      obtain ⟨hg', hh, hn⟩ := ih c hcs
      refine ⟨good_iff.mpr ⟨hok, ?_, ⟨?_, by simp⟩⟩, rfl, rfl⟩
      · intro x hx
        rw [List.mem_singleton] at hx
        rw [hx, hh, hn]
        exact he c hcs
      · intro x hx
        rw [List.mem_singleton] at hx
        exact hx ▸ hg'
    · -- no such child: the filter of the last step
      refine ⟨good_iff.mpr ⟨hok, fun c hc => he c (List.mem_of_mem_filter hc), ForestGood.filter ⟨hg, hp⟩ _⟩,
        rfl, rfl⟩

end Prune

end CoreChain.Fork

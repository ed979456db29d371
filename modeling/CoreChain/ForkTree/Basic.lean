import Mathlib
import CoreChain.Lib.Vec

/-!
# Fork trees: the data and the search

The data of `substrate/utils/fork-tree/src/lib.rs`. A `ForkTree` is a list of roots and the number of the last
finalized block; a `Node` carries a block hash, a block number, a value and its children.

- `subtrees` lists a node's subtree in pre-order, the order of `ForkTreeIterator`; `maxDepth` is `max_depth`, and
  `rebalance` sorts every children list by it, deepest first.
- A node is addressed by the index path from a root, as `find_node_index_where` reports it (`getPath`);
  `modifyPath` and `detachPath` are the `&mut` walks that `import` and `prune` make along such a path.
- `findNodeIndexWhere` is the post-order depth-first search of the source. Its explicit stack of
  `(node, next child index)` pairs is the recursion stack of `searchNode`/`searchChildren`, and its flag
  `is_descendent` is the result `Found.descendent`.

The ancestry oracle `is_descendent_of` is a total Boolean function `H → H → Bool` throughout, so its `Client`
error never occurs.
-/

namespace CoreChain.Fork

/-- `Error`, without `Client`: the oracle is total. -/
inductive Error where
  | duplicate
  | unfinalizedAncestor
  | revert
  deriving DecidableEq, Repr

/-- The result of a finalization. -/
inductive FinalizationResult (V : Type _) where
  | changed (value : Option V)
  | unchanged
  deriving DecidableEq, Repr

/-- What `drain_filter` does with a node. -/
inductive FilterAction where
  | remove
  | keepNode
  | keepTree
  deriving DecidableEq, Repr

/-- A node of the tree: a block, its value and the nodes imported below it. -/
structure Node (H N V : Type _) where
  hash : H
  number : N
  data : V
  children : List (Node H N V)

/-- The tree: its roots and the number of the last finalized block. -/
structure ForkTree (H N V : Type _) where
  roots : List (Node H N V)
  bestFinalizedNumber : Option N

variable {H N V : Type _}

/-- `ForkTree::new`. -/
def ForkTree.new : ForkTree H N V := ⟨[], none⟩

namespace Node

/-- Induction over the nested inductive: a property inherited from all children holds of every node. -/
@[elab_as_elim]
theorem ind {P : Node H N V → Prop} (h : ∀ hash number data cs, (∀ c ∈ cs, P c) → P ⟨hash, number, data, cs⟩)
    (n : Node H N V) : P n :=
  @Node.rec H N V P (fun cs => ∀ c ∈ cs, P c)
    (fun hash number data cs ih => h hash number data cs ih)
    (fun _ hc => absurd hc List.not_mem_nil)
    (fun _ _ ihh iht c hc => by
      rcases List.mem_cons.mp hc with rfl | hc
      · exact ihh
      · exact iht c hc)
    n

/-! ## Subtrees and depth -/

mutual
/-- The nodes of a subtree in pre-order, the node first. -/
def subtrees : Node H N V → List (Node H N V)
  | n@⟨_, _, _, cs⟩ => n :: forestSubtrees cs
/-- The nodes of a list of subtrees in pre-order. -/
def forestSubtrees : List (Node H N V) → List (Node H N V)
  | [] => []
  | c :: cs => subtrees c ++ forestSubtrees cs
end

mutual
/-- `max_depth`: the length of the longest downward path. -/
def maxDepth : Node H N V → Nat
  | ⟨_, _, _, []⟩ => 0
  | ⟨_, _, _, c :: cs⟩ => max (maxDepth c) (forestDepth cs) + 1
/-- The largest `maxDepth` in a list, `0` for none. -/
def forestDepth : List (Node H N V) → Nat
  | [] => 0
  | c :: cs => max (maxDepth c) (forestDepth cs)
end

@[simp] theorem subtrees_mk (h : H) (n : N) (d : V) (cs : List (Node H N V)) :
    subtrees ⟨h, n, d, cs⟩ = ⟨h, n, d, cs⟩ :: forestSubtrees cs := by
  simp [subtrees]

theorem subtrees_eq (n : Node H N V) : n.subtrees = n :: forestSubtrees n.children := by
  cases n; simp

@[simp] theorem forestSubtrees_nil : forestSubtrees ([] : List (Node H N V)) = [] := by
  simp [forestSubtrees]

@[simp] theorem forestSubtrees_cons (c : Node H N V) (cs : List (Node H N V)) :
    forestSubtrees (c :: cs) = c.subtrees ++ forestSubtrees cs := by
  simp [forestSubtrees]

theorem forestSubtrees_eq (cs : List (Node H N V)) : forestSubtrees cs = cs.flatMap subtrees := by
  induction cs with
  | nil => simp
  | cons c cs ih => simp [ih]

@[simp] theorem forestSubtrees_append (cs ds : List (Node H N V)) :
    forestSubtrees (cs ++ ds) = forestSubtrees cs ++ forestSubtrees ds := by
  simp [forestSubtrees_eq]

theorem mem_forestSubtrees {m : Node H N V} {cs : List (Node H N V)} :
    m ∈ forestSubtrees cs ↔ ∃ c ∈ cs, m ∈ c.subtrees := by
  simp [forestSubtrees_eq]

theorem self_mem_subtrees (n : Node H N V) : n ∈ n.subtrees := by
  rw [subtrees_eq]; exact List.mem_cons_self

theorem subtrees_subset {n m : Node H N V} (hm : m ∈ n.subtrees) : m.subtrees ⊆ n.subtrees := by
  induction n using Node.ind with
  | h h₀ n₀ d₀ cs ih =>
    rw [subtrees_mk, List.mem_cons, mem_forestSubtrees] at hm
    rcases hm with rfl | ⟨c, hc, hm⟩
    · exact List.Subset.refl _
    · intro x hx
      rw [subtrees_mk, List.mem_cons, mem_forestSubtrees]
      exact Or.inr ⟨c, hc, ih c hc hm hx⟩

theorem child_mem_forestSubtrees {cs : List (Node H N V)} {n c : Node H N V} (hn : n ∈ forestSubtrees cs)
    (hc : c ∈ n.children) : c ∈ forestSubtrees cs := by
  obtain ⟨r, hr, hn⟩ := mem_forestSubtrees.mp hn
  have hc' : c ∈ n.subtrees := by
    rw [subtrees_eq, List.mem_cons, mem_forestSubtrees]
    exact Or.inr ⟨c, hc, self_mem_subtrees c⟩
  exact mem_forestSubtrees.mpr ⟨r, hr, subtrees_subset hn hc'⟩

theorem forestSubtrees_perm {cs ds : List (Node H N V)} (h : cs.Perm ds) :
    (forestSubtrees cs).Perm (forestSubtrees ds) := by
  rw [forestSubtrees_eq, forestSubtrees_eq]
  exact h.flatMap_right _

theorem forestSubtrees_sublist {cs ds : List (Node H N V)} (h : cs.Sublist ds) :
    (forestSubtrees cs).Sublist (forestSubtrees ds) := by
  rw [forestSubtrees_eq, forestSubtrees_eq]
  exact h.flatMap _

/-! ## Rebalancing -/

/-- The order of `sort_by_key(|n| Reverse(n.max_depth()))`: deeper branches first. -/
def deeperFirst (a b : Node H N V) : Bool := decide (b.maxDepth ≤ a.maxDepth)

mutual
/-- Sort every children list of the subtree, deepest branch first. The source sorts a list before it descends;
the children's depths do not depend on their own order, so descending first gives the same lists. -/
def rebalance : Node H N V → Node H N V
  | ⟨h, n, d, cs⟩ => ⟨h, n, d, (rebalanceList cs).mergeSort deeperFirst⟩
/-- `rebalance` on each node of a list. -/
def rebalanceList : List (Node H N V) → List (Node H N V)
  | [] => []
  | c :: cs => rebalance c :: rebalanceList cs
end

theorem rebalanceList_eq (cs : List (Node H N V)) : rebalanceList cs = cs.map rebalance := by
  induction cs with
  | nil => simp [rebalanceList]
  | cons c cs ih => simp [rebalanceList, ih]

@[simp] theorem rebalance_mk (h : H) (n : N) (d : V) (cs : List (Node H N V)) :
    rebalance ⟨h, n, d, cs⟩ = ⟨h, n, d, (cs.map rebalance).mergeSort deeperFirst⟩ := by
  simp [rebalance, rebalanceList_eq]

@[simp] theorem rebalance_hash (n : Node H N V) : n.rebalance.hash = n.hash := by cases n; simp
@[simp] theorem rebalance_number (n : Node H N V) : n.rebalance.number = n.number := by cases n; simp
@[simp] theorem rebalance_data (n : Node H N V) : n.rebalance.data = n.data := by cases n; simp

/-! ## Index paths -/

/-- The node at an index path below `n`. -/
def getAt : Node H N V → List Nat → Option (Node H N V)
  | n, [] => some n
  | n, i :: p => n.children[i]?.bind (fun c => c.getAt p)

/-- Apply `f` to the node at an index path below `n`. -/
def modifyAt (f : Node H N V → Node H N V) : Node H N V → List Nat → Node H N V
  | n, [] => f n
  | n, i :: p => { n with children := n.children.modify i (fun c => c.modifyAt f p) }

@[simp] theorem modifyAt_hash (f : Node H N V → Node H N V) (n : Node H N V) (i : Nat) (p : List Nat) :
    (n.modifyAt f (i :: p)).hash = n.hash := rfl

@[simp] theorem modifyAt_number (f : Node H N V → Node H N V) (n : Node H N V) (i : Nat) (p : List Nat) :
    (n.modifyAt f (i :: p)).number = n.number := rfl

end Node

open Node

/-- The node at an index path from the roots: `roots[p₀].children[p₁]…`. -/
def getPath (roots : List (Node H N V)) : List Nat → Option (Node H N V)
  | [] => none
  | i :: p => roots[i]?.bind (fun n => n.getAt p)

/-- Apply `f` to the node at an index path from the roots. -/
def modifyPath (f : Node H N V → Node H N V) (roots : List (Node H N V)) : List Nat → List (Node H N V)
  | [] => roots
  | i :: p => roots.modify i (fun n => n.modifyAt f p)

/-- Take the node at an index path out of the forest (`siblings.remove(idx)` at the end of the walk): the node,
and the forest without it. -/
def detachPath : List (Node H N V) → List Nat → Option (Node H N V × List (Node H N V))
  | _, [] => none
  | roots, [i] => roots[i]?.map (fun n => (n, roots.eraseIdx i))
  | roots, i :: j :: p => roots[i]?.bind (fun n =>
      (detachPath n.children (j :: p)).map (fun r => (r.1, roots.set i { n with children := r.2 })))

/-! ## The search of `find_node_index_where` -/

/-- What the search knows when it leaves a subtree. -/
inductive Found where
  /-- no ancestor of the target below: the search goes on with the next sibling -/
  | none
  /-- an ancestor was met (`is_descendent = true`), but no node from it upwards passed the predicate yet -/
  | descendent
  /-- a node that passes the predicate, by its child indices below the subtree's root -/
  | path (p : List Nat)
  deriving DecidableEq, Repr

section Search

variable [LinearOrder N] (hash : H) (number : N) (isDescendentOf : H → H → Bool) (predicate : V → Bool)

mutual
/-- The post-order search below one node. Children are visited in order while their number is below the target's; once
an ancestor is met (`descendent`) the other children are skipped and the nodes on the way back only test their value. -/
def searchNode : Node H N V → Found
  | ⟨h, _, d, cs⟩ =>
    match searchChildren cs 0 with
    | .path p => .path p
    | .descendent => if predicate d then .path [] else .descendent
    | .none =>
      if isDescendentOf h hash then (if predicate d then .path [] else .descendent) else .none
/-- The search through the children list from index `i` on. -/
def searchChildren : List (Node H N V) → Nat → Found
  | [], _ => .none
  | c :: cs, i =>
    if c.number < number then
      match searchNode c with
      | .path p => .path (i :: p)
      | .descendent => .descendent
      | .none => searchChildren cs (i + 1)
    else searchChildren cs (i + 1)
end

/-- The outer loop over the roots from index `i` on: roots whose number is not below the target's are skipped,
and once an ancestor has been met the search stops, found or not. -/
def searchRoots : List (Node H N V) → Nat → Option (List Nat)
  | [], _ => none
  | r :: rs, i =>
    if number ≤ r.number then searchRoots rs (i + 1)
    else
      match searchNode hash number isDescendentOf predicate r with
      | .path p => some (i :: p)
      | .descendent => none
      | .none => searchRoots rs (i + 1)

/-- `find_node_index_where`: the index path of the deepest ancestor of `hash` in the tree that passes the
predicate, if there is one. -/
def findNodeIndexWhere (roots : List (Node H N V)) : Option (List Nat) :=
  searchRoots hash number isDescendentOf predicate roots 0

end Search

/-! ## Size -/

/-- The node count of a forest, which the loop of `finalize_with_ancestors` decreases. -/
def forestSize (roots : List (Node H N V)) : Nat := (forestSubtrees roots).length

theorem forestSize_swapRemove_append {roots : List (Node H N V)} {idx : Nat} (h : idx < roots.length) :
    forestSize (swapRemove roots idx ++ roots[idx].children) + 1 = forestSize roots := by
  have hp := forestSubtrees_perm (swapRemove_perm h)
  have he : forestSubtrees roots = forestSubtrees (roots.take idx) ++ roots[idx].subtrees ++
      forestSubtrees (roots.drop (idx + 1)) := by
    calc forestSubtrees roots = forestSubtrees (roots.take idx ++ roots.drop idx) := by
          rw [List.take_append_drop]
      _ = _ := by rw [List.drop_eq_getElem_cons h, forestSubtrees_append, forestSubtrees_cons, List.append_assoc]
  simp only [forestSize, forestSubtrees_append, List.length_append, hp.length_eq, he,
    List.eraseIdx_eq_take_drop_succ, subtrees_eq roots[idx], List.length_cons]
  omega

theorem forestSize_swapRemove_lt {roots : List (Node H N V)} {idx : Nat} (h : idx < roots.length) :
    forestSize (swapRemove roots idx) < forestSize roots := by
  have := forestSize_swapRemove_append h
  simp only [forestSize, forestSubtrees_append, List.length_append] at this ⊢
  omega

theorem length_le_forestSize (roots : List (Node H N V)) : roots.length ≤ forestSize roots := by
  induction roots with
  | nil => simp [forestSize]
  | cons r rs ih =>
    simp only [forestSize, forestSubtrees_cons, List.length_append, subtrees_eq r, List.length_cons] at ih ⊢
    omega

/-- The node iterator `node_iter`: the whole tree in pre-order. -/
def ForkTree.nodeIter (t : ForkTree H N V) : List (Node H N V) := forestSubtrees t.roots

/-- The items of a `RemovedIterator` over `stack`: nodes are popped from the end and their children pushed in
reverse, so each removed subtree is listed in pre-order, the last pushed first. -/
def removedItems (stack : List (Node H N V)) : List (H × N × V) :=
  (forestSubtrees stack.reverse).map (fun n => (n.hash, n.number, n.data))

end CoreChain.Fork

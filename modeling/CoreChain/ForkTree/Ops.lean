import CoreChain.ForkTree.Basic

/-!
# Fork trees: the operations

The mutating operations of `ForkTree` (`substrate/utils/fork-tree/src/lib.rs`), each as a function from the
tree to its result and the new tree. Every error of the source is returned before the tree is touched, so an
`Except.error` leaves the tree as it was.

- `import` (lines 121-169) hangs a new leaf below the deepest ancestor that `find_node_index_where` finds;
- `finalizeRoot`, `finalize`, `finalizeWithAncestors` and `finalizeWithDescendentIf` (lines 437-705) make a
  block final and drop what competes with it;
- `prune` (lines 353-435) re-roots the tree at an ancestor of a block;
- `drainFilter` (lines 716-772) removes subtrees chosen by a filter.
-/

namespace CoreChain.Fork

open Node

variable {H N V : Type _} [DecidableEq H] [LinearOrder N]

/-- `rebalance`: sort the roots and every children list, deepest branch first. -/
def ForkTree.rebalance (t : ForkTree H N V) : ForkTree H N V :=
  { t with roots := (rebalanceList t.roots).mergeSort deeperFirst }

/-- The guard shared by `import` and the finalizations: nothing at or below the last finalized number. -/
def ForkTree.reverts (t : ForkTree H N V) (number : N) : Bool :=
  t.bestFinalizedNumber.any (fun best => decide (number ≤ best))

/-! ## Import -/

/-- `import`: put a new leaf below the deepest ancestor of `hash` in the tree, or make it a root when there is
none. A hash already among the chosen siblings is a `Duplicate`. Returns whether the leaf is a root. -/
def ForkTree.import (t : ForkTree H N V) (hash : H) (number : N) (data : V) (isDescendentOf : H → H → Bool) :
    Except Error (Bool × ForkTree H N V) :=
  if t.reverts number then .error .revert else
  let leaf : Node H N V := ⟨hash, number, data, []⟩
  match findNodeIndexWhere hash number isDescendentOf (fun _ => true) t.roots with
  | some path =>
    -- the path of a found node always leads to a node (`findNodeIndexWhere_valid`)
    let children := ((getPath t.roots path).map Node.children).getD []
    if children.any (fun c => c.hash == hash) then .error .duplicate else
    let t' := { t with roots := modifyPath (fun p => { p with children := p.children ++ [leaf] }) t.roots path }
    -- rebalance only when the branch got deeper, i.e. the parent had no child yet
    .ok (false, if children.length + 1 = 1 then t'.rebalance else t')
  | none =>
    if t.roots.any (fun c => c.hash == hash) then .error .duplicate else
    let t' := { t with roots := t.roots ++ [leaf] }
    .ok (true, if t.roots.length + 1 = 1 then t'.rebalance else t')

/-! ## Finalization -/

/-- `finalize_root_at`: the root `node` is final; its children become the roots, the other roots are dropped. -/
def ForkTree.finalizeRootAt (_t : ForkTree H N V) (node : Node H N V) : V × ForkTree H N V :=
  (node.data, ⟨node.children, some node.number⟩)

/-- `finalize_root`: finalize the first root with this hash, if any. -/
def ForkTree.finalizeRoot (t : ForkTree H N V) (hash : H) : Option (V × ForkTree H N V) :=
  (t.roots.find? (fun r => r.hash == hash)).map t.finalizeRootAt

/-- `finalize`: a root with this hash is finalized; otherwise the block must not lie below a root
(`UnfinalizedAncestor`), and only the roots below it are kept. -/
def ForkTree.finalize (t : ForkTree H N V) (hash : H) (number : N) (isDescendentOf : H → H → Bool) :
    Except Error (FinalizationResult V × ForkTree H N V) :=
  if t.reverts number then .error .revert else
  match t.finalizeRoot hash with
  | some (v, t') => .ok (.changed (some v), t')
  | none =>
    if t.roots.any (fun r => decide (r.number < number) && isDescendentOf r.hash hash) then
      .error .unfinalizedAncestor
    else
      let keep := fun (r : Node H N V) => decide (number < r.number) && isDescendentOf hash r.hash
      let changed := t.roots.any (fun r => !keep r)
      .ok (if changed then .changed none else .unchanged, ⟨t.roots.filter keep, some number⟩)

section WithAncestors

variable (hash : H) (number : N) (isDescendentOf : H → H → Bool)

/-- The `while idx != self.roots.len()` loop of `finalize_with_ancestors`: a root equal to the block is finalized at
once (`finalize_root_at`); a root below it stays; a root above it is opened (`swap_remove`, then its children appended);
one on another branch is dropped. Returns the result, the roots and the new best finalized number. -/
def finalizeAncestorsLoop (roots : List (Node H N V)) (idx : Nat) (changed : Bool) :
    FinalizationResult V × List (Node H N V) × N :=
  if h : idx < roots.length then
    let root := roots[idx]
    let isFinalized := root.hash == hash
    let isDescendant := !isFinalized && decide (number < root.number) && isDescendentOf hash root.hash
    let isAncestor := !isFinalized && !isDescendant && decide (root.number < number) &&
      isDescendentOf root.hash hash
    if isFinalized then (.changed (some root.data), root.children, root.number)
    else if isDescendant then finalizeAncestorsLoop roots (idx + 1) changed
    else if isAncestor then finalizeAncestorsLoop (swapRemove roots idx ++ root.children) idx true
    else finalizeAncestorsLoop (swapRemove roots idx) idx true
  else (if changed then .changed none else .unchanged, roots, number)
termination_by 2 * forestSize roots - idx
decreasing_by
  all_goals have hl := length_le_forestSize roots
  · omega
  · have := forestSize_swapRemove_append h
    omega
  · have := forestSize_swapRemove_lt h
    omega

end WithAncestors

/-- `finalize_with_ancestors`: finalize the block and every ancestor of it in the tree. -/
def ForkTree.finalizeWithAncestors (t : ForkTree H N V) (hash : H) (number : N) (isDescendentOf : H → H → Bool) :
    Except Error (FinalizationResult V × ForkTree H N V) :=
  if t.reverts number then .error .revert else
  match t.finalizeRoot hash with
  | some (v, t') => .ok (.changed (some v), t')
  | none =>
    let (r, roots, best) := finalizeAncestorsLoop hash number isDescendentOf t.roots 0 false
    .ok (r, ⟨roots, some best⟩)

/-- `finalize_with_descendent_if`: the first root passing the predicate that is the block or above it is
finalized, unless one of its children is the block or above it (`UnfinalizedAncestor`); then only the roots on
the block's branch are kept. -/
def ForkTree.finalizeWithDescendentIf (t : ForkTree H N V) (hash : H) (number : N)
    (isDescendentOf : H → H → Bool) (predicate : V → Bool) :
    Except Error (FinalizationResult V × ForkTree H N V) :=
  if t.reverts number then .error .revert else
  let onBranch := fun (n : Node H N V) => n.hash == hash || isDescendentOf n.hash hash
  match t.roots.find? (fun r => predicate r.data && onBranch r) with
  | some root =>
    if root.children.any (fun c => decide (c.number ≤ number) && onBranch c) then .error .unfinalizedAncestor
    else .ok (retainOnBranch root.children (some root.data))
  | none => .ok (retainOnBranch t.roots none)
where
  /-- The retain loop after the optional finalization, and the result. -/
  retainOnBranch (roots : List (Node H N V)) (nodeData : Option V) : FinalizationResult V × ForkTree H N V :=
    let retain := fun (r : Node H N V) =>
      decide (number < r.number) && isDescendentOf hash r.hash ||
        decide (r.number = number) && r.hash == hash || isDescendentOf r.hash hash
    let changed := roots.any (fun r => !retain r)
    let result := match nodeData, changed with
      | some d, _ => .changed (some d)
      | none, true => .changed none
      | none, false => .unchanged
    (result, ⟨roots.filter retain, some number⟩)

/-! ## Pruning -/

section Prune

variable (hash : H) (number : N) (isDescendentOf : H → H → Bool)

/-- The last filter of `prune`: the children that are the block itself or lie below it. -/
def pruneKeeps (c : Node H N V) : Bool :=
  decide (c.number = number) && c.hash == hash || decide (number < c.number) && isDescendentOf hash c.hash

mutual
/-- The walk of `prune` below the new root: the first child that is an ancestor of the block is kept alone and walked
into; with none, only the children `pruneKeeps` stay. Returns the pruned node and what was removed below it, in the
source's order. -/
def pruneNode : Node H N V → Node H N V × List (Node H N V)
  | ⟨h, n, d, cs⟩ =>
    match pruneChildren cs with
    | some (next, siblings, removed) => (⟨h, n, d, [next]⟩, siblings ++ removed)
    | none => (⟨h, n, d, cs.filter (pruneKeeps hash number isDescendentOf)⟩,
        cs.filter (fun c => !pruneKeeps hash number isDescendentOf c))
/-- The first child that is an ancestor of the block, pruned, with its siblings and what was removed below it. -/
def pruneChildren : List (Node H N V) → Option (Node H N V × List (Node H N V) × List (Node H N V))
  | [] => none
  | c :: cs =>
    if decide (c.number < number) && isDescendentOf c.hash hash then
      let r := pruneNode c
      some (r.1, cs, r.2)
    else (pruneChildren cs).map (fun r => (r.1, c :: r.2.1, r.2.2))
end

end Prune

/-- `prune`: re-root the tree at the deepest ancestor of the block that passes the predicate, keeping below it the
block's ancestors and subtree only. Returns the removed nodes, as `RemovedIterator` lists them, and the new tree. -/
def ForkTree.prune (t : ForkTree H N V) (hash : H) (number : N) (isDescendentOf : H → H → Bool)
    (predicate : V → Bool) : List (H × N × V) × ForkTree H N V :=
  match findNodeIndexWhere hash number isDescendentOf predicate t.roots with
  | none => ([], t)
  | some path =>
    match detachPath t.roots path with
    -- the path of a found node always leads to a node (`findNodeIndexWhere_valid`)
    | none => ([], t)
    | some (root, rest) =>
      let r := pruneNode hash number isDescendentOf root
      (removedItems (rest ++ r.2), ({ t with roots := [r.1] } : ForkTree H N V).rebalance)

/-! ## Filtering -/

section Drain

variable (filter : H → N → V → FilterAction)

mutual
/-- The retained part of one subtree under `drain_filter`. -/
def drainNode : Node H N V → Option (Node H N V)
  | n@⟨h, num, d, cs⟩ =>
    match filter h num d with
    | .remove => none
    | .keepTree => some n
    | .keepNode => some ⟨h, num, d, drainForest cs⟩
/-- The retained part of a list of subtrees. -/
def drainForest : List (Node H N V) → List (Node H N V)
  | [] => []
  | c :: cs =>
    match drainNode c with
    | some c' => c' :: drainForest cs
    | none => drainForest cs
end

end Drain

/-- `drain_filter`: drop every subtree whose root the filter removes; below a `KeepTree` node nothing is
inspected. The tree is rebalanced when something was removed. -/
def ForkTree.drainFilter (t : ForkTree H N V) (filter : H → N → V → FilterAction) : ForkTree H N V :=
  let roots := drainForest filter t.roots
  let t' : ForkTree H N V := { t with roots := roots }
  if forestSize roots = forestSize t.roots then t' else t'.rebalance

end CoreChain.Fork

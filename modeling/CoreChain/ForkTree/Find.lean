import CoreChain.ForkTree.Search

/-!
# Fork trees: the stack machine of `find_node_index_where`

The source searches the tree without recursion. A stack holds one entry for each node on the current path, with the
index of the **next** child to visit; the inner loop pops an entry, pushes it back with the index advanced and the
child on top while children remain, and otherwise tests the node itself. Once an ancestor of the target is met
(`is_descendent`), no further child is entered and the loop only climbs, testing the predicate on each node it pops;
on success it breaks with the path of the found node left on the stack.

`popLoop`, `rootLoop` and `findNodeIndexWhereStack` are these loops as the source writes them, the stack's top
first. They compute the recursive search of `Basic` (`findNodeIndexWhereStack_eq`): the inner loop run from a node
with index `0` ends where the recursive search of the node says (`popLoop_node`), and after a success the stack holds
exactly the entries `pathStack` builds from the found path, from which the path is read back (`pathStack_indices`).
`findNodeWhere` walks the returned path as `find_node_where` does and reaches `getPath` (`findNodeWhere_eq`).
-/

namespace CoreChain.Fork

open Node TreeOrder

variable {H N V : Type _}

theorem forestSize_cons (c : Node H N V) (cs : List (Node H N V)) :
    forestSize (c :: cs) = forestSize c.children + 1 + forestSize cs := by
  simp only [forestSize, forestSubtrees_cons, List.length_append, subtrees_eq c, List.length_cons]

/-- A stack entry `(node, i)` weighs one for the node and two for each node below its children from `i` on: every
turn of the inner loop lowers the weight of the stack. -/
def entryWeight (e : Node H N V × Nat) : Nat := 1 + 2 * forestSize (e.1.children.drop e.2)

/-! ## Index paths: the walk of `find_node_where`, and the stack left after a success -/

/-- The walk of `find_node_where` along an index path: the roots are indexed by the path's first entry and each
node's children by the next, the last index picking the node. An index out of range, a panic in the source, is
`none` here. -/
def walkPath (roots : List (Node H N V)) (path : List Nat) : Option (Node H N V) := do
  let children ← (path.take (path.length - 1)).foldlM (fun curr i => curr[i]?.map Node.children) roots
  let last ← path[path.length - 1]?
  children[last]?

theorem walkPath_cons_cons (roots : List (Node H N V)) (i j : Nat) (q : List Nat) :
    walkPath roots (i :: j :: q) = roots[i]?.bind (fun r => walkPath r.children (j :: q)) := by
  simp only [walkPath, List.length_cons, Nat.add_sub_cancel, List.take_succ_cons, List.foldlM_cons]
  cases roots[i]? <;> rfl

/-- Walking a path as `find_node_where` does reaches the node at the path. -/
theorem walkPath_eq (roots : List (Node H N V)) : ∀ p, walkPath roots p = getPath roots p
  | [] => rfl
  | [i] => by simp [walkPath, getPath, getAt]
  | i :: j :: q => by
    rw [walkPath_cons_cons, getPath]
    congr 1
    funext r
    rw [walkPath_eq r.children (j :: q), getPath, getAt]

/-- The stack the inner loop leaves when it finds the node at index path `p` below `n`: an entry for each node
strictly above the found one on the path, with the index after the child taken, the deepest first. -/
def pathStack : Node H N V → List Nat → List (Node H N V × Nat)
  | _, [] => []
  | n, j :: p =>
    match n.children[j]? with
    | some c => pathStack c p ++ [(n, j + 1)]
    | none => []

/-- Reading the entries back from the bottom of the stack gives the path. -/
theorem pathStack_indices {n m : Node H N V} : ∀ {p : List Nat}, n.getAt p = some m →
    (pathStack n p).reverse.map (fun e => e.2 - 1) = p
  | [], _ => rfl
  | j :: p, h => by
    simp only [getAt, Option.bind_eq_some_iff] at h
    obtain ⟨c, hc, hm⟩ := h
    simp only [pathStack, hc, List.reverse_append, List.reverse_singleton, List.map_cons, pathStack_indices hm, Nat.add_sub_cancel, List.singleton_append]

/-! ## The loops -/

section Stack

variable [LinearOrder N] (hash : H) (number : N) (isDescendentOf : H → H → Bool) (predicate : V → Bool)

/-- The inner loop `while let Some((node, i)) = stack.pop()`, the stack's top first. It returns `found`,
`is_descendent` and the stack it leaves: empty when it ran out, the path of the found node after the `break`. -/
def popLoop : List (Node H N V × Nat) → Bool → Bool × Bool × List (Node H N V × Nat)
  | [], isDescendent => (false, isDescendent, [])
  | (node, i) :: stack, isDescendent =>
    if h : i < node.children.length ∧ isDescendent = false then
      if node.children[i].number < number then
        popLoop ((node.children[i], 0) :: (node, i + 1) :: stack) isDescendent
      else popLoop ((node, i + 1) :: stack) isDescendent
    else if isDescendent || isDescendentOf node.hash hash then
      if predicate node.data then (true, true, stack) else popLoop stack true
    else popLoop stack isDescendent
termination_by stack _ => (stack.map entryWeight).sum
decreasing_by
  all_goals simp only [List.map_cons, List.sum_cons, entryWeight, List.drop_zero]
  · rw [List.drop_eq_getElem_cons h.1, forestSize_cons]
    omega
  · rw [List.drop_eq_getElem_cons h.1, forestSize_cons]
    omega
  · omega
  · omega

/-- The outer loop `while root_idx < self.roots.len()`: a root not numbered below the target is skipped; otherwise the
inner loop runs from it, and the outer loop breaks once an ancestor is met. Returns `root_idx`, the stack and `found`.
-/
def rootLoop (roots : List (Node H N V)) (rootIdx : Nat) (stack : List (Node H N V × Nat)) (found isDescendent : Bool) :
    Nat × List (Node H N V × Nat) × Bool :=
  if h : rootIdx < roots.length then
    if number ≤ roots[rootIdx].number then rootLoop roots (rootIdx + 1) stack found isDescendent
    else
      let r := popLoop hash number isDescendentOf predicate ((roots[rootIdx], 0) :: stack) isDescendent
      if r.2.1 then (rootIdx, r.2.2, found || r.1)
      else rootLoop roots (rootIdx + 1) r.2.2 (found || r.1) r.2.1
  else (rootIdx, stack, found)
termination_by roots.length - rootIdx

/-- The result from the state the loops leave: when found, the root index followed by the index before each stack
entry's next one, from the bottom of the stack up. -/
def readPath (r : Nat × List (Node H N V × Nat) × Bool) : Option (List Nat) :=
  if r.2.2 then some (r.1 :: r.2.1.reverse.map (fun e => e.2 - 1)) else none

/-- `find_node_index_where` as the source computes it. -/
def findNodeIndexWhereStack (roots : List (Node H N V)) : Option (List Nat) :=
  readPath (rootLoop hash number isDescendentOf predicate roots 0 [] false false)

/-- `find_node_where`, and `find_node_where_mut`, which walks the same indices. -/
def findNodeWhere (roots : List (Node H N V)) : Option (Node H N V) :=
  (findNodeIndexWhereStack hash number isDescendentOf predicate roots).bind (walkPath roots)

end Stack

/-! ## The loops compute the recursive search -/

section Refinement

variable [LinearOrder N] (hash : H) (number : N) (isDescendentOf : H → H → Bool) (predicate : V → Bool)

/-- What the search of a node makes of what the search of its children found: the node is tested itself once its
children are done, when an ancestor was met below it or it is one. -/
def leaveNode (n : Node H N V) : Found → Found
  | .path p => .path p
  | .descendent => if predicate n.data then .path [] else .descendent
  | .none => if isDescendentOf n.hash hash then (if predicate n.data then .path [] else .descendent) else .none

theorem searchNode_eq_leaveNode (n : Node H N V) :
    searchNode hash number isDescendentOf predicate n =
      leaveNode hash isDescendentOf predicate n (searchChildren hash number isDescendentOf predicate n.children 0) := by
  obtain ⟨h, num, d, cs⟩ := n
  rw [searchNode]
  rfl

/-- Where the inner loop goes once it has left the subtree of `n`, with `stack` below, given what the recursive
search found there. -/
def afterSubtree (n : Node H N V) (stack : List (Node H N V × Nat)) : Found → Bool × Bool × List (Node H N V × Nat)
  | .path p => (true, true, pathStack n p ++ stack)
  | .descendent => popLoop hash number isDescendentOf predicate stack true
  | .none => popLoop hash number isDescendentOf predicate stack false

/-- Once an ancestor has been met, the inner loop only climbs: it tests each node it pops. -/
theorem popLoop_climb (n : Node H N V) (i : Nat) (stack : List (Node H N V × Nat)) :
    popLoop hash number isDescendentOf predicate ((n, i) :: stack) true =
      if predicate n.data then (true, true, stack) else popLoop hash number isDescendentOf predicate stack true := by
  rw [popLoop, dif_neg (by simp), Bool.true_or, if_pos rfl]

/-- With the children from `i` on done, the inner loop tests the node as the recursive search does. -/
theorem popLoop_done (n : Node H N V) (i : Nat) (stack : List (Node H N V × Nat)) (hi : n.children.length ≤ i) :
    popLoop hash number isDescendentOf predicate ((n, i) :: stack) false =
      afterSubtree hash number isDescendentOf predicate n stack (leaveNode hash isDescendentOf predicate n .none) := by
  rw [popLoop, dif_neg (by omega), Bool.false_or]
  -- the node is tested when it is an ancestor itself; otherwise the loop goes on below
  by_cases hd : isDescendentOf n.hash hash = true
  · by_cases hp : predicate n.data = true
    · simp [leaveNode, afterSubtree, pathStack, hd, hp]
    · simp [leaveNode, afterSubtree, hd, hp]
  · simp [leaveNode, afterSubtree, hd]

/-- The inner loop over the children of `n` from index `i` on, given that it computes the recursive search below
each child: it ends where the recursive search of the children from `i` on, and then of `n`, says. -/
theorem popLoop_children (n : Node H N V)
    (hc : ∀ c ∈ n.children, ∀ stack, popLoop hash number isDescendentOf predicate ((c, 0) :: stack) false =
      afterSubtree hash number isDescendentOf predicate c stack (searchNode hash number isDescendentOf predicate c))
    (stack : List (Node H N V × Nat)) :
    ∀ (ds : List (Node H N V)) (i : Nat), n.children.drop i = ds →
      popLoop hash number isDescendentOf predicate ((n, i) :: stack) false =
        afterSubtree hash number isDescendentOf predicate n stack
          (leaveNode hash isDescendentOf predicate n (searchChildren hash number isDescendentOf predicate ds i)) := by
  intro ds
  induction ds with
  | nil =>
    intro i hi
    rw [popLoop_done _ _ _ _ _ _ _ (List.drop_eq_nil_iff.mp hi), searchChildren]
  | cons c ds ih =>
    intro i hi
    have hlt : i < n.children.length := by
      by_contra hge
      rw [List.drop_eq_nil_of_le (by omega)] at hi
      cases hi
    rw [List.drop_eq_getElem_cons hlt, List.cons.injEq] at hi
    obtain ⟨rfl, hds⟩ := hi
    rw [popLoop, dif_pos ⟨hlt, rfl⟩, searchChildren]
    by_cases hn : n.children[i].number < number
    · -- the child is entered: the loop runs through its subtree with `(n, i + 1)` below
      rw [if_pos hn, if_pos hn, hc _ (List.getElem_mem hlt)]
      cases hs : searchNode hash number isDescendentOf predicate n.children[i] with
      | path p =>
        simp [afterSubtree, leaveNode, pathStack, List.getElem?_eq_getElem hlt]
      | descendent =>
        rw [afterSubtree, popLoop_climb]
        by_cases hp : predicate n.data = true
        · simp [leaveNode, afterSubtree, pathStack, hp]
        · simp [leaveNode, afterSubtree, hp]
      | none => exact ih (i + 1) hds
    · rw [if_neg hn, if_neg hn]
      exact ih (i + 1) hds

/-- The inner loop started from a node with index `0` computes the recursive search of the node. -/
theorem popLoop_node (n : Node H N V) (stack : List (Node H N V × Nat)) :
    popLoop hash number isDescendentOf predicate ((n, 0) :: stack) false =
      afterSubtree hash number isDescendentOf predicate n stack (searchNode hash number isDescendentOf predicate n) := by
  induction n using Node.ind generalizing stack with
  | h h num d cs ih =>
    rw [searchNode_eq_leaveNode]
    exact popLoop_children hash number isDescendentOf predicate ⟨h, num, d, cs⟩ (fun c hc s => ih c hc s) stack cs 0
      (List.drop_zero)

/-- The outer loop from root index `i` on, with an empty stack and nothing met yet, computes the recursive search
of the roots from `i` on. -/
theorem rootLoop_eq (roots : List (Node H N V)) :
    ∀ (ds : List (Node H N V)) (i : Nat), roots.drop i = ds →
      readPath (rootLoop hash number isDescendentOf predicate roots i [] false false) =
        searchRoots hash number isDescendentOf predicate ds i := by
  intro ds
  induction ds with
  | nil =>
    intro i hi
    rw [rootLoop, dif_neg (by have := List.drop_eq_nil_iff.mp hi; omega)]
    rfl
  | cons r ds ih =>
    intro i hi
    have hlt : i < roots.length := by
      by_contra hge
      rw [List.drop_eq_nil_of_le (by omega)] at hi
      cases hi
    rw [List.drop_eq_getElem_cons hlt, List.cons.injEq] at hi
    obtain ⟨rfl, hds⟩ := hi
    rw [rootLoop, dif_pos hlt, searchRoots]
    by_cases hn : number ≤ roots[i].number
    · rw [if_pos hn, if_pos hn]
      exact ih (i + 1) hds
    · rw [if_neg hn, if_neg hn]
      dsimp only
      rw [popLoop_node]
      cases hs : searchNode hash number isDescendentOf predicate roots[i] with
      | path p =>
        -- the path is read back from the stack the inner loop left
        obtain ⟨m, hm⟩ := searchNode_path hash number isDescendentOf predicate _ p hs
        simp [afterSubtree, readPath, pathStack_indices hm]
      | descendent => simp [afterSubtree, popLoop, readPath]
      | none =>
        simp only [afterSubtree, popLoop, Bool.false_eq_true, if_false, Bool.or_false]
        exact ih (i + 1) hds

/-- `find_node_index_where` as the source computes it is the recursive search, for every oracle and predicate. -/
theorem findNodeIndexWhereStack_eq (roots : List (Node H N V)) :
    findNodeIndexWhereStack hash number isDescendentOf predicate roots =
      findNodeIndexWhere hash number isDescendentOf predicate roots :=
  rootLoop_eq hash number isDescendentOf predicate roots roots 0 List.drop_zero

/-- `find_node_where` reaches the node at the path `find_node_index_where` returns. -/
theorem findNodeWhere_eq (roots : List (Node H N V)) :
    findNodeWhere hash number isDescendentOf predicate roots =
      (findNodeIndexWhere hash number isDescendentOf predicate roots).bind (getPath roots) := by
  rw [findNodeWhere, findNodeIndexWhereStack_eq]
  congr 1
  funext p
  exact walkPath_eq roots p

/-- The outer loop is the search of a children list, except that meeting an ancestor that fails the predicate
ends it with nothing. -/
def Found.toPath : Found → Option (List Nat)
  | .path p => some p
  | _ => Option.none

theorem searchRoots_eq (rs : List (Node H N V)) (i : Nat) :
    searchRoots hash number isDescendentOf predicate rs i =
      (searchChildren hash number isDescendentOf predicate rs i).toPath := by
  induction rs generalizing i with
  | nil => rfl
  | cons r rs ih =>
    rw [searchRoots, searchChildren]
    by_cases hn : number ≤ r.number
    · rw [if_pos hn, if_neg (not_lt.mpr hn), ih]
    · rw [if_neg hn, if_pos (lt_of_not_ge hn)]
      cases searchNode hash number isDescendentOf predicate r with
      | path p => rfl
      | descendent => rfl
      | none => exact ih (i + 1)

end Refinement

/-! ## What the search finds, for any predicate -/

section Spec

variable [LinearOrder N] (T : TreeOrder H N) (b : H) (number : N) (predicate : V → Bool)

/-- A strict ancestor of the target `(b, number)`: above it in the block tree and numbered below it. -/
def StrictAncestor (m : Node H N V) : Prop := T.desc m.hash b ∧ m.number < number

/-- What a search result says of the subtree of `n`: no strict ancestor of the target in it; an ancestor met at or below
`n`, with no strict ancestor below it passing the predicate; or the path of a strict ancestor that passes the predicate,
below every other one that does. -/
def FoundSpec (r : Found) (n : Node H N V) : Prop :=
  (r = .none ∧ ∀ m ∈ n.subtrees, ¬ StrictAncestor T b number m) ∨
  (r = .descendent ∧ T.desc n.hash b ∧
    ∀ m ∈ n.subtrees, StrictAncestor T b number m → predicate m.data = false) ∨
  ∃ p P, r = .path p ∧ n.getAt p = some P ∧ StrictAncestor T b number P ∧ predicate P.data = true ∧
    ∀ m ∈ n.subtrees, StrictAncestor T b number m → predicate m.data = true → T.Below m.hash P.hash

variable {T b number predicate} {ok : H → N → Prop}

/-- A subtree whose root is numbered at least the target's holds no strict ancestor of it: numbers grow downwards.
This is why the search may skip it. -/
theorem not_strictAncestor_of_le {n : Node H N V} (hg : n.Good T ok) (hle : number ≤ n.number) :
    ∀ m ∈ n.subtrees, ¬ StrictAncestor T b number m := by
  intro m hm ha
  have hnm : n.number ≤ m.number := (hg.below_of_mem m hm).2
  exact absurd (lt_of_le_of_lt (hle.trans hnm) ha.2) (lt_irrefl _)

/-- A subtree holding a strict ancestor of the target lies above the target. -/
theorem desc_of_strictAncestor {n m : Node H N V} (hg : n.Good T ok) (hm : m ∈ n.subtrees)
    (ha : StrictAncestor T b number m) : T.desc n.hash b :=
  desc_of_below_of_desc (hg.below_of_mem m hm).1 ha.1

/-- The search of a children list: nothing in it, an ancestor met in one child (whose siblings hold no strict ancestor),
or the path of the deepest strict ancestor passing the predicate; siblings lie on different branches, so at most one
lies above the target. -/
theorem searchChildren_found {cs : List (Node H N V)} (hf : ForestGood T ok cs)
    (hc : ∀ c ∈ cs, c.number < number →
      FoundSpec T b number predicate (searchNode b number T.desc predicate c) c)
    (i : Nat) :
    (searchChildren b number T.desc predicate cs i = .none ∧
        ∀ m ∈ forestSubtrees cs, ¬ StrictAncestor T b number m) ∨
    (searchChildren b number T.desc predicate cs i = .descendent ∧ (∃ c ∈ cs, T.desc c.hash b) ∧
        ∀ m ∈ forestSubtrees cs, StrictAncestor T b number m → predicate m.data = false) ∨
    ∃ j c q P, searchChildren b number T.desc predicate cs i = .path ((i + j) :: q) ∧ cs[j]? = some c ∧
      c.getAt q = some P ∧ StrictAncestor T b number P ∧ predicate P.data = true ∧
      ∀ m ∈ forestSubtrees cs, StrictAncestor T b number m → predicate m.data = true → T.Below m.hash P.hash := by
  induction cs generalizing i with
  | nil => exact Or.inl ⟨rfl, by simp⟩
  | cons c cs ih =>
    obtain ⟨hg, hp⟩ := hf
    rw [List.map_cons, List.pairwise_cons] at hp
    have hgc := hg c List.mem_cons_self
    have hfs : ForestGood T ok cs := ⟨fun c' h' => hg c' (List.mem_cons_of_mem _ h'), hp.2⟩
    -- once `c` lies above the target, its later siblings, on other branches, hold no strict ancestor
    have others : T.desc c.hash b → ∀ m ∈ forestSubtrees cs, ¬ StrictAncestor T b number m := by
      intro hcb m hm ha
      obtain ⟨c', hc', hm'⟩ := mem_forestSubtrees.mp hm
      exact (hp.1 c'.hash (List.mem_map_of_mem hc')).not_desc_both hcb
        (desc_of_strictAncestor (hfs.1 c' hc') hm' ha)
    -- a child holding no strict ancestor leaves the answer to its later siblings
    have cont : (∀ m ∈ c.subtrees, ¬ StrictAncestor T b number m) →
        searchChildren b number T.desc predicate (c :: cs) i = searchChildren b number T.desc predicate cs (i + 1) →
        (searchChildren b number T.desc predicate (c :: cs) i = .none ∧
            ∀ m ∈ forestSubtrees (c :: cs), ¬ StrictAncestor T b number m) ∨
        (searchChildren b number T.desc predicate (c :: cs) i = .descendent ∧
            (∃ c' ∈ c :: cs, T.desc c'.hash b) ∧
            ∀ m ∈ forestSubtrees (c :: cs), StrictAncestor T b number m → predicate m.data = false) ∨
        ∃ j c' q P, searchChildren b number T.desc predicate (c :: cs) i = .path ((i + j) :: q) ∧
          (c :: cs)[j]? = some c' ∧ c'.getAt q = some P ∧ StrictAncestor T b number P ∧
          predicate P.data = true ∧ ∀ m ∈ forestSubtrees (c :: cs), StrictAncestor T b number m →
            predicate m.data = true → T.Below m.hash P.hash := by
      intro hna hs
      rw [hs, forestSubtrees_cons]
      rcases ih hfs (fun c' h' => hc c' (List.mem_cons_of_mem _ h')) (i + 1) with
        ⟨hr, hra⟩ | ⟨hr, ⟨c', hc', hd⟩, hra⟩ | ⟨j, c', q, P, hr, hj, hq, hP, hpP, hdeep⟩
      · refine Or.inl ⟨hr, fun m hm => ?_⟩
        rcases List.mem_append.mp hm with hm | hm
        · exact hna m hm
        · exact hra m hm
      · refine Or.inr (Or.inl ⟨hr, ⟨c', List.mem_cons_of_mem _ hc', hd⟩, fun m hm ha => ?_⟩)
        rcases List.mem_append.mp hm with hm | hm
        · exact absurd ha (hna m hm)
        · exact hra m hm ha
      · refine Or.inr (Or.inr ⟨j + 1, c', q, P, by rw [hr]; congr 2; omega, hj, hq, hP, hpP, fun m hm ha hpm => ?_⟩)
        rcases List.mem_append.mp hm with hm | hm
        · exact absurd ha (hna m hm)
        · exact hdeep m hm ha hpm
    by_cases hlt : c.number < number
    · rcases hc c List.mem_cons_self hlt with ⟨hn, hna⟩ | ⟨hd, hcb, hnp⟩ | ⟨p, P, hr, hP, hPa, hpP, hdeep⟩
      · exact cont hna (by simp [searchChildren, hlt, hn])
      · -- an ancestor met below `c` ends the search of the list
        refine Or.inr (Or.inl ⟨by simp [searchChildren, hlt, hd], ⟨c, List.mem_cons_self, hcb⟩, fun m hm ha => ?_⟩)
        rcases List.mem_append.mp (forestSubtrees_cons c cs ▸ hm) with hm | hm
        · exact hnp m hm ha
        · exact absurd ha (others hcb m hm)
      · have hcb : T.desc c.hash b := desc_of_strictAncestor hgc (getAt_mem hP) hPa
        refine Or.inr (Or.inr ⟨0, c, p, P, by simp [searchChildren, hlt, hr], rfl, hP, hPa, hpP, fun m hm ha hpm => ?_⟩)
        rcases List.mem_append.mp (forestSubtrees_cons c cs ▸ hm) with hm | hm
        · exact hdeep m hm ha hpm
        · exact absurd ha (others hcb m hm)
    · exact cont (not_strictAncestor_of_le hgc (not_lt.mp hlt)) (by simp [searchChildren, hlt])

/-- The search below one node numbered below the target, by induction on the shape invariant. -/
theorem searchNode_found {n : Node H N V} (hg : n.Good T ok) (hn : n.number < number) :
    FoundSpec T b number predicate (searchNode b number T.desc predicate n) n := by
  induction hg with
  | @mk h num d cs hok he hg hp ih =>
    have hgn : Node.Good T ok ⟨h, num, d, cs⟩ := ⟨hok, he, hg, hp⟩
    rw [searchNode_eq_leaveNode]
    simp only [FoundSpec, subtrees_mk, List.forall_mem_cons]
    rcases searchChildren_found ⟨hg, hp⟩ (fun c hc hlt => ih c hc hlt) 0 with
      ⟨hr, hna⟩ | ⟨hr, ⟨c, hc, hcb⟩, hnp⟩ | ⟨j, c, q, P, hr, hj, hq, hPa, hpP, hdeep⟩
    · -- nothing below: the node is tested itself, as the last of its subtree
      rw [hr]
      by_cases hdb : T.desc h b = true
      · by_cases hpd : predicate d = true
        · refine Or.inr (Or.inr ⟨[], _, by simp [leaveNode, hdb, hpd], rfl, ⟨hdb, hn⟩, hpd, ?_⟩)
          exact ⟨fun _ _ => Below.refl T h, fun m hm ha => absurd ha (hna m hm)⟩
        · refine Or.inr (Or.inl ⟨by simp [leaveNode, hdb, hpd], hdb, ?_⟩)
          exact ⟨fun _ => by simpa using hpd, fun m hm ha => absurd ha (hna m hm)⟩
      · exact Or.inl ⟨by simp [leaveNode, hdb], fun ha => hdb ha.1, hna⟩
    · -- an ancestor below: the node lies above the target and only its value is tested
      have hdb : T.desc h b := T.desc_trans (he c hc).2 hcb
      rw [hr]
      by_cases hpd : predicate d = true
      · refine Or.inr (Or.inr ⟨[], _, by simp [leaveNode, hpd], rfl, ⟨hdb, hn⟩, hpd, ?_⟩)
        refine ⟨fun _ _ => Below.refl T h, fun m hm ha hpm => ?_⟩
        rw [hnp m hm ha] at hpm
        cases hpm
      · exact Or.inr (Or.inl ⟨by simp [leaveNode, hpd], hdb, fun _ => by simpa using hpd, hnp⟩)
    · -- found below: the node, above the found one, can only be an ancestor passing the predicate above it
      have hP : getAt ⟨h, num, d, cs⟩ (j :: q) = some P := by simp [getAt, hj, hq]
      refine Or.inr (Or.inr ⟨j :: q, P, by simp [leaveNode, hr], hP, hPa, hpP, ?_, hdeep⟩)
      exact fun _ _ => (hgn.below_of_mem P (getAt_mem hP)).1

variable (b number predicate) in
/-- `find_node_index_where` in a good forest: nothing when no strict ancestor of the target passes the predicate,
and otherwise the path of one that does and lies below every other that does. -/
theorem findNodeIndexWhere_found {roots : List (Node H N V)} (hf : ForestGood T ok roots) :
    (findNodeIndexWhere b number T.desc predicate roots = none ∧
        ∀ m ∈ forestSubtrees roots, StrictAncestor T b number m → predicate m.data = false) ∨
    ∃ p P, findNodeIndexWhere b number T.desc predicate roots = some p ∧ getPath roots p = some P ∧
      StrictAncestor T b number P ∧ predicate P.data = true ∧
      ∀ m ∈ forestSubtrees roots, StrictAncestor T b number m → predicate m.data = true → T.Below m.hash P.hash := by
  rw [findNodeIndexWhere, searchRoots_eq]
  rcases searchChildren_found hf (fun c hc hlt => searchNode_found (hf.1 c hc) hlt) 0 with
    ⟨hr, hna⟩ | ⟨hr, -, hnp⟩ | ⟨j, c, q, P, hr, hj, hq, hPa, hpP, hdeep⟩
  · exact Or.inl ⟨by rw [hr]; rfl, fun m hm ha => absurd ha (hna m hm)⟩
  · exact Or.inl ⟨by rw [hr]; rfl, hnp⟩
  · exact Or.inr ⟨j :: q, P, by rw [hr, Nat.zero_add]; rfl, by simp [getPath, hj, hq], hPa, hpP, hdeep⟩

end Spec

/-- `find_node_index_where` and `find_node_where` in a forest whose children have larger numbers than their parents and
lie below them, with the roots and each node's children on pairwise different branches: a path is returned exactly when
a strict ancestor of the target passes the predicate; it leads to one that does, below every other that does, and
`find_node_where` returns the node there. -/
theorem find_node_index_where_deepest [LinearOrder N] (T : TreeOrder H N) {roots : List (Node H N V)}
    (hf : ForestGood T (fun _ _ => True) roots) (b : H) (number : N) (predicate : V → Bool) :
    ((findNodeIndexWhereStack b number T.desc predicate roots).isSome ↔
      ∃ m ∈ forestSubtrees roots, StrictAncestor T b number m ∧ predicate m.data = true) ∧
    (∀ p, findNodeIndexWhereStack b number T.desc predicate roots = some p →
      ∃ P, getPath roots p = some P ∧ StrictAncestor T b number P ∧ predicate P.data = true ∧
        ∀ m ∈ forestSubtrees roots, StrictAncestor T b number m → predicate m.data = true →
          T.Below m.hash P.hash) ∧
    findNodeWhere b number T.desc predicate roots =
      (findNodeIndexWhereStack b number T.desc predicate roots).bind (getPath roots) := by
  rw [findNodeWhere_eq, findNodeIndexWhereStack_eq]
  refine ⟨?_, ?_, rfl⟩
  · rcases findNodeIndexWhere_found b number predicate hf with
      ⟨hn, hno⟩ | ⟨p, P, hp, hP, hPa, hpP, -⟩
    · rw [hn, Option.isSome_none, Bool.false_eq_true, false_iff]
      rintro ⟨m, hm, ha, hpm⟩
      rw [hno m hm ha] at hpm
      cases hpm
    · rw [hp, Option.isSome_some]
      exact iff_of_true rfl ⟨P, getPath_mem hP, hPa, hpP⟩
  · intro p' hp'
    rcases findNodeIndexWhere_found b number predicate hf with
      ⟨hn, -⟩ | ⟨p, P, hp, hP, hPa, hpP, hdeep⟩
    · rw [hn] at hp'
      cases hp'
    · rw [hp, Option.some.injEq] at hp'
      exact hp' ▸ ⟨P, hP, hPa, hpP, hdeep⟩

/-- Three blocks in a chain below genesis, one root. -/
def chainOfThree : List (Node (List Nat) Nat Unit) := [⟨[0], 1, (), [⟨[0, 1], 2, (), [⟨[0, 1, 2], 3, (), []⟩]⟩]⟩]

theorem find_node_index_where_deepest_chainOfThree :
    ForestGood (prefixes Nat) (fun _ _ => True) chainOfThree ∧
    (((findNodeIndexWhereStack [0, 1, 2, 3] 4 (prefixes Nat).desc (fun _ => true) chainOfThree).isSome ↔
      ∃ m ∈ forestSubtrees chainOfThree, StrictAncestor (prefixes Nat) [0, 1, 2, 3] 4 m ∧
        (fun _ : Unit => true) m.data = true) ∧
    (∀ p, findNodeIndexWhereStack [0, 1, 2, 3] 4 (prefixes Nat).desc (fun _ => true) chainOfThree = some p →
      ∃ P, getPath chainOfThree p = some P ∧ StrictAncestor (prefixes Nat) [0, 1, 2, 3] 4 P ∧
        (fun _ : Unit => true) P.data = true ∧
        ∀ m ∈ forestSubtrees chainOfThree, StrictAncestor (prefixes Nat) [0, 1, 2, 3] 4 m →
          (fun _ : Unit => true) m.data = true → (prefixes Nat).Below m.hash P.hash) ∧
    findNodeWhere [0, 1, 2, 3] 4 (prefixes Nat).desc (fun _ => true) chainOfThree =
      (findNodeIndexWhereStack [0, 1, 2, 3] 4 (prefixes Nat).desc (fun _ => true) chainOfThree).bind
        (getPath chainOfThree)) := by
  have hg : ForestGood (prefixes Nat) (fun _ _ => True) chainOfThree := by
    simp [chainOfThree, ForestGood, good_iff]
    decide
  exact ⟨hg, find_node_index_where_deepest (prefixes Nat) hg [0, 1, 2, 3] 4 (fun _ => true)⟩

/-- Two children of genesis `[0]`, the second below the first: children numbered above their parent and below it
in the block tree, one root, but siblings on one branch. -/
def siblingsOnOneBranch : List (Node (List Nat) Nat Unit) :=
  [⟨[0], 1, (), [⟨[0, 1], 2, (), []⟩, ⟨[0, 1, 2], 3, (), []⟩]⟩]

/-- Without siblings on different branches the search stops at a shallower ancestor: for the target `[0, 1, 2, 3]`
it returns the first child `[0, 1]`, although the second, `[0, 1, 2]`, is a strict ancestor of the target below it. -/
theorem find_node_index_where_sibling_above :
    (∀ c ∈ (siblingsOnOneBranch.map Node.children).flatten,
      1 < c.number ∧ (prefixes Nat).desc [0] c.hash = true) ∧
    findNodeIndexWhereStack [0, 1, 2, 3] 4 (prefixes Nat).desc (fun _ => true) siblingsOnOneBranch = some [0, 0] ∧
    findNodeWhere [0, 1, 2, 3] 4 (prefixes Nat).desc (fun _ => true) siblingsOnOneBranch =
      some ⟨[0, 1], 2, (), []⟩ ∧
    getPath siblingsOnOneBranch [0, 1] = some ⟨[0, 1, 2], 3, (), []⟩ ∧
    StrictAncestor (prefixes Nat) [0, 1, 2, 3] 4 (⟨[0, 1, 2], 3, (), []⟩ : Node (List Nat) Nat Unit) ∧
    (prefixes Nat).desc [0, 1] [0, 1, 2] = true := by
  have hfind : findNodeIndexWhereStack [0, 1, 2, 3] 4 (prefixes Nat).desc (fun _ => true) siblingsOnOneBranch =
      some [0, 0] := by
    rw [findNodeIndexWhereStack_eq]
    decide
  refine ⟨by decide, hfind, ?_, rfl, ⟨by decide, by decide⟩, by decide⟩
  rw [findNodeWhere, hfind]
  rfl

end CoreChain.Fork

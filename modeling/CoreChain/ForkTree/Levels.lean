import CoreChain.ForkTree.Ops

/-!
# Fork trees: the breadth-first passes of `map` and `drain_filter`

Both functions flatten the forest level by level into a vector `output` of nodes tagged with the index of their
parent in it (`usize::MAX`, here `none`, for a root): the roots are queued in reverse, each queued node is appended
to `output` and, unless the pass stops there, its children are queued in reverse for the next level. The forest is
then rebuilt by popping `output` from the end, each node going to the end of its parent's children or of the roots.
The two differ only in what they do with a node (`Visit`): `map` keeps every node with a new value, `drain_filter`
drops a node with its subtree, keeps it whole, or keeps it and goes on with its children (`mapVisit`,
`drainVisit`). So the pass is written once (`Pass.step`, `Pass.run`, `rebuild`) and `ForkTree.map` and
`ForkTree.drainFilterQueue` are it at their own visits.

What the pass computes is the recursive `visitForest` (`rebuild_run_roots`): for `map` the forest with every value
replaced (`ForkTree.map_eq`), for `drain_filter` `drainForest` before its rebalance (`ForkTree.drainFilterQueue_spec`),
so that the queue model refines `ForkTree.drainFilter` (`ForkTree.drainFilterQueue_tree`). The proof follows one
invariant of the whole pass, over the queue of the current level followed by the next one: rebuilding `output`
with every queued node appended in its final, recursively visited form gives the same forest at every turn of the
inner loop (`rebuild_step`). The nodes the pass removes are those `droppedForest` names, in another order
(`removed_run_roots`), and with what stays they are the nodes of the tree before, each once
(`forestItems_drainForest`).
-/

namespace CoreChain.Fork

open Node

variable {H N V W : Type _}

/-- What the pass does with a node. -/
inductive Visit (H N V W : Type _) where
  /-- `FilterAction::Remove`: the node and its subtree leave the tree. -/
  | drop
  /-- `FilterAction::KeepTree`: this node stays, with everything below it. -/
  | keepTree (m : Node H N W)
  /-- `FilterAction::KeepNode`, and every node of `map`: the node stays with this value, and its children are
  visited in turn. -/
  | keepNode (data : W)

/-! ## The recursive reading -/

section Recursive

variable (visit : Node H N V → Visit H N V W)

mutual
/-- What remains of one subtree. -/
def visitNode : Node H N V → Option (Node H N W)
  | n@⟨h, num, _, cs⟩ =>
    match visit n with
    | .drop => none
    | .keepTree m => some m
    | .keepNode d => some ⟨h, num, d, visitForest cs⟩
/-- What remains of a list of subtrees. -/
def visitForest : List (Node H N V) → List (Node H N W)
  | [] => []
  | c :: cs =>
    match visitNode c with
    | some c' => c' :: visitForest cs
    | none => visitForest cs
end

mutual
/-- The subtrees the pass drops below one node, each with everything below it. -/
def droppedNode : Node H N V → List (Node H N V)
  | n@⟨_, _, _, cs⟩ =>
    match visit n with
    | .drop => [n]
    | .keepTree _ => []
    | .keepNode _ => droppedForest cs
/-- The subtrees the pass drops below a list of subtrees. -/
def droppedForest : List (Node H N V) → List (Node H N V)
  | [] => []
  | c :: cs => droppedNode c ++ droppedForest cs
end

theorem visitForest_eq_filterMap (cs : List (Node H N V)) :
    visitForest visit cs = cs.filterMap (visitNode visit) := by
  induction cs with
  | nil => rfl
  | cons c cs ih =>
    rw [visitForest, List.filterMap_cons]
    cases visitNode visit c with
    | none => exact ih
    | some c' => rw [ih]

theorem droppedForest_eq_flatMap (cs : List (Node H N V)) :
    droppedForest visit cs = cs.flatMap (droppedNode visit) := by
  induction cs with
  | nil => rfl
  | cons c cs ih => rw [droppedForest, List.flatMap_cons, ih]

end Recursive

/-! ## The pass -/

theorem forestSize_append (cs ds : List (Node H N V)) : forestSize (cs ++ ds) = forestSize cs + forestSize ds := by
  simp only [forestSize, forestSubtrees_append, List.length_append]

theorem forestSize_reverse (cs : List (Node H N V)) : forestSize cs.reverse = forestSize cs := by
  simp only [forestSize]
  exact (forestSubtrees_perm (List.reverse_perm cs)).length_eq

theorem forestSize_singleton (n : Node H N V) : forestSize [n] = forestSize n.children + 1 := by
  simp only [forestSize, forestSubtrees_cons, forestSubtrees_nil, List.append_nil, subtrees_eq n, List.length_cons]

/-- The state of the inner loop: `output`, `next_queue`, and the nodes removed so far. -/
structure Pass (H N V W : Type _) where
  output : List (Option Nat × Node H N W)
  nextQueue : List (Option Nat × Node H N V)
  removed : List (Node H N V)

section Pass

variable (visit : Node H N V → Visit H N V W)

/-- One turn of `for (parent_index, node) in queue.drain(..)`. A node kept for its children enters `output` without
them, at index `output.len()`, and its children are queued in reverse with that index. -/
def Pass.step (s : Pass H N V W) (e : Option Nat × Node H N V) : Pass H N V W :=
  match visit e.2 with
  | .drop => { s with removed := s.removed ++ [e.2] }
  | .keepTree m => { s with output := s.output ++ [(e.1, m)] }
  | .keepNode d =>
    { s with
      output := s.output ++ [(e.1, ⟨e.2.hash, e.2.number, d, []⟩)]
      nextQueue := s.nextQueue ++ e.2.children.reverse.map (fun c => (some s.output.length, c)) }

/-- A level queues at most the nodes below its own, and each of its nodes is one of those it takes away. -/
theorem forestSize_nextQueue_add (queue : List (Option Nat × Node H N V)) (s : Pass H N V W) :
    forestSize ((queue.foldl (Pass.step visit) s).nextQueue.map Prod.snd) + queue.length ≤
      forestSize (s.nextQueue.map Prod.snd) + forestSize (queue.map Prod.snd) := by
  induction queue generalizing s with
  | nil => simp
  | cons e queue ih =>
    have step := ih (Pass.step visit s e)
    have he : forestSize ((Pass.step visit s e).nextQueue.map Prod.snd) ≤
        forestSize (s.nextQueue.map Prod.snd) + forestSize e.2.children := by
      unfold Pass.step
      split
      · exact Nat.le_add_right _ _
      · exact Nat.le_add_right _ _
      · simp only [List.map_append, List.map_map, forestSize_append]
        have hc : (Prod.snd ∘ fun c => ((some s.output.length, c) : Option Nat × Node H N V)) = id := rfl
        rw [hc, List.map_id, forestSize_reverse]
    rw [List.foldl_cons, List.map_cons, List.length_cons, ← List.singleton_append, forestSize_append,
      forestSize_singleton]
    omega

/-- `while !queue.is_empty()`: the queue is drained into an empty `next_queue`, which then becomes the queue. -/
def Pass.run : List (Option Nat × Node H N V) → List (Option Nat × Node H N W) → List (Node H N V) →
    List (Option Nat × Node H N W) × List (Node H N V)
  | [], output, removed => (output, removed)
  | e :: queue, output, removed =>
    let s := (e :: queue).foldl (Pass.step visit) ⟨output, [], removed⟩
    Pass.run s.nextQueue s.output s.removed
termination_by queue => forestSize (queue.map Prod.snd)
decreasing_by
  have key := forestSize_nextQueue_add visit (e :: queue) ⟨output, [], removed⟩
  have h0 : forestSize ([] : List (Node H N V)) = 0 := rfl
  simp only [List.map_nil, h0, List.length_cons] at key
  omega

end Pass

/-- `output[parent_index].1.children.push(node)`. -/
def pushChild (node : Node H N W) (e : Option Nat × Node H N W) : Option Nat × Node H N W :=
  (e.1, { e.2 with children := e.2.children ++ [node] })

/-- `while let Some((parent_index, node)) = output.pop()`: a node without a parent becomes the next root, any
other goes to the end of its parent's children. An index out of range, a panic in the source, is `none`. -/
def rebuild : List (Option Nat × Node H N W) → List (Node H N W) → Option (List (Node H N W))
  | [], roots => some roots
  | e :: es, roots =>
    let output := (e :: es).dropLast
    match (e :: es).getLast (List.cons_ne_nil e es) with
    | (none, node) => rebuild output (roots ++ [node])
    | (some p, node) =>
      if p < output.length then
        rebuild (output.modify p (pushChild node)) roots
      else none
termination_by output => output.length
decreasing_by
  all_goals simp only [List.length_modify, List.length_dropLast, List.length_cons]
  all_goals omega

/-! ## Rebuilding -/

theorem modify_append_of_lt {α : Type _} {l₁ l₂ : List α} (f : α → α) {i : Nat} (h : i < l₁.length) :
    (l₁ ++ l₂).modify i f = l₁.modify i f ++ l₂ := by
  have h' : i < (l₁ ++ l₂).length := by rw [List.length_append]; omega
  rw [List.modify_eq_take_cons_drop h', List.modify_eq_take_cons_drop h, List.take_append_of_le_length (Nat.le_of_lt h),
    List.getElem_append_left h, List.drop_append_of_le_length (by omega), List.append_assoc, List.cons_append]

theorem modify_concat_length {α : Type _} (l : List α) (x : α) (f : α → α) :
    (l ++ [x]).modify l.length f = l ++ [f x] := by
  rw [List.modify_eq_take_cons_drop (by simp), List.take_left' rfl, List.getElem_concat_length rfl,
    List.drop_eq_nil_of_le (by simp)]

theorem rebuild_nil (roots : List (Node H N W)) : rebuild [] roots = some roots := by
  rw [rebuild]

/-- Popping a root. -/
theorem rebuild_append_none (output : List (Option Nat × Node H N W)) (node : Node H N W)
    (roots : List (Node H N W)) :
    rebuild (output ++ [(none, node)]) roots = rebuild output (roots ++ [node]) := by
  cases h : output ++ [(none, node)] with
  | nil => simp at h
  | cons e es =>
    have hl : (e :: es).getLast (List.cons_ne_nil e es) = (none, node) := by
      simp only [← h, List.getLast_append_singleton]
    have hd : (e :: es).dropLast = output := by rw [← h, List.dropLast_concat]
    rw [rebuild, hl, hd]

/-- Popping a node whose parent is in range. -/
theorem rebuild_append_some (output : List (Option Nat × Node H N W)) {p : Nat} (hp : p < output.length)
    (node : Node H N W) (roots : List (Node H N W)) :
    rebuild (output ++ [(some p, node)]) roots = rebuild (output.modify p (pushChild node)) roots := by
  cases h : output ++ [(some p, node)] with
  | nil => simp at h
  | cons e es =>
    have hl : (e :: es).getLast (List.cons_ne_nil e es) = (some p, node) := by
      simp only [← h, List.getLast_append_singleton]
    have hd : (e :: es).dropLast = output := by rw [← h, List.dropLast_concat]
    rw [rebuild, hl]
    simp only [hd, if_pos hp]

/-- Roots at the end of `output` are popped last first, so they come out in the order they were queued. -/
theorem rebuild_roots (ms acc : List (Node H N W)) :
    rebuild (ms.reverse.map (fun m => (none, m))) acc = some (acc ++ ms) := by
  induction ms generalizing acc with
  | nil => rw [List.reverse_nil, List.map_nil, rebuild_nil, List.append_nil]
  | cons m ms ih =>
    rw [List.reverse_cons, List.map_append, List.map_singleton, rebuild_append_none, ih, List.append_assoc,
      List.singleton_append]

/-- Nodes at the end of `output` whose parent is the entry at `i` are popped first and each goes to the end of its
children: the last one first, so they come out in the order they were queued. -/
theorem rebuild_append_children (output : List (Option Nat × Node H N W)) {i : Nat} (hi : i < output.length)
    (ms roots : List (Node H N W)) :
    rebuild (output ++ ms.reverse.map (fun m => (some i, m))) roots =
      rebuild (output.modify i (fun e => (e.1, { e.2 with children := e.2.children ++ ms }))) roots := by
  induction ms generalizing output with
  | nil =>
    have hid : (fun e : Option Nat × Node H N W => (e.1, { e.2 with children := e.2.children ++ [] })) = id := by
      funext e
      obtain ⟨p, ⟨h, num, d, cs⟩⟩ := e
      rw [List.append_nil]
      rfl
    rw [List.reverse_nil, List.map_nil, List.append_nil, hid, List.modify_id]
  | cons m ms ih =>
    have hi' : i < (output.modify i (pushChild m)).length := by rw [List.length_modify]; exact hi
    rw [List.reverse_cons, List.map_append, List.map_singleton, ← List.append_assoc,
      rebuild_append_some _ (by rw [List.length_append]; omega), modify_append_of_lt _ hi, ih _ hi',
      List.modify_modify_eq]
    congr 2
    funext e
    simp [pushChild]

/-! ## The pass computes the recursive reading -/

section Invariant

variable (visit : Node H N V → Visit H N V W)

theorem visitNode_eq (n : Node H N V) : visitNode visit n =
    match visit n with
    | .drop => none
    | .keepTree m => some m
    | .keepNode d => some ⟨n.hash, n.number, d, visitForest visit n.children⟩ := by
  obtain ⟨h, num, d, cs⟩ := n
  rw [visitNode]

theorem droppedNode_eq (n : Node H N V) : droppedNode visit n =
    match visit n with
    | .drop => [n]
    | .keepTree _ => []
    | .keepNode _ => droppedForest visit n.children := by
  obtain ⟨h, num, d, cs⟩ := n
  rw [droppedNode]

/-- The queued entries in their final form: each node that stays, visited recursively, with its parent index. -/
def completed (queue : List (Option Nat × Node H N V)) : List (Option Nat × Node H N W) :=
  queue.filterMap (fun e => (visitNode visit e.2).map (fun m => (e.1, m)))

theorem completed_append (q₁ q₂ : List (Option Nat × Node H N V)) :
    completed visit (q₁ ++ q₂) = completed visit q₁ ++ completed visit q₂ :=
  List.filterMap_append

/-- Children queued in reverse with one parent index are, in their final form, the recursive reading of the
children, in reverse, with that index. -/
theorem completed_reverse_map (p : Option Nat) (cs : List (Node H N V)) :
    completed visit (cs.reverse.map (fun c => (p, c))) = (visitForest visit cs).reverse.map (fun m => (p, m)) := by
  induction cs with
  | nil => rfl
  | cons c cs ih =>
    rw [List.reverse_cons, List.map_append, completed_append, ih, visitForest]
    cases hc : visitNode visit c with
    | none => simp [completed, hc]
    | some m => simp [completed, hc]

/-- One turn of the inner loop keeps the forest that `output`, followed by the queue in its final form, rebuilds
to. A node kept for its children enters `output` bare, and its children, queued last, are popped first and go
back into it. -/
theorem rebuild_step (s : Pass H N V W) (e : Option Nat × Node H N V) (rest : List (Option Nat × Node H N V))
    (roots : List (Node H N W)) :
    rebuild ((Pass.step visit s e).output ++ completed visit (rest ++ (Pass.step visit s e).nextQueue)) roots =
      rebuild (s.output ++ completed visit (e :: rest ++ s.nextQueue)) roots := by
  have hc : completed visit (e :: rest ++ s.nextQueue) =
      ((visitNode visit e.2).map (fun m => (e.1, m))).toList ++ completed visit (rest ++ s.nextQueue) := by
    rw [List.cons_append, ← List.singleton_append, completed_append]
    simp only [completed, List.filterMap_cons, List.filterMap_nil]
    cases visitNode visit e.2 <;> rfl
  rw [hc]
  unfold Pass.step
  split
  · -- `Remove`: the node leaves the queue and nothing enters `output`
    rename_i hv
    rw [visitNode_eq, hv]
    rfl
  · rename_i m hv
    rw [visitNode_eq, hv]
    simp only [Option.map_some, Option.toList_some, List.append_assoc, List.singleton_append]
  · -- `KeepNode`: its children are popped back into it before anything else
    rename_i d hv
    rw [visitNode_eq, hv]
    simp only [Option.map_some, Option.toList_some]
    rw [← List.append_assoc, completed_append, completed_reverse_map, ← List.append_assoc,
      rebuild_append_children _ (by simp only [List.length_append, List.length_singleton]; omega),
      modify_append_of_lt _ (by simp only [List.length_append, List.length_singleton]; omega),
      modify_concat_length, List.append_assoc, List.nil_append]

/-- A level of the outer loop keeps the same forest. -/
theorem rebuild_foldl (queue : List (Option Nat × Node H N V)) (s : Pass H N V W) (roots : List (Node H N W)) :
    rebuild ((queue.foldl (Pass.step visit) s).output ++ completed visit (queue.foldl (Pass.step visit) s).nextQueue)
        roots = rebuild (s.output ++ completed visit (queue ++ s.nextQueue)) roots := by
  induction queue generalizing s with
  | nil => rfl
  | cons e queue ih => rw [List.foldl_cons, ih, rebuild_step, List.cons_append]

/-- The whole pass keeps the same forest: what it leaves in `output` rebuilds to what the queued nodes, visited
recursively, rebuild to. -/
theorem rebuild_run (queue : List (Option Nat × Node H N V)) (output : List (Option Nat × Node H N W))
    (removed : List (Node H N V)) (roots : List (Node H N W)) :
    rebuild (Pass.run visit queue output removed).1 roots = rebuild (output ++ completed visit queue) roots := by
  fun_induction Pass.run visit queue output removed with
  | case1 output removed => rw [completed, List.filterMap_nil, List.append_nil]
  | case2 e queue output removed s ih =>
    rw [ih, rebuild_foldl, List.append_nil]

/-- From the roots, the pass and the rebuild give the recursive reading of the forest. -/
theorem rebuild_run_roots (roots : List (Node H N V)) :
    rebuild (Pass.run visit (roots.reverse.map (fun n => (none, n))) [] []).1 [] = some (visitForest visit roots) := by
  rw [rebuild_run, List.nil_append, completed_reverse_map, rebuild_roots, List.nil_append]


/-- The subtrees the queued entries will drop. -/
def droppedOf (queue : List (Option Nat × Node H N V)) : List (Node H N V) :=
  queue.flatMap (fun e => droppedNode visit e.2)

/-- Children queued with one parent index drop what the children drop, in another order. -/
theorem droppedOf_reverse_map (p : Option Nat) (cs : List (Node H N V)) :
    (droppedOf visit (cs.reverse.map (fun c => (p, c)))).Perm (droppedForest visit cs) := by
  rw [droppedOf, List.flatMap_map, droppedForest_eq_flatMap]
  exact List.Perm.flatMap_right _ (List.reverse_perm cs)

theorem removed_step (s : Pass H N V W) (e : Option Nat × Node H N V) (rest : List (Option Nat × Node H N V)) :
    ((Pass.step visit s e).removed ++ droppedOf visit (rest ++ (Pass.step visit s e).nextQueue)).Perm
      (s.removed ++ droppedOf visit (e :: rest ++ s.nextQueue)) := by
  simp only [droppedOf, List.cons_append, List.flatMap_cons]
  unfold Pass.step
  split
  · rename_i hv
    rw [droppedNode_eq, hv, List.append_assoc, List.singleton_append]
  · rename_i m hv
    rw [droppedNode_eq, hv, List.nil_append]
  · -- `KeepNode`: what its children drop moves from the node to the end of the queue
    rename_i d hv
    rw [droppedNode_eq, hv, ← List.append_assoc, List.flatMap_append]
    refine List.Perm.append_left s.removed ?_
    exact ((List.Perm.append_left _ (droppedOf_reverse_map visit _ _)).trans List.perm_append_comm)

theorem removed_foldl (queue : List (Option Nat × Node H N V)) (s : Pass H N V W) :
    ((queue.foldl (Pass.step visit) s).removed ++ droppedOf visit (queue.foldl (Pass.step visit) s).nextQueue).Perm
      (s.removed ++ droppedOf visit (queue ++ s.nextQueue)) := by
  induction queue generalizing s with
  | nil => exact List.Perm.refl _
  | cons e queue ih => exact (ih (Pass.step visit s e)).trans (removed_step visit s e queue)

/-- The pass removes exactly what the queued nodes drop. -/
theorem removed_run (queue : List (Option Nat × Node H N V)) (output : List (Option Nat × Node H N W))
    (removed : List (Node H N V)) :
    (Pass.run visit queue output removed).2.Perm (removed ++ droppedOf visit queue) := by
  fun_induction Pass.run visit queue output removed with
  | case1 output removed => rw [droppedOf, List.flatMap_nil, List.append_nil]
  | case2 e queue output removed s ih =>
    have key := removed_foldl visit (e :: queue) ⟨output, [], removed⟩
    rw [List.append_nil] at key
    exact ih.trans key

/-- From the roots, the pass removes the subtrees the recursive reading drops. -/
theorem removed_run_roots (roots : List (Node H N V)) :
    (Pass.run visit (roots.reverse.map (fun n => (none, n))) [] []).2.Perm (droppedForest visit roots) := by
  have key := removed_run visit (roots.reverse.map (fun n => (none, n))) [] []
  rw [List.nil_append] at key
  exact key.trans (droppedOf_reverse_map visit none roots)

/-- Where every visit of a list of nodes is known, so is the reading of the list. -/
theorem visitForest_congr {cs : List (Node H N V)} {g : Node H N V → Option (Node H N W)}
    (h : ∀ c ∈ cs, visitNode visit c = g c) : visitForest visit cs = cs.filterMap g := by
  rw [visitForest_eq_filterMap]
  exact List.filterMap_congr h

end Invariant

/-! ## `map` -/

mutual
/-- A subtree with `f` applied to every value in it, and nothing else changed. -/
def Node.mapValues (f : H → N → V → W) : Node H N V → Node H N W
  | ⟨h, num, d, cs⟩ => ⟨h, num, f h num d, mapValuesForest f cs⟩
/-- A list of subtrees with `f` applied to every value in them. -/
def mapValuesForest (f : H → N → V → W) : List (Node H N V) → List (Node H N W)
  | [] => []
  | c :: cs => c.mapValues f :: mapValuesForest f cs
end

theorem mapValuesForest_eq_map (f : H → N → V → W) (cs : List (Node H N V)) :
    mapValuesForest f cs = cs.map (Node.mapValues f) := by
  induction cs with
  | nil => rfl
  | cons c cs ih => rw [mapValuesForest, ih, List.map_cons]

/-- The visit of `map`: every node stays, with the value `f` gives for its hash, number and value. -/
def mapVisit (f : H → N → V → W) (n : Node H N V) : Visit H N V W :=
  .keepNode (f n.hash n.number n.data)

/-- `ForkTree::map`. An index out of range while rebuilding, a panic in the source, is `none`. -/
def ForkTree.map (t : ForkTree H N V) (f : H → N → V → W) : Option (ForkTree H N W) :=
  (rebuild (Pass.run (mapVisit f) (t.roots.reverse.map (fun node => (none, node))) [] []).1 []).map
    fun roots => ⟨roots, t.bestFinalizedNumber⟩

theorem visitNode_mapVisit (f : H → N → V → W) (n : Node H N V) :
    visitNode (mapVisit f) n = some (n.mapValues f) := by
  induction n using Node.ind with
  | h h num d cs ih =>
    rw [visitNode_eq, mapVisit, Node.mapValues, visitForest_congr (mapVisit f) ih, mapValuesForest_eq_map,
      ← List.filterMap_eq_map]
    rfl

theorem visitForest_mapVisit (f : H → N → V → W) (cs : List (Node H N V)) :
    visitForest (mapVisit f) cs = mapValuesForest f cs := by
  rw [visitForest_congr (mapVisit f) (fun c _ => visitNode_mapVisit f c), mapValuesForest_eq_map,
    ← List.filterMap_eq_map]
  rfl

/-- `map` keeps the shape of the tree and applies `f` to every value. -/
theorem ForkTree.map_eq (t : ForkTree H N V) (f : H → N → V → W) :
    t.map f = some ⟨mapValuesForest f t.roots, t.bestFinalizedNumber⟩ := by
  rw [ForkTree.map, rebuild_run_roots, visitForest_mapVisit]
  rfl

/-! ## `drain_filter` -/

/-- The visit of `drain_filter`. -/
def drainVisit (filter : H → N → V → FilterAction) (n : Node H N V) : Visit H N V V :=
  match filter n.hash n.number n.data with
  | .remove => .drop
  | .keepTree => .keepTree n
  | .keepNode => .keepNode n.data

/-- The items `(hash, number, data)` of every node of a forest, in pre-order. -/
def forestItems (cs : List (Node H N V)) : List (H × N × V) :=
  (forestSubtrees cs).map (fun n => (n.hash, n.number, n.data))

theorem forestItems_append (cs ds : List (Node H N V)) :
    forestItems (cs ++ ds) = forestItems cs ++ forestItems ds := by
  rw [forestItems, forestSubtrees_append, List.map_append]
  rfl

theorem forestItems_perm {cs ds : List (Node H N V)} (h : cs.Perm ds) : (forestItems cs).Perm (forestItems ds) :=
  (forestSubtrees_perm h).map _

theorem drainForest_eq_filterMap (filter : H → N → V → FilterAction) (cs : List (Node H N V)) :
    drainForest filter cs = cs.filterMap (drainNode filter) := by
  induction cs with
  | nil => rfl
  | cons c cs ih =>
    rw [drainForest, List.filterMap_cons]
    cases drainNode filter c with
    | none => exact ih
    | some c' => rw [ih]

/-- The visit of `drain_filter` reads as `drainNode`. -/
theorem visitNode_drainVisit (filter : H → N → V → FilterAction) (n : Node H N V) :
    visitNode (drainVisit filter) n = drainNode filter n := by
  induction n using Node.ind with
  | h h num d cs ih =>
    rw [visitNode_eq, drainVisit, drainNode]
    cases filter h num d with
    | remove => rfl
    | keepTree => rfl
    | keepNode => rw [visitForest_congr (drainVisit filter) ih, ← drainForest_eq_filterMap]

theorem visitForest_drainVisit (filter : H → N → V → FilterAction) (cs : List (Node H N V)) :
    visitForest (drainVisit filter) cs = drainForest filter cs := by
  rw [visitForest_congr (drainVisit filter) (fun c _ => visitNode_drainVisit filter c), drainForest_eq_filterMap]

/-- A list splits into what `drain_filter` keeps and the subtrees it drops, item by item, where each of its
subtrees does. -/
theorem forestItems_drainForest_of {ds : List (Node H N V)} (filter : H → N → V → FilterAction)
    (hc : ∀ c ∈ ds, (forestItems (drainNode filter c).toList ++ forestItems (droppedNode (drainVisit filter) c)).Perm
      (forestItems [c])) :
    (forestItems (drainForest filter ds) ++ forestItems (droppedForest (drainVisit filter) ds)).Perm
      (forestItems ds) := by
  induction ds with
  | nil => exact List.Perm.refl _
  | cons c ds ih =>
    have hsplit : drainForest filter (c :: ds) = (drainNode filter c).toList ++ drainForest filter ds := by
      rw [drainForest]
      cases drainNode filter c <;> rfl
    have hcd : forestItems (c :: ds) = forestItems [c] ++ forestItems ds := by
      rw [← forestItems_append]
      rfl
    rw [hsplit, droppedForest, forestItems_append, forestItems_append, hcd, List.append_assoc]
    -- bring what `c` drops next to what it keeps
    refine (List.Perm.append_left _ (List.perm_append_comm_assoc _ _ _)).trans ?_
    rw [← List.append_assoc]
    exact (hc c List.mem_cons_self).append (ih (fun c' h' => hc c' (List.mem_cons_of_mem _ h')))

/-- Every node of a subtree is kept by `drain_filter` or dropped with one of the dropped subtrees, and only one. -/
theorem forestItems_drainNode (filter : H → N → V → FilterAction) (n : Node H N V) :
    (forestItems (drainNode filter n).toList ++ forestItems (droppedNode (drainVisit filter) n)).Perm
      (forestItems [n]) := by
  induction n using Node.ind with
  | h h num d cs ih =>
    rw [droppedNode_eq, drainNode, drainVisit]
    cases filter h num d with
    | remove => exact List.Perm.refl _
    | keepTree => exact List.Perm.of_eq (List.append_nil _)
    | keepNode =>
      -- the node stays, and its children split as the children list does
      dsimp only
      have hn : ∀ cs' : List (Node H N V), forestItems [(⟨h, num, d, cs'⟩ : Node H N V)] =
          (h, num, d) :: forestItems cs' := by
        intro cs'
        simp [forestItems, subtrees_mk]
      rw [Option.toList_some, hn, hn, List.cons_append]
      exact (forestItems_drainForest_of filter ih).cons _

theorem forestItems_drainForest (filter : H → N → V → FilterAction) (cs : List (Node H N V)) :
    (forestItems (drainForest filter cs) ++ forestItems (droppedForest (drainVisit filter) cs)).Perm
      (forestItems cs) :=
  forestItems_drainForest_of filter (fun c _ => forestItems_drainNode filter c)

theorem removedItems_eq (stack : List (Node H N V)) : removedItems stack = forestItems stack.reverse := rfl

theorem forestItems_isEmpty (cs : List (Node H N V)) : (forestItems cs).isEmpty = cs.isEmpty := by
  cases cs with
  | nil => rfl
  | cons c cs => simp [forestItems, subtrees_eq c]

/-- `ForkTree::drain_filter`: the items the returned `RemovedIterator` yields, and the new tree, rebalanced when
something was removed. An index out of range while rebuilding, a panic in the source, is `none`. -/
def ForkTree.drainFilterQueue (t : ForkTree H N V) (filter : H → N → V → FilterAction) :
    Option (List (H × N × V) × ForkTree H N V) :=
  let r := Pass.run (drainVisit filter) (t.roots.reverse.map (fun node => (none, node))) [] []
  (rebuild r.1 []).map fun roots =>
    let t' : ForkTree H N V := { t with roots := roots }
    (removedItems r.2, if r.2.isEmpty then t' else t'.rebalance)

/-- Before its rebalance, `drain_filter` leaves the recursive `drainForest`; its iterator yields the items of the
dropped subtrees, and with the items left in the tree they are those of the tree before, each once. -/
theorem ForkTree.drainFilterQueue_spec (t : ForkTree H N V) (filter : H → N → V → FilterAction) :
    ∃ removed, t.drainFilterQueue filter = some (removed,
        if removed.isEmpty then { t with roots := drainForest filter t.roots }
        else ({ t with roots := drainForest filter t.roots } : ForkTree H N V).rebalance) ∧
      removed.Perm (forestItems (droppedForest (drainVisit filter) t.roots)) ∧
      (forestItems (drainForest filter t.roots) ++ removed).Perm (forestItems t.roots) := by
  have hr1 := rebuild_run_roots (drainVisit filter) t.roots
  have hr2 := removed_run_roots (drainVisit filter) t.roots
  rw [visitForest_drainVisit] at hr1
  -- the iterator's items are those of the removed subtrees, popped from the end
  have hitems : (removedItems (Pass.run (drainVisit filter) (t.roots.reverse.map (fun n => (none, n))) [] []).2).Perm
      (forestItems (droppedForest (drainVisit filter) t.roots)) := by
    rw [removedItems_eq]
    exact forestItems_perm ((List.reverse_perm _).trans hr2)
  refine ⟨_, ?_, hitems, ?_⟩
  · rw [ForkTree.drainFilterQueue]
    simp only [hr1, Option.map_some, removedItems_eq, forestItems_isEmpty, List.isEmpty_reverse]
  · exact (List.Perm.append_left _ hitems).trans (forestItems_drainForest filter t.roots)

/-- The queue model refines the recursive one: the tree `drain_filter` leaves is `ForkTree.drainFilter`. -/
theorem ForkTree.drainFilterQueue_tree (t : ForkTree H N V) (filter : H → N → V → FilterAction) :
    (t.drainFilterQueue filter).map Prod.snd = some (t.drainFilter filter) := by
  obtain ⟨removed, hq, -, hpart⟩ := ForkTree.drainFilterQueue_spec t filter
  -- something was removed exactly when the tree lost nodes
  have hlen := hpart.length_eq
  simp only [List.length_append, forestItems, List.length_map] at hlen
  have hsz : forestSize (drainForest filter t.roots) + removed.length = forestSize t.roots := hlen
  rw [hq, Option.map_some, ForkTree.drainFilter]
  cases removed with
  | nil =>
    have he : forestSize (drainForest filter t.roots) = forestSize t.roots := hsz
    simp only [List.isEmpty_nil, if_true, he]
  | cons x xs =>
    have hne : forestSize (drainForest filter t.roots) ≠ forestSize t.roots := by
      rw [List.length_cons] at hsz
      omega
    simp only [List.isEmpty_cons, Bool.false_eq_true, if_false, hne]

/-- `map` and `drain_filter`, by their breadth-first passes: `map` keeps the shape of the tree (roots and children in
order, hash and number at each place, last finalized number) and applies `f` to every value; `drain_filter` leaves,
before its rebalance, the tree `drainForest` computes, and yields the items of the dropped subtrees, which with the
items left are the tree's, each once. -/
theorem map_and_drain_filter_shape (t : ForkTree H N V) (f : H → N → V → W)
    (filter : H → N → V → FilterAction) :
    t.map f = some ⟨mapValuesForest f t.roots, t.bestFinalizedNumber⟩ ∧
    ∃ removed, t.drainFilterQueue filter = some (removed,
        if removed.isEmpty then { t with roots := drainForest filter t.roots }
        else ({ t with roots := drainForest filter t.roots } : ForkTree H N V).rebalance) ∧
      removed.Perm (forestItems (droppedForest (drainVisit filter) t.roots)) ∧
      (forestItems (drainForest filter t.roots) ++ removed).Perm (forestItems t.roots) :=
  ⟨ForkTree.map_eq t f, ForkTree.drainFilterQueue_spec t filter⟩

end CoreChain.Fork

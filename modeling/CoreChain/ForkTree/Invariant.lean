import CoreChain.Lib.Machine
import CoreChain.ForkTree.Search

/-!
# Fork trees: the shape of every reachable tree

A run starts from `ForkTree::new()` and applies the operations of the tree in any order, with the ancestry
oracle of one fixed block tree `T`. The caller's promises are the `Allowed` condition of an import: the number is
the block's height, and blocks of one branch come ancestor first, so nothing already in the tree lies below the
imported block. A call that returns an error leaves the tree as it was.

Every operation keeps `ForestGood T (Heights T)` (`step_good`), so every reachable tree has it
(`reachable_good`), and with it the three facts of `reachable_shape`: each child has a larger number than its
parent and lies below it, no hash occurs twice, and no root lies above another.

The one operation that adds a node is `import`, and it is where the search matters: the new leaf goes below the
deepest ancestor (`findNodeIndexWhere_spec`), so it lies on another branch than each of its new siblings, unless
it has the hash of one of them, which is exactly the `Duplicate` check.
-/

namespace CoreChain.Fork

open Node TreeOrder

variable {H N V : Type _}

/-- The operations of a run, with their arguments. -/
inductive Op (H N V : Type _) where
  | import (hash : H) (number : N) (data : V)
  | finalizeRoot (hash : H)
  | finalize (hash : H) (number : N)
  | finalizeWithAncestors (hash : H) (number : N)
  | finalizeWithDescendentIf (hash : H) (number : N) (predicate : V → Bool)
  | prune (hash : H) (number : N) (predicate : V → Bool)
  | drainFilter (filter : H → N → V → FilterAction)
  | rebalance

/-- The tree after a call: the new tree on success, the old one on an error. -/
def afterCall {ε α σ : Type _} (t : σ) : Except ε (α × σ) → σ
  | .ok (_, t') => t'
  | .error _ => t

variable [DecidableEq H] [LinearOrder N]

/-- One operation, with the oracle `isDescendentOf`. -/
def ForkTree.step (isDescendentOf : H → H → Bool) (t : ForkTree H N V) : Op H N V → ForkTree H N V
  | .import b num d => afterCall t (t.import b num d isDescendentOf)
  | .finalizeRoot b => ((t.finalizeRoot b).map Prod.snd).getD t
  | .finalize b num => afterCall t (t.finalize b num isDescendentOf)
  | .finalizeWithAncestors b num => afterCall t (t.finalizeWithAncestors b num isDescendentOf)
  | .finalizeWithDescendentIf b num predicate =>
    afterCall t (t.finalizeWithDescendentIf b num isDescendentOf predicate)
  | .prune b num predicate => (t.prune b num isDescendentOf predicate).2
  | .drainFilter filter => t.drainFilter filter
  | .rebalance => t.rebalance

/-- What the caller promises: an imported block is numbered by its height, and nothing in the tree lies below
it yet (blocks of one branch are imported ancestor first). -/
def Allowed (T : TreeOrder H N) (t : ForkTree H N V) : Op H N V → Prop
  | .import b num _ => num = T.height b ∧ ∀ m ∈ t.nodeIter, ¬ T.desc b m.hash
  | _ => True

/-- The trees a run reaches. -/
def Reachable (T : TreeOrder H N) (t : ForkTree H N V) : Prop :=
  Reach ForkTree.new (ForkTree.step T.desc) (Allowed T) t

variable {T : TreeOrder H N}

/-! ## The shape is kept by every operation -/

omit [DecidableEq H] in
theorem ForestGood.rebalance_tree {t : ForkTree H N V} (hf : ForestGood T (Heights T) t.roots) :
    ForestGood T (Heights T) t.rebalance.roots :=
  hf.rebalance

omit [DecidableEq H] in
/-- A new leaf on another branch than every sibling keeps a children list good. -/
theorem ForestGood.append_leaf {cs : List (Node H N V)} (hf : ForestGood T (Heights T) cs) {hash : H}
    {number : N} (data : V) (hn : number = T.height hash) (hu : ∀ c ∈ cs, T.Unrelated c.hash hash) :
    ForestGood T (Heights T) (cs ++ [⟨hash, number, data, []⟩]) := by
  refine ⟨?_, ?_⟩
  · intro x hx
    rcases List.mem_append.mp hx with hx | hx
    · exact hf.1 x hx
    · rw [List.mem_singleton] at hx
      subst hx
      exact good_iff.mpr ⟨hn, by simp, by simp [ForestGood]⟩
  · rw [List.map_append, List.pairwise_append]
    refine ⟨hf.2, by simp, ?_⟩
    intro a ha b hb
    rw [List.map_singleton, List.mem_singleton] at hb
    obtain ⟨c, hc, rfl⟩ := List.mem_map.mp ha
    exact hb ▸ hu c hc

theorem import_good {t t' : ForkTree H N V} {hash : H} {number : N} {data : V} {isRoot : Bool}
    (hf : ForestGood T (Heights T) t.roots) (ha : Allowed T t (.import hash number data))
    (h : t.import hash number data T.desc = .ok (isRoot, t')) : ForestGood T (Heights T) t'.roots := by
  obtain ⟨hn, hbelow⟩ := ha
  subst hn
  simp only [ForkTree.import] at h
  split at h
  · cases h
  rcases findNodeIndexWhere_spec hf with ⟨hnone, hno⟩ | ⟨p, P, hp, hP, hd, hdc⟩
  · -- no ancestor in the tree: a new root
    rw [hnone] at h
    simp only at h
    split at h
    · cases h
    · rename_i hdup
      simp only [Except.ok.injEq, Prod.mk.injEq] at h
      obtain ⟨-, rfl⟩ := h
      have hroots : ForestGood T (Heights T) (t.roots ++ [⟨hash, T.height hash, data, []⟩]) := by
        refine hf.append_leaf data rfl (fun r hr => ⟨?_, ?_, ?_⟩)
        · intro he
          exact hdup (List.any_eq_true.mpr ⟨r, hr, by simp [he]⟩)
        · exact hno r (mem_forestSubtrees.mpr ⟨r, hr, self_mem_subtrees r⟩)
        · exact hbelow r (mem_forestSubtrees.mpr ⟨r, hr, self_mem_subtrees r⟩)
      -- rebalanced when the leaf is the first root
      split
      · exact hroots.rebalance
      · exact hroots
  · -- below the deepest ancestor `P`
    rw [hp] at h
    simp only [hP, Option.map_some, Option.getD_some] at h
    split at h
    · cases h
    · rename_i hdup
      simp only [Except.ok.injEq, Prod.mk.injEq] at h
      obtain ⟨-, rfl⟩ := h
      have hPg : P.Good T (Heights T) := hf.good_of_mem (getPath_mem hP)
      have hPn : P.number = T.height P.hash := hPg.self_ok
      have hchildren : ForestGood T (Heights T) (P.children ++ [⟨hash, T.height hash, data, []⟩]) := by
        refine hPg.children.append_leaf data rfl (fun c hc => ⟨?_, hdc c hc, ?_⟩)
        · intro he
          exact hdup (List.any_eq_true.mpr ⟨c, hc, by simp [he]⟩)
        · exact hbelow c (child_mem_forestSubtrees (getPath_mem hP) hc)
      have hP' : (Node.Good T (Heights T) { P with children := P.children ++ [⟨hash, T.height hash, data, []⟩] }) := by
        refine good_iff.mpr ⟨hPn, ?_, hchildren⟩
        intro c hc
        rcases List.mem_append.mp hc with hc | hc
        · exact hPg.edges c hc
        · rw [List.mem_singleton] at hc
          subst hc
          exact ⟨hPn ▸ T.height_lt hd, hd⟩
      have hroots := hf.modifyPath
        (fun p => { p with children := p.children ++ [⟨hash, T.height hash, data, []⟩] }) hP hP' rfl rfl
      split
      · exact hroots.rebalance
      · exact hroots

theorem finalizeRoot_good {t t' : ForkTree H N V} {hash : H} {v : V} (hf : ForestGood T (Heights T) t.roots)
    (h : t.finalizeRoot hash = some (v, t')) : ForestGood T (Heights T) t'.roots := by
  simp only [ForkTree.finalizeRoot, Option.map_eq_some_iff] at h
  obtain ⟨r, hr, he⟩ := h
  simp only [ForkTree.finalizeRootAt, Prod.mk.injEq] at he
  obtain ⟨-, rfl⟩ := he
  exact (hf.1 r (List.mem_of_find?_eq_some hr)).children

theorem finalize_good {t t' : ForkTree H N V} {hash : H} {number : N} {r : FinalizationResult V}
    (hf : ForestGood T (Heights T) t.roots) (h : t.finalize hash number T.desc = .ok (r, t')) :
    ForestGood T (Heights T) t'.roots := by
  simp only [ForkTree.finalize] at h
  split at h
  · cases h
  split at h
  · rename_i v t₀ hr
    cases h
    exact finalizeRoot_good hf hr
  · split at h
    · cases h
    · simp only [Except.ok.injEq, Prod.mk.injEq] at h
      obtain ⟨-, rfl⟩ := h
      exact hf.filter _

theorem finalizeAncestorsLoop_good (hash : H) (number : N) {roots : List (Node H N V)} {idx : Nat}
    {changed : Bool} (hf : ForestGood T (Heights T) roots) :
    ForestGood T (Heights T) (finalizeAncestorsLoop hash number T.desc roots idx changed).2.1 := by
  induction roots, idx, changed using finalizeAncestorsLoop.induct hash number T.desc with
  | case1 roots idx changed hi _ _ hfin =>
    rw [finalizeAncestorsLoop, dif_pos hi, if_pos hfin]
    exact (hf.1 _ (List.getElem_mem hi)).children
  | case2 roots idx changed hi _ _ _ hfin hdesc ih =>
    rw [finalizeAncestorsLoop, dif_pos hi, if_neg hfin, if_pos hdesc]
    exact ih hf
  | case3 roots idx changed hi _ _ _ _ hfin hdesc hanc ih =>
    -- an ancestor root is opened into its children
    rw [finalizeAncestorsLoop, dif_pos hi, if_neg hfin, if_neg hdesc, if_pos hanc]
    exact ih (hf.open hi)
  | case4 roots idx changed hi _ _ _ _ hfin hdesc hanc ih =>
    rw [finalizeAncestorsLoop, dif_pos hi, if_neg hfin, if_neg hdesc, if_neg hanc]
    exact ih (hf.swapRemove hi)
  | case5 roots idx changed hi =>
    rw [finalizeAncestorsLoop, dif_neg hi]
    exact hf

theorem finalizeWithAncestors_good {t t' : ForkTree H N V} {hash : H} {number : N} {r : FinalizationResult V}
    (hf : ForestGood T (Heights T) t.roots) (h : t.finalizeWithAncestors hash number T.desc = .ok (r, t')) :
    ForestGood T (Heights T) t'.roots := by
  simp only [ForkTree.finalizeWithAncestors] at h
  split at h
  · cases h
  split at h
  · rename_i v t₀ hr
    cases h
    exact finalizeRoot_good hf hr
  · simp only [Except.ok.injEq, Prod.mk.injEq] at h
    obtain ⟨-, rfl⟩ := h
    exact finalizeAncestorsLoop_good hash number hf

theorem finalizeWithDescendentIf_good {t t' : ForkTree H N V} {hash : H} {number : N} {predicate : V → Bool}
    {r : FinalizationResult V} (hf : ForestGood T (Heights T) t.roots)
    (h : t.finalizeWithDescendentIf hash number T.desc predicate = .ok (r, t')) :
    ForestGood T (Heights T) t'.roots := by
  have hretain : ∀ {roots : List (Node H N V)} (d : Option V), ForestGood T (Heights T) roots →
      ForestGood T (Heights T)
        (ForkTree.finalizeWithDescendentIf.retainOnBranch hash number T.desc roots d).2.roots := by
    intro roots d hr
    exact hr.filter _
  simp only [ForkTree.finalizeWithDescendentIf] at h
  split at h
  · cases h
  split at h
  · rename_i root hroot
    split at h
    · cases h
    · cases h
      exact hretain (some root.data) (hf.1 root (List.mem_of_find?_eq_some hroot)).children
  · cases h
    exact hretain none hf

theorem prune_good {t : ForkTree H N V} (hash : H) (number : N) (predicate : V → Bool)
    (hf : ForestGood T (Heights T) t.roots) :
    ForestGood T (Heights T) (t.prune hash number T.desc predicate).2.roots := by
  simp only [ForkTree.prune]
  split
  · exact hf
  · split
    · exact hf
    · rename_i root rest hd
      -- the new root is a node of the tree, and the walk below it keeps its shape
      have hg := hf.good_of_mem (detachPath_mem hd)
      obtain ⟨hg', -, -⟩ := pruneNode_good hash number T.desc hg
      exact ForestGood.rebalance_tree (T := T) ⟨by simpa using hg', by simp⟩

omit [DecidableEq H] in
theorem drainFilter_good {t : ForkTree H N V} (filter : H → N → V → FilterAction)
    (hf : ForestGood T (Heights T) t.roots) : ForestGood T (Heights T) (t.drainFilter filter).roots := by
  have hd := hf.drainForest filter
  simp only [ForkTree.drainFilter]
  split
  · exact hd
  · exact ForestGood.rebalance_tree (T := T) hd

theorem step_good {t : ForkTree H N V} {op : Op H N V} (hf : ForestGood T (Heights T) t.roots)
    (ha : Allowed T t op) : ForestGood T (Heights T) (t.step T.desc op).roots := by
  cases op with
  | «import» hash number data =>
    simp only [ForkTree.step]
    cases h : t.import hash number data T.desc with
    | error e => exact hf
    | ok r => exact import_good hf ha h
  | finalizeRoot hash =>
    simp only [ForkTree.step]
    cases h : t.finalizeRoot hash with
    | none => exact hf
    | some r => exact finalizeRoot_good hf h
  | finalize hash number =>
    simp only [ForkTree.step]
    cases h : t.finalize hash number T.desc with
    | error e => exact hf
    | ok r => exact finalize_good hf h
  | finalizeWithAncestors hash number =>
    simp only [ForkTree.step]
    cases h : t.finalizeWithAncestors hash number T.desc with
    | error e => exact hf
    | ok r => exact finalizeWithAncestors_good hf h
  | finalizeWithDescendentIf hash number predicate =>
    simp only [ForkTree.step]
    cases h : t.finalizeWithDescendentIf hash number T.desc predicate with
    | error e => exact hf
    | ok r => exact finalizeWithDescendentIf_good hf h
  | prune hash number predicate =>
    simp only [ForkTree.step]
    exact prune_good hash number predicate hf
  | drainFilter filter =>
    simp only [ForkTree.step]
    exact drainFilter_good filter hf
  | rebalance =>
    simp only [ForkTree.step]
    exact hf.rebalance

theorem reachable_good {t : ForkTree H N V} (h : Reachable T t) : ForestGood T (Heights T) t.roots :=
  Reach.invariant (P := fun t : ForkTree H N V => ForestGood T (Heights T) t.roots)
    ⟨by simp [ForkTree.new], by simp [ForkTree.new]⟩ (fun _ _ hf ha => step_good hf ha) h

/-- Every reachable tree: each child has a larger number than its parent and lies below it in the block tree,
no hash occurs at two nodes, and no root lies above another. -/
theorem reachable_shape {t : ForkTree H N V} (h : Reachable T t) :
    (∀ p ∈ t.nodeIter, ∀ c ∈ p.children, p.number < c.number ∧ T.desc p.hash c.hash) ∧
      (t.nodeIter.map Node.hash).Nodup ∧
      t.roots.Pairwise (fun a b => ¬ T.desc a.hash b.hash ∧ ¬ T.desc b.hash a.hash) := by
  have hf := reachable_good h
  refine ⟨fun p hp c hc => (hf.good_of_mem hp).edges c hc, hf.nodup, ?_⟩
  have hp := hf.2
  rw [List.pairwise_map] at hp
  exact hp.imp (fun hu => ⟨hu.2.1, hu.2.2⟩)

/-- Block `[0]`, then its child `[0, 1]`, imported into a new tree over the block tree of paths. -/
def twoBlocks : ForkTree (List Nat) Nat Unit :=
  ((ForkTree.new : ForkTree (List Nat) Nat Unit).step (TreeOrder.prefixes Nat).desc (.import [0] 1 ())).step
    (TreeOrder.prefixes Nat).desc (.import [0, 1] 2 ())

theorem reachable_shape_twoBlocks :
    (∀ p ∈ twoBlocks.nodeIter, ∀ c ∈ p.children, p.number < c.number ∧ (TreeOrder.prefixes Nat).desc p.hash c.hash) ∧
      (twoBlocks.nodeIter.map Node.hash).Nodup ∧
      twoBlocks.roots.Pairwise (fun a b => ¬ (TreeOrder.prefixes Nat).desc a.hash b.hash ∧
        ¬ (TreeOrder.prefixes Nat).desc b.hash a.hash) :=
  reachable_shape (Reach.step (Reach.step Reach.init ⟨rfl, by decide⟩) ⟨rfl, by
    simp [ForkTree.step, afterCall, ForkTree.import, ForkTree.reverts, ForkTree.new, findNodeIndexWhere,
      searchRoots, ForkTree.rebalance, ForkTree.nodeIter, rebalanceList, TreeOrder.prefixes]⟩)

end CoreChain.Fork

import CoreChain.ForkTree.Ops

/-!
# Fork trees: the values

Every value in the tree after `import`, `finalize_with_descendent_if` or `drain_filter` was in the tree before,
or is the value imported; a finalized value is the value of a root. So a property of every value (`ForestData`)
survives these operations, whatever the ancestry oracle answers.

- `ForestData.import`, `ForestData.finalizeWithDescendentIf`, `ForestData.drainFilter`.
-/

namespace CoreChain.Fork

open Node

variable {H N V : Type _} (P : V → Prop)

/-- Every node of the forest carries a value with `P`. -/
def ForestData (roots : List (Node H N V)) : Prop :=
  ∀ m ∈ forestSubtrees roots, P m.data

variable {P}

theorem forestData_nil : ForestData P ([] : List (Node H N V)) := by
  simp [ForestData]

theorem forestData_cons {r : Node H N V} {rs : List (Node H N V)} :
    ForestData P (r :: rs) ↔ P r.data ∧ ForestData P r.children ∧ ForestData P rs := by
  simp only [ForestData, forestSubtrees_cons, List.mem_append, subtrees_eq r, List.mem_cons]
  constructor
  · intro h
    exact ⟨h r (Or.inl (Or.inl rfl)), fun m hm => h m (Or.inl (Or.inr hm)), fun m hm => h m (Or.inr hm)⟩
  · rintro ⟨h₁, h₂, h₃⟩ m ((rfl | hm) | hm)
    · exact h₁
    · exact h₂ m hm
    · exact h₃ m hm

theorem forestData_iff {roots : List (Node H N V)} :
    ForestData P roots ↔ ∀ r ∈ roots, P r.data ∧ ForestData P r.children := by
  induction roots with
  | nil => simp [forestData_nil]
  | cons r rs ih => rw [forestData_cons, ih, List.forall_mem_cons, and_assoc]

theorem forestData_singleton {n : Node H N V} : ForestData P [n] ↔ P n.data ∧ ForestData P n.children := by
  simp [forestData_cons, forestData_nil]

theorem forestData_append {rs ss : List (Node H N V)} :
    ForestData P (rs ++ ss) ↔ ForestData P rs ∧ ForestData P ss := by
  induction rs with
  | nil => simp [forestData_nil]
  | cons r rs ih => simp only [List.cons_append, forestData_cons, ih, and_assoc]

section Forest

variable {roots roots' : List (Node H N V)}

theorem ForestData.of_sublist (hf : ForestData P roots) (h : roots'.Sublist roots) : ForestData P roots' :=
  fun m hm => hf m ((forestSubtrees_sublist h).subset hm)

theorem ForestData.perm (hf : ForestData P roots) (h : roots.Perm roots') : ForestData P roots' :=
  fun m hm => hf m ((forestSubtrees_perm h).symm.subset hm)

theorem ForestData.filter (hf : ForestData P roots) (p : Node H N V → Bool) : ForestData P (roots.filter p) :=
  hf.of_sublist List.filter_sublist

theorem ForestData.data_of_mem (hf : ForestData P roots) {r : Node H N V} (hr : r ∈ roots) : P r.data :=
  ((forestData_iff.mp hf) r hr).1

theorem ForestData.children (hf : ForestData P roots) {r : Node H N V} (hr : r ∈ roots) :
    ForestData P r.children :=
  ((forestData_iff.mp hf) r hr).2

/-- Changing one node of a list keeps the values when the change keeps them. -/
theorem ForestData.modify (hf : ForestData P roots) {g : Node H N V → Node H N V}
    (hg : ∀ y ∈ roots, ForestData P [y] → ForestData P [g y]) (i : Nat) : ForestData P (roots.modify i g) := by
  rw [forestData_iff]
  intro x hx
  rcases mem_modify hx with hx | ⟨y, hy, rfl⟩
  · exact (forestData_iff.mp hf) x hx
  · have hy' : y ∈ roots := List.mem_of_getElem? hy
    exact forestData_singleton.mp (hg y hy' (forestData_singleton.mpr ((forestData_iff.mp hf) y hy')))

end Forest

/-! ## Rebalancing, walking a path and draining -/

theorem forestData_rebalance (n : Node H N V) (hn : ForestData P [n]) : ForestData P [n.rebalance] := by
  induction n using Node.ind with
  | h h₀ n₀ d₀ cs ih =>
    obtain ⟨hd, hcs⟩ := forestData_singleton.mp hn
    rw [rebalance_mk, forestData_singleton]
    refine ⟨hd, ForestData.perm ?_ (List.mergeSort_perm _ _).symm⟩
    rw [forestData_iff]
    intro r hr
    obtain ⟨c, hc, rfl⟩ := List.mem_map.mp hr
    exact forestData_singleton.mp (ih c hc (forestData_singleton.mpr ((forestData_iff.mp hcs) c hc)))

theorem ForestData.rebalance {roots : List (Node H N V)} (hf : ForestData P roots) :
    ForestData P ((rebalanceList roots).mergeSort deeperFirst) := by
  refine ForestData.perm ?_ (List.mergeSort_perm _ _).symm
  rw [rebalanceList_eq, forestData_iff]
  intro r hr
  obtain ⟨c, hc, rfl⟩ := List.mem_map.mp hr
  exact forestData_singleton.mp (forestData_rebalance c (forestData_singleton.mpr ((forestData_iff.mp hf) c hc)))

section Walk

variable {f : Node H N V → Node H N V} (hfd : ∀ m, ForestData P [m] → ForestData P [f m])
include hfd

theorem forestData_modifyAt : ∀ (p : List Nat) (n : Node H N V), ForestData P [n] → ForestData P [n.modifyAt f p]
  | [], n, hn => hfd n hn
  | i :: p, n, hn => by
    obtain ⟨hd, hcs⟩ := forestData_singleton.mp hn
    exact forestData_singleton.mpr ⟨hd, hcs.modify (fun y _ hy => forestData_modifyAt p y hy) i⟩

theorem ForestData.modifyPath {roots : List (Node H N V)} (hf : ForestData P roots) (p : List Nat) :
    ForestData P (modifyPath f roots p) := by
  cases p with
  | nil => exact hf
  | cons i p => exact hf.modify (fun y _ hy => forestData_modifyAt hfd p y hy) i

end Walk

section Drain

variable (filter : H → N → V → FilterAction)

theorem forestData_drainForest {cs : List (Node H N V)}
    (hc : ∀ c ∈ cs, ∀ c', drainNode filter c = some c' → ForestData P [c']) :
    ForestData P (drainForest filter cs) := by
  induction cs with
  | nil => simp [drainForest, forestData_nil]
  | cons c cs ih =>
    have ih' := ih (fun c' h' => hc c' (List.mem_cons_of_mem _ h'))
    cases hd : drainNode filter c with
    | none => simpa [drainForest, hd] using ih'
    | some c' =>
      simp only [drainForest, hd]
      exact forestData_cons.mpr ⟨(forestData_singleton.mp (hc c List.mem_cons_self c' hd)).1,
        (forestData_singleton.mp (hc c List.mem_cons_self c' hd)).2, ih'⟩

theorem forestData_drainNode (n : Node H N V) (hn : ForestData P [n]) :
    ∀ n', drainNode filter n = some n' → ForestData P [n'] := by
  induction n using Node.ind with
  | h h₀ n₀ d₀ cs ih =>
    intro n' hn'
    obtain ⟨hd, hcs⟩ := forestData_singleton.mp hn
    simp only [drainNode] at hn'
    split at hn'
    · cases hn'
    · cases hn'
      exact hn
    · cases hn'
      refine forestData_singleton.mpr ⟨hd, forestData_drainForest filter ?_⟩
      intro c hc
      exact ih c hc (forestData_singleton.mpr ((forestData_iff.mp hcs) c hc))

end Drain

/-! ## The operations -/

theorem ForestData.drainFilter {t : ForkTree H N V} (hf : ForestData P t.roots) (filter : H → N → V → FilterAction) :
    ForestData P (t.drainFilter filter).roots := by
  have hd : ForestData P (drainForest filter t.roots) :=
    forestData_drainForest filter (fun c hc => forestData_drainNode filter c
      (forestData_singleton.mpr ((forestData_iff.mp hf) c hc)))
  simp only [ForkTree.drainFilter]
  split
  · exact hd
  · exact hd.rebalance

variable [DecidableEq H] [LinearOrder N]

theorem ForestData.import {t t' : ForkTree H N V} {hash : H} {number : N} {data : V}
    {isDescendentOf : H → H → Bool} {isRoot : Bool} (hf : ForestData P t.roots) (hd : P data)
    (h : t.import hash number data isDescendentOf = .ok (isRoot, t')) : ForestData P t'.roots := by
  have hleaf : ForestData P [(⟨hash, number, data, []⟩ : Node H N V)] :=
    forestData_singleton.mpr ⟨hd, forestData_nil⟩
  have happend : ∀ m : Node H N V, ForestData P [m] →
      ForestData P [{ m with children := m.children ++ [⟨hash, number, data, []⟩] }] := by
    intro m hm
    obtain ⟨hmd, hmc⟩ := forestData_singleton.mp hm
    exact forestData_singleton.mpr ⟨hmd, forestData_append.mpr ⟨hmc, hleaf⟩⟩
  simp only [ForkTree.import] at h
  split at h
  · cases h
  split at h
  · split at h
    · cases h
    · cases h
      split
      · exact (hf.modifyPath happend _).rebalance
      · exact hf.modifyPath happend _
  · split at h
    · cases h
    · cases h
      split
      · exact (forestData_append.mpr ⟨hf, hleaf⟩).rebalance
      · exact forestData_append.mpr ⟨hf, hleaf⟩

theorem ForestData.finalizeWithDescendentIf {t t' : ForkTree H N V} {hash : H} {number : N}
    {isDescendentOf : H → H → Bool} {predicate : V → Bool} {r : FinalizationResult V}
    (hf : ForestData P t.roots) (h : t.finalizeWithDescendentIf hash number isDescendentOf predicate = .ok (r, t')) :
    ForestData P t'.roots ∧ ∀ v, r = .changed (some v) → P v := by
  simp only [ForkTree.finalizeWithDescendentIf, ForkTree.finalizeWithDescendentIf.retainOnBranch] at h
  split at h
  · cases h
  split at h
  · rename_i root hroot
    have hmem := List.mem_of_find?_eq_some hroot
    split at h
    · cases h
    · cases h
      refine ⟨(hf.children hmem).filter _, ?_⟩
      rintro v ⟨⟩
      exact hf.data_of_mem hmem
  · cases h
    refine ⟨hf.filter _, ?_⟩
    intro v hv
    split at hv <;> simp_all

end CoreChain.Fork

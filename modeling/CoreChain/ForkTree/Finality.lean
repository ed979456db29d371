import Mathlib
import CoreChain.ForkTree.Invariant

/-!
# Fork trees: what finalization keeps

Finalizing a block `hash` at its height, in a good tree numbered by heights:

- `finalize_with_ancestors` opens every root above the block, keeps every root below it, drops the others, and
  finalizes the block itself when it meets it as a root. Its loop keeps one invariant (`LoopInv`): the roots form a
  good forest, the roots before `idx` lie below the block, and every node of the tree before the call at or below
  the block is still in the forest (`finalizeAncestorsLoop_spec`). A root on another branch holds nothing at or
  below the block (`not_below_of_dropped`); an opened root is itself above the block, and its children take its
  place (`mem_forestSubtrees_open`).
- `finalize` keeps only roots below the block and numbered above it, and refuses a block below a root.

Without heights the numbers say nothing of the branches, and both fail; so does `finalize_with_ancestors` when two
roots lie on one branch (`finalize_fails_off_invariant`).
-/

namespace CoreChain.Fork

open Node TreeOrder

variable {H N V : Type _} [LinearOrder N] {T : TreeOrder H N}

/-! ## Good forests -/

theorem ForestGood.unrelated_of_ne {ok : H → N → Prop} {roots : List (Node H N V)} (hf : ForestGood T ok roots)
    {r X : Node H N V} (hr : r ∈ roots) (hX : X ∈ roots) (hne : r ≠ X) : T.Unrelated r.hash X.hash := by
  have hnd : (roots.map Node.hash).Nodup := hf.2.imp (fun h => h.1)
  have hh : r.hash ≠ X.hash := fun e => hne (List.inj_on_of_nodup_map hnd hr hX e)
  have : Std.Symm T.Unrelated := ⟨fun _ _ h => h.symm⟩
  exact hf.2.forall (List.mem_map_of_mem hr) (List.mem_map_of_mem hX) hh

/-- A good forest holds a hash at most once: two of its nodes with one hash are one node. -/
theorem ForestGood.eq_of_hash_eq {ok : H → N → Prop} {roots : List (Node H N V)} (hf : ForestGood T ok roots)
    {x y : Node H N V} (hx : x ∈ forestSubtrees roots) (hy : y ∈ forestSubtrees roots) (h : x.hash = y.hash) :
    x = y :=
  List.inj_on_of_nodup_map hf.nodup hx hy h

/-- A node strictly below a root of a good forest lies below its children. -/
theorem ForestGood.mem_children_of_desc {ok : H → N → Prop} {roots : List (Node H N V)}
    (hf : ForestGood T ok roots) {X m : Node H N V} (hX : X ∈ roots) (hm : m ∈ forestSubtrees roots)
    (hd : T.desc X.hash m.hash) : m ∈ forestSubtrees X.children := by
  obtain ⟨r, hr, hmr⟩ := mem_forestSubtrees.mp hm
  have hb : T.Below r.hash m.hash := ((hf.1 r hr).below_of_mem m hmr).1
  by_cases hrX : r = X
  · subst hrX
    rw [subtrees_eq, List.mem_cons] at hmr
    rcases hmr with rfl | hmr
    · exact absurd hd (T.not_desc_self _)
    · exact hmr
  · -- `m` would lie below two roots on different branches
    exact absurd rfl ((hf.unrelated_of_ne hr hX hrX).below hb (Or.inr hd)).1

omit [LinearOrder N] in
/-- The nodes of a forest: those of the root at `idx`, and those of the rest after `swap_remove`. -/
theorem forestSubtrees_perm_swapRemove {roots : List (Node H N V)} {idx : Nat} (hi : idx < roots.length) :
    (forestSubtrees roots).Perm (roots[idx].subtrees ++ forestSubtrees (swapRemove roots idx)) := by
  have hp : roots.Perm (roots[idx] :: swapRemove roots idx) :=
    (List.getElem_cons_eraseIdx_perm hi).symm.trans (List.Perm.cons _ (swapRemove_perm hi).symm)
  exact (forestSubtrees_perm hp).trans (List.Perm.of_eq (forestSubtrees_cons _ _))

omit [LinearOrder N] in
/-- Opening the root at `idx` loses no node but the root. -/
theorem mem_forestSubtrees_open {roots : List (Node H N V)} {idx : Nat} (hi : idx < roots.length)
    {m : Node H N V} (hm : m ∈ forestSubtrees roots) (hne : m ≠ roots[idx]) :
    m ∈ forestSubtrees (swapRemove roots idx ++ roots[idx].children) := by
  have hm' := (forestSubtrees_perm_swapRemove hi).subset hm
  rw [List.mem_append, subtrees_eq, List.mem_cons] at hm'
  rw [forestSubtrees_append, List.mem_append]
  rcases hm' with (rfl | hm') | hm'
  · exact absurd rfl hne
  · exact Or.inr hm'
  · exact Or.inl hm'

omit [LinearOrder N] in
/-- Dropping the root at `idx` loses no node outside its subtree. -/
theorem mem_forestSubtrees_swapRemove {roots : List (Node H N V)} {idx : Nat} (hi : idx < roots.length)
    {m : Node H N V} (hm : m ∈ forestSubtrees roots) (hn : m ∉ roots[idx].subtrees) :
    m ∈ forestSubtrees (swapRemove roots idx) := by
  rcases List.mem_append.mp ((forestSubtrees_perm_swapRemove hi).subset hm) with hm' | hm'
  · exact absurd hm' hn
  · exact hm'

/-! ## The loop of `finalize_with_ancestors` -/

section Loop

variable (T) (hash : H)

/-- The invariant of the loop: the roots form a good forest, the first `idx` of them lie strictly below the block,
and every node of the tree before the call at or below the block is still in the forest. -/
structure LoopInv (orig roots : List (Node H N V)) (idx : Nat) : Prop where
  good : ForestGood T (Heights T) roots
  kept : ∀ r ∈ roots.take idx, T.desc hash r.hash
  below : ∀ m ∈ forestSubtrees orig, T.Below hash m.hash → m ∈ forestSubtrees roots
  sub : ∀ m ∈ forestSubtrees roots, m ∈ forestSubtrees orig

variable {T hash}

/-- A root that is not the block and neither above nor below it by its number and ancestry holds nothing at or
below the block: with heights, the numbers decide which of the three a related root is. -/
theorem not_below_of_dropped {r : Node H N V} (hg : r.Good T (Heights T)) (hfin : r.hash ≠ hash)
    (hdesc : ¬ (T.height hash < r.number ∧ T.desc hash r.hash = true))
    (hanc : ¬ (r.number < T.height hash ∧ T.desc r.hash hash = true)) :
    ∀ m ∈ r.subtrees, ¬ T.Below hash m.hash := by
  intro m hm hb
  have hrn : r.number = T.height r.hash := hg.self_ok
  rcases T.comparable_of_below (hg.below_of_mem m hm).1 hb with e | e | e
  · exact hfin e
  · exact hanc ⟨hrn ▸ T.height_lt e, e⟩
  · exact hdesc ⟨hrn ▸ T.height_lt e, e⟩

/-- A root above the block is not at or below it. -/
theorem not_below_of_desc {a : H} (h : T.desc a hash = true) : ¬ T.Below hash a := by
  rintro (e | e)
  · exact T.not_desc_self a (e ▸ h)
  · exact T.not_desc_of_desc h e

/-- Finalizing a root `X` with the block's hash: its children lie strictly below the block, every node strictly
below the block is below them, and the block's node is `X`. -/
theorem finalize_at_root {orig roots : List (Node H N V)} (hf : ForestGood T (Heights T) roots)
    (hb : ∀ m ∈ forestSubtrees orig, T.Below hash m.hash → m ∈ forestSubtrees roots) {X : Node H N V}
    (hX : X ∈ roots) (hXh : X.hash = hash) :
    X.number = T.height hash ∧ (∀ c ∈ X.children, T.desc hash c.hash) ∧
      (∀ m ∈ forestSubtrees orig, T.desc hash m.hash → m ∈ forestSubtrees X.children) ∧
      ∀ Y ∈ forestSubtrees orig, Y.hash = hash → Y = X := by
  have hgX := hf.1 X hX
  refine ⟨hXh ▸ hgX.self_ok, fun c hc => hXh ▸ (hgX.edges c hc).2, ?_, ?_⟩
  · intro m hm hd
    exact hf.mem_children_of_desc hX (hb m hm (Or.inr hd)) (hXh ▸ hd)
  · intro Y hY hYh
    have hXm : X ∈ forestSubtrees roots := mem_forestSubtrees.mpr ⟨X, hX, self_mem_subtrees X⟩
    exact hf.eq_of_hash_eq (hb Y hY (Or.inl hYh.symm)) hXm (hYh.trans hXh.symm)

omit [LinearOrder N] in
theorem forestSubtrees_open_subset {roots : List (Node H N V)} {idx : Nat} (hi : idx < roots.length) :
    forestSubtrees (swapRemove roots idx ++ roots[idx].children) ⊆ forestSubtrees roots := by
  intro m hm
  refine (forestSubtrees_perm_swapRemove hi).symm.subset ?_
  rw [forestSubtrees_append, List.mem_append] at hm
  rw [List.mem_append, subtrees_eq, List.mem_cons]
  rcases hm with hm | hm
  · exact Or.inr hm
  · exact Or.inl (Or.inr hm)

omit [LinearOrder N] in
theorem forestSubtrees_swapRemove_subset {roots : List (Node H N V)} {idx : Nat} (hi : idx < roots.length) :
    forestSubtrees (swapRemove roots idx) ⊆ forestSubtrees roots :=
  fun _ hm => (forestSubtrees_perm_swapRemove hi).symm.subset (List.mem_append_right _ hm)

variable [DecidableEq H]

/-- The loop of `finalize_with_ancestors` from a state with the invariant: the new best finalized number is the block's
height, every root left lies strictly below the block, every node strictly below it is kept, and the result carries the
block's value exactly when it was in the tree. -/
theorem finalizeAncestorsLoop_spec {orig : List (Node H N V)} {roots : List (Node H N V)} {idx : Nat}
    (changed : Bool) (hinv : LoopInv T hash orig roots idx) :
    (finalizeAncestorsLoop hash (T.height hash) T.desc roots idx changed).2.2 = T.height hash ∧
    (∀ r ∈ (finalizeAncestorsLoop hash (T.height hash) T.desc roots idx changed).2.1, T.desc hash r.hash) ∧
    (∀ m ∈ forestSubtrees orig, T.desc hash m.hash →
      m ∈ forestSubtrees (finalizeAncestorsLoop hash (T.height hash) T.desc roots idx changed).2.1) ∧
    (∀ v, (finalizeAncestorsLoop hash (T.height hash) T.desc roots idx changed).1 = .changed (some v) →
      ∃ X ∈ forestSubtrees orig, X.hash = hash) ∧
    ∀ X ∈ forestSubtrees orig, X.hash = hash →
      (finalizeAncestorsLoop hash (T.height hash) T.desc roots idx changed).1 = .changed (some X.data) := by
  induction roots, idx, changed using finalizeAncestorsLoop.induct hash (T.height hash) T.desc with
  | case1 roots idx changed hi _ _ hfin =>
    -- the block is the root at `idx`
    rw [finalizeAncestorsLoop, dif_pos hi, if_pos hfin]
    have hXh : roots[idx].hash = hash := beq_iff_eq.mp hfin
    have hX := List.getElem_mem hi
    obtain ⟨hn, hc, hd, hY⟩ := finalize_at_root hinv.good hinv.below hX hXh
    refine ⟨hn, hc, hd, fun _ _ => ⟨_, hinv.sub _ (mem_forestSubtrees.mpr ⟨_, hX, self_mem_subtrees _⟩), hXh⟩,
      fun X hX' hXh' => by rw [hY X hX' hXh']⟩
  | case2 roots idx changed hi _ _ _ hfin hdesc ih =>
    -- a root below the block stays, and the loop moves on
    rw [finalizeAncestorsLoop, dif_pos hi, if_neg hfin, if_pos hdesc]
    simp +zetaDelta only [Bool.and_eq_true, decide_eq_true_eq] at hdesc
    refine ih ⟨hinv.good, fun r hr => ?_, hinv.below, hinv.sub⟩
    rw [List.take_add_one, List.getElem?_eq_getElem hi, Option.toList_some, List.mem_append,
      List.mem_singleton] at hr
    rcases hr with hr | rfl
    · exact hinv.kept r hr
    · exact hdesc.2
  | case3 roots idx changed hi _ _ _ _ hfin hdesc hanc ih =>
    -- a root above the block is opened: its children take its place at the end
    rw [finalizeAncestorsLoop, dif_pos hi, if_neg hfin, if_neg hdesc, if_pos hanc]
    simp +zetaDelta only [Bool.and_eq_true, decide_eq_true_eq] at hanc
    have hlen : idx ≤ (swapRemove roots idx).length := by
      rw [(swapRemove_perm hi).length_eq, List.length_eraseIdx_of_lt hi]
      omega
    refine ih ⟨hinv.good.open hi, fun r hr => ?_, fun m hm hb => ?_, fun m hm => ?_⟩
    · rw [List.take_append_of_le_length hlen, take_swapRemove hi le_rfl] at hr
      exact hinv.kept r hr
    · refine mem_forestSubtrees_open hi (hinv.below m hm hb) ?_
      rintro rfl
      exact not_below_of_desc hanc.2 hb
    · exact hinv.sub m (forestSubtrees_open_subset hi hm)
  | case4 roots idx changed hi _ _ _ _ hfin hdesc hanc ih =>
    -- a root on another branch is dropped, and nothing at or below the block goes with it
    rw [finalizeAncestorsLoop, dif_pos hi, if_neg hfin, if_neg hdesc, if_neg hanc]
    have hfin' : roots[idx].hash ≠ hash := by simpa +zetaDelta using hfin
    have hdesc' : ¬ (T.height hash < roots[idx].number ∧ T.desc hash roots[idx].hash = true) := by
      rintro ⟨h₁, h₂⟩
      exact hdesc (by simp +zetaDelta [hfin', h₁, h₂])
    have hanc' : ¬ (roots[idx].number < T.height hash ∧ T.desc roots[idx].hash hash = true) := by
      rintro ⟨h₁, h₂⟩
      exact hanc (by simp +zetaDelta [hfin', h₁, h₂, not_lt_of_gt h₁])
    have hlen : idx ≤ (swapRemove roots idx).length := by
      rw [(swapRemove_perm hi).length_eq, List.length_eraseIdx_of_lt hi]
      omega
    refine ih ⟨hinv.good.swapRemove hi, fun r hr => ?_, fun m hm hb => ?_, fun m hm => ?_⟩
    · rw [take_swapRemove hi le_rfl] at hr
      exact hinv.kept r hr
    · refine mem_forestSubtrees_swapRemove hi (hinv.below m hm hb) ?_
      intro hmr
      exact not_below_of_dropped (hinv.good.1 _ (List.getElem_mem hi)) hfin' hdesc' hanc' m hmr hb
    · exact hinv.sub m (forestSubtrees_swapRemove_subset hi hm)
  | case5 roots idx changed hi =>
    -- every root left lies strictly below the block, so the block is not in the tree
    rw [finalizeAncestorsLoop, dif_neg hi]
    have hkept : ∀ r ∈ roots, T.desc hash r.hash := by
      rw [← List.take_of_length_le (Nat.le_of_not_lt hi)]
      exact hinv.kept
    have hnone : ∀ X ∈ forestSubtrees orig, X.hash ≠ hash := by
      intro X hX hXh
      obtain ⟨r, hr, hXr⟩ := mem_forestSubtrees.mp (hinv.below X hX (Or.inl hXh.symm))
      have hb : T.Below r.hash hash := hXh ▸ ((hinv.good.1 r hr).below_of_mem X hXr).1
      exact T.not_desc_self hash (T.desc_of_desc_of_below (hkept r hr) hb)
    refine ⟨rfl, hkept, fun m hm hd => hinv.below m hm (Or.inr hd), fun v hv => ?_,
      fun X hX hXh => absurd hXh (hnone X hX)⟩
    split at hv <;> cases hv

end Loop

/-! ## The two finalizations -/

section Finalize

variable [DecidableEq H]

omit [LinearOrder N] in
theorem finalizeRoot_eq_some {t t' : ForkTree H N V} {hash : H} {v : V} (h : t.finalizeRoot hash = some (v, t')) :
    ∃ X ∈ t.roots, X.hash = hash ∧ v = X.data ∧ t' = ⟨X.children, some X.number⟩ := by
  simp only [ForkTree.finalizeRoot, Option.map_eq_some_iff] at h
  obtain ⟨X, hX, he⟩ := h
  simp only [ForkTree.finalizeRootAt, Prod.mk.injEq] at he
  have hp := List.find?_some hX
  simp only [beq_iff_eq] at hp
  exact ⟨X, List.mem_of_find?_eq_some hX, hp, he.1.symm, he.2.symm⟩

/-- `finalize_with_ancestors` of a block at its height, above the last finalized number, succeeds with the loop's result
(`finalizeAncestorsLoop_spec`). -/
theorem finalizeWithAncestors_spec {t : ForkTree H N V} (hf : ForestGood T (Heights T) t.roots) (hash : H)
    (hr : t.reverts (T.height hash) = false) :
    ∃ res t', t.finalizeWithAncestors hash (T.height hash) T.desc = .ok (res, t') ∧
      t'.bestFinalizedNumber = some (T.height hash) ∧ (∀ r ∈ t'.roots, T.desc hash r.hash) ∧
      (∀ m ∈ forestSubtrees t.roots, T.desc hash m.hash → m ∈ forestSubtrees t'.roots) ∧
      (∀ v, res = .changed (some v) → ∃ X ∈ forestSubtrees t.roots, X.hash = hash) ∧
      ∀ X ∈ forestSubtrees t.roots, X.hash = hash → res = .changed (some X.data) := by
  rw [ForkTree.finalizeWithAncestors, hr, if_neg Bool.false_ne_true]
  cases hroot : t.finalizeRoot hash with
  | some p =>
    -- the block is a root: its children become the roots
    obtain ⟨v, t₀⟩ := p
    obtain ⟨X, hX, hXh, rfl, rfl⟩ := finalizeRoot_eq_some hroot
    obtain ⟨hn, hc, hd, hY⟩ := finalize_at_root hf (fun m hm _ => hm) hX hXh
    refine ⟨_, _, rfl, by rw [hn], hc, hd, fun _ _ => ⟨X, mem_forestSubtrees.mpr ⟨X, hX, self_mem_subtrees X⟩, hXh⟩,
      fun Y hY' hYh => by rw [hY Y hY' hYh]⟩
  | none =>
    -- the loop runs from the first root, with nothing kept yet
    have hs := finalizeAncestorsLoop_spec false
      (⟨hf, by simp, fun m hm _ => hm, fun m hm => hm⟩ : LoopInv T hash t.roots t.roots 0)
    rcases hL : finalizeAncestorsLoop hash (T.height hash) T.desc t.roots 0 false with ⟨res, roots, best⟩
    rw [hL] at hs
    obtain ⟨hb, hk, hd, hsome, hX⟩ := hs
    exact ⟨res, ⟨roots, some best⟩, rfl, congrArg some hb, hk, hd, hsome, hX⟩

/-- `finalize` of a block at its height: every root it leaves lies strictly below the block and is numbered above it,
and a block strictly below a root, that is not a root itself, is refused. -/
theorem finalize_spec {t : ForkTree H N V} (hf : ForestGood T (Heights T) t.roots) (hash : H) :
    (∀ res t', t.finalize hash (T.height hash) T.desc = .ok (res, t') →
      ∀ r ∈ t'.roots, T.desc hash r.hash ∧ T.height hash < r.number) ∧
    (t.reverts (T.height hash) = false → (∀ r ∈ t.roots, r.hash ≠ hash) → (∃ r ∈ t.roots, T.desc r.hash hash) →
      t.finalize hash (T.height hash) T.desc = .error .unfinalizedAncestor) := by
  constructor
  · intro res t' h
    simp only [ForkTree.finalize] at h
    split at h
    · cases h
    split at h
    · -- the block was a root: its children are numbered above it
      rename_i v t₀ hroot
      cases h
      obtain ⟨X, hX, hXh, -, rfl⟩ := finalizeRoot_eq_some hroot
      have hn : X.number = T.height hash := hXh ▸ (hf.1 X hX).self_ok
      intro c hc
      obtain ⟨hlt, hd⟩ := (hf.1 X hX).edges c hc
      exact ⟨hXh ▸ hd, hn ▸ hlt⟩
    · split at h
      · cases h
      · simp only [Except.ok.injEq, Prod.mk.injEq] at h
        obtain ⟨-, rfl⟩ := h
        intro r hr
        simp only [List.mem_filter, Bool.and_eq_true, decide_eq_true_eq] at hr
        exact ⟨hr.2.2, hr.2.1⟩
  · rintro hr hno ⟨r, hr', hd⟩
    have hroot : t.finalizeRoot hash = none := by
      simp only [ForkTree.finalizeRoot, Option.map_eq_none_iff, List.find?_eq_none, beq_iff_eq]
      exact hno
    -- with heights, a root above the block is numbered below it
    have hlt : r.number < T.height hash := ((hf.1 r hr').self_ok : r.number = _) ▸ T.height_lt hd
    have hany : t.roots.any (fun r => decide (r.number < T.height hash) && T.desc r.hash hash) = true :=
      List.any_eq_true.mpr ⟨r, hr', by simp [hlt, hd]⟩
    simp only [ForkTree.finalize, hr, Bool.false_eq_true, if_false, hroot, hany, if_true]

end Finalize

/-- Finalizing a block at its height, above the last finalized number, in a good tree numbered by heights:
`finalize_with_ancestors` succeeds with the height as best finalized number, leaves roots strictly below the block only,
keeps every node strictly below it with its subtree, and returns `Changed(Some(value))` exactly when the block was in
the tree. After `finalize` succeeds every root lies strictly below the block and is numbered above it; `finalize`
refuses a block strictly below a root that is not a root itself. -/
theorem finalize_keeps_descendants [DecidableEq H] {t : ForkTree H N V} (hf : ForestGood T (Heights T) t.roots)
    (hash : H) (number : N) (hn : number = T.height hash) (hr : t.reverts number = false) :
    (∃ res t', t.finalizeWithAncestors hash number T.desc = .ok (res, t') ∧
      t'.bestFinalizedNumber = some number ∧ (∀ r ∈ t'.roots, T.desc hash r.hash) ∧
      (∀ m ∈ forestSubtrees t.roots, T.desc hash m.hash → m ∈ forestSubtrees t'.roots) ∧
      ((∃ v, res = .changed (some v)) ↔ ∃ X ∈ forestSubtrees t.roots, X.hash = hash) ∧
      ∀ X ∈ forestSubtrees t.roots, X.hash = hash → res = .changed (some X.data)) ∧
    (∀ res t', t.finalize hash number T.desc = .ok (res, t') → ∀ r ∈ t'.roots, T.desc hash r.hash ∧ number < r.number) ∧
    ((∀ r ∈ t.roots, r.hash ≠ hash) → (∃ r ∈ t.roots, T.desc r.hash hash) →
      t.finalize hash number T.desc = .error .unfinalizedAncestor) := by
  subst hn
  obtain ⟨res, t', he, hb, hk, hd, hsome, hX⟩ := finalizeWithAncestors_spec hf hash hr
  obtain ⟨hfin, href⟩ := finalize_spec hf hash
  refine ⟨⟨res, t', he, hb, hk, hd, ⟨fun ⟨v, hv⟩ => hsome v hv, fun ⟨X, hX', hXh⟩ => ⟨X.data, hX X hX' hXh⟩⟩, hX⟩,
    hfin, href hr⟩

/-- Genesis' child `[0]` with its child `[0, 1]`, numbered by height, nothing finalized yet. -/
def twoOnOneBranch : ForkTree (List Nat) Nat Unit := ⟨[⟨[0], 1, (), [⟨[0, 1], 2, (), []⟩]⟩], none⟩

theorem finalize_keeps_descendants_twoOnOneBranch :
    ForestGood (prefixes Nat) (Heights (prefixes Nat)) twoOnOneBranch.roots ∧ 1 = (prefixes Nat).height [0] ∧
    twoOnOneBranch.reverts 1 = false ∧
    ((∃ res t', twoOnOneBranch.finalizeWithAncestors [0] 1 (prefixes Nat).desc = .ok (res, t') ∧
      t'.bestFinalizedNumber = some 1 ∧ (∀ r ∈ t'.roots, (prefixes Nat).desc [0] r.hash) ∧
      (∀ m ∈ forestSubtrees twoOnOneBranch.roots, (prefixes Nat).desc [0] m.hash → m ∈ forestSubtrees t'.roots) ∧
      ((∃ v, res = .changed (some v)) ↔ ∃ X ∈ forestSubtrees twoOnOneBranch.roots, X.hash = [0]) ∧
      ∀ X ∈ forestSubtrees twoOnOneBranch.roots, X.hash = [0] → res = .changed (some X.data)) ∧
    (∀ res t', twoOnOneBranch.finalize [0] 1 (prefixes Nat).desc = .ok (res, t') →
      ∀ r ∈ t'.roots, (prefixes Nat).desc [0] r.hash ∧ 1 < r.number) ∧
    ((∀ r ∈ twoOnOneBranch.roots, r.hash ≠ [0]) → (∃ r ∈ twoOnOneBranch.roots, (prefixes Nat).desc r.hash [0]) →
      twoOnOneBranch.finalize [0] 1 (prefixes Nat).desc = .error .unfinalizedAncestor)) := by
  have hf : ForestGood (prefixes Nat) (Heights (prefixes Nat)) twoOnOneBranch.roots := by
    simp [twoOnOneBranch, ForestGood, good_iff, Heights, prefixes]
  exact ⟨hf, rfl, rfl, finalize_keeps_descendants hf [0] 1 rfl rfl⟩

/-- Off the invariant both finalizations go wrong. At a number other than the height: for `[0]` at `5`,
`finalize_with_ancestors` drops the root `[0, 1]` below it, and `finalize` leaves a root numbered `2`. With related
roots `[0, 1, 2]` and `[0, 1]` above `[0, 1, 2, 3]`: `finalize_with_ancestors` of the root `[0, 1, 2]` keeps its
children only, dropping `[0, 1, 2, 3]`. -/
theorem finalize_fails_off_invariant :
    (⟨[⟨[0, 1], 2, (), []⟩], none⟩ : ForkTree (List Nat) Nat Unit).finalizeWithAncestors [0] 5 (prefixes Nat).desc =
      .ok (.changed none, ⟨[], some 5⟩) ∧ (prefixes Nat).desc [0] [0, 1] = true ∧
    twoOnOneBranch.finalize [0] 5 (prefixes Nat).desc = .ok (.changed (some ()), ⟨[⟨[0, 1], 2, (), []⟩], some 1⟩) ∧
    (⟨[⟨[0, 1, 2], 3, (), []⟩, ⟨[0, 1], 2, (), [⟨[0, 1, 2, 3], 4, (), []⟩]⟩], none⟩ :
        ForkTree (List Nat) Nat Unit).finalizeWithAncestors [0, 1, 2] 3 (prefixes Nat).desc =
      .ok (.changed (some ()), ⟨[], some 3⟩) ∧
    (prefixes Nat).desc [0, 1] [0, 1, 2] = true ∧ (prefixes Nat).desc [0, 1, 2] [0, 1, 2, 3] = true := by
  refine ⟨?_, by decide, rfl, ?_, by decide, by decide⟩
  · simp [ForkTree.finalizeWithAncestors, ForkTree.reverts, ForkTree.finalizeRoot, finalizeAncestorsLoop, swapRemove,
      prefixes]
  · simp [ForkTree.finalizeWithAncestors, ForkTree.reverts, ForkTree.finalizeRoot, ForkTree.finalizeRootAt]

end CoreChain.Fork

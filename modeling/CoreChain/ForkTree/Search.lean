import CoreChain.ForkTree.Good

/-!
# Fork trees: what the search finds

Index paths always lead into the tree (`getPath_mem`, `detachPath_mem`), and a write along a path that keeps the
node's hash, number and shape keeps the whole forest good (`ForestGood.modifyPath`).

In a good tree whose numbers are block heights (`Heights`), the search of `find_node_index_where` with a predicate
that always holds finds the deepest ancestor of the target: a node above it none of whose children is
(`findNodeIndexWhere_spec`); when it finds nothing, no node of the tree lies above the target. Two facts make the
post-order search complete: a child whose number is not below the target's is skipped, and with heights nothing
in its subtree can lie above the target (`noAncestor_of_le`); and the first ancestor met on the way back up is the
deepest one, since its own children were searched before it.

For any predicate, a path the search returns leads to a node (`findNodeIndexWhere_valid`).
-/

namespace CoreChain.Fork

open Node TreeOrder

variable {H N V : Type _}

/-! ## Paths lead into the tree -/

theorem getAt_mem {n m : Node H N V} : ∀ {p : List Nat}, n.getAt p = some m → m ∈ n.subtrees
  | [], h => by
    simp only [getAt, Option.some.injEq] at h
    exact h ▸ self_mem_subtrees n
  | i :: p, h => by
    simp only [getAt, Option.bind_eq_some_iff] at h
    obtain ⟨c, hc, hm⟩ := h
    rw [subtrees_eq, List.mem_cons, mem_forestSubtrees]
    exact Or.inr ⟨c, List.mem_of_getElem? hc, getAt_mem hm⟩

theorem getPath_mem {roots : List (Node H N V)} {p : List Nat} {m : Node H N V} (h : getPath roots p = some m) :
    m ∈ forestSubtrees roots := by
  cases p with
  | nil => simp [getPath] at h
  | cons i p =>
    simp only [getPath, Option.bind_eq_some_iff] at h
    obtain ⟨r, hr, hm⟩ := h
    exact mem_forestSubtrees.mpr ⟨r, List.mem_of_getElem? hr, getAt_mem hm⟩

theorem detachPath_mem : ∀ {roots : List (Node H N V)} {p : List Nat} {m : Node H N V} {rest : List (Node H N V)},
    detachPath roots p = some (m, rest) → m ∈ forestSubtrees roots
  | _, [], _, _, h => by simp [detachPath] at h
  | roots, [i], m, rest, h => by
    simp only [detachPath, Option.map_eq_some_iff, Prod.mk.injEq] at h
    obtain ⟨r, hr, rfl, -⟩ := h
    exact mem_forestSubtrees.mpr ⟨r, List.mem_of_getElem? hr, self_mem_subtrees r⟩
  | roots, i :: j :: p, m, rest, h => by
    simp only [detachPath, Option.bind_eq_some_iff, Option.map_eq_some_iff] at h
    obtain ⟨r, hr, ⟨m', rest'⟩, hd, he⟩ := h
    simp only [Prod.mk.injEq] at he
    obtain ⟨rfl, -⟩ := he
    have hm := detachPath_mem hd
    rw [mem_forestSubtrees] at hm ⊢
    obtain ⟨c, hc, hmc⟩ := hm
    refine ⟨r, List.mem_of_getElem? hr, ?_⟩
    rw [subtrees_eq, List.mem_cons, mem_forestSubtrees]
    exact Or.inr ⟨c, hc, hmc⟩

section Modify

variable [LinearOrder N] {T : TreeOrder H N} {ok : H → N → Prop} (f : Node H N V → Node H N V)

/-- A write at a path that keeps the target's hash, number and shape keeps the node's shape. -/
theorem Node.Good.modifyAt {n : Node H N V} (hg : n.Good T ok) :
    ∀ {p : List Nat} {m : Node H N V}, n.getAt p = some m →
      (f m).Good T ok → (f m).hash = m.hash → (f m).number = m.number →
      (n.modifyAt f p).Good T ok ∧ (n.modifyAt f p).hash = n.hash ∧ (n.modifyAt f p).number = n.number
  | [], m, h, hf, hh, hn => by
    simp only [getAt, Option.some.injEq] at h
    subst h
    exact ⟨hf, hh, hn⟩
  | i :: p, m, h, hf, hh, hn => by
    simp only [getAt, Option.bind_eq_some_iff] at h
    obtain ⟨c, hc, hm⟩ := h
    obtain ⟨h₀, n₀, d₀, cs⟩ := n
    obtain ⟨hok, he, hgs, hp⟩ := good_iff.mp hg
    have hcs : c ∈ cs := List.mem_of_getElem? hc
    obtain ⟨hg', hh', hn'⟩ := (hgs c hcs).modifyAt hm hf hh hn
    refine ⟨good_iff.mpr ⟨hok, ?_, ?_, ?_⟩, rfl, rfl⟩
    · -- the written child keeps its hash and number, so its edge to the parent stays
      intro x hx
      rcases mem_modify hx with hx | ⟨y, hy, rfl⟩
      · exact he x hx
      · obtain rfl : y = c := Option.some.inj (hy.symm.trans hc)
        rw [hh', hn']
        exact he y hcs
    · intro x hx
      rcases mem_modify hx with hx | ⟨y, hy, rfl⟩
      · exact hgs x hx
      · obtain rfl : y = c := Option.some.inj (hy.symm.trans hc)
        exact hg'
    · rw [map_modify_of_getElem? Node.hash hc hh']
      exact hp

theorem ForestGood.modifyPath {roots : List (Node H N V)} (hf : ForestGood T ok roots) {p : List Nat}
    {m : Node H N V} (h : getPath roots p = some m) (hg : (f m).Good T ok) (hh : (f m).hash = m.hash)
    (hn : (f m).number = m.number) : ForestGood T ok (modifyPath f roots p) := by
  cases p with
  | nil => simp [getPath] at h
  | cons i p =>
    simp only [getPath, Option.bind_eq_some_iff] at h
    obtain ⟨r, hr, hm⟩ := h
    obtain ⟨hg', hh', -⟩ := (hf.1 r (List.mem_of_getElem? hr)).modifyAt f hm hg hh hn
    refine ⟨fun x hx => ?_, ?_⟩
    · rcases mem_modify hx with hx | ⟨y, hy, rfl⟩
      · exact hf.1 x hx
      · obtain rfl : y = r := Option.some.inj (hy.symm.trans hr)
        exact hg'
    · simp only [CoreChain.Fork.modifyPath]
      rw [map_modify_of_getElem? Node.hash hr hh']
      exact hf.2

end Modify

/-! ## Paths returned by the search lead to nodes -/

section Valid

variable [LinearOrder N] (hash : H) (number : N) (isDescendentOf : H → H → Bool) (predicate : V → Bool)

theorem searchChildren_path {cs : List (Node H N V)}
    (hc : ∀ c ∈ cs, ∀ q, searchNode hash number isDescendentOf predicate c = .path q → ∃ m, c.getAt q = some m)
    {i : Nat} {p : List Nat} (h : searchChildren hash number isDescendentOf predicate cs i = .path p) :
    ∃ j q c m, p = (i + j) :: q ∧ cs[j]? = some c ∧ c.getAt q = some m := by
  induction cs generalizing i with
  | nil => simp [searchChildren] at h
  | cons c cs ih =>
    have ih' := fun {i} => ih (fun c' h' => hc c' (List.mem_cons_of_mem _ h')) (i := i)
    simp only [searchChildren] at h
    split at h
    · split at h
      · rename_i q hq
        cases h
        obtain ⟨m, hm⟩ := hc c List.mem_cons_self q hq
        exact ⟨0, q, c, m, rfl, rfl, hm⟩
      · cases h
      · obtain ⟨j, q, c', m, rfl, hj, hm⟩ := ih' h
        exact ⟨j + 1, q, c', m, by rw [Nat.add_assoc, Nat.add_comm 1 j], hj, hm⟩
    · obtain ⟨j, q, c', m, rfl, hj, hm⟩ := ih' h
      exact ⟨j + 1, q, c', m, by rw [Nat.add_assoc, Nat.add_comm 1 j], hj, hm⟩

theorem searchNode_path (n : Node H N V) :
    ∀ q, searchNode hash number isDescendentOf predicate n = .path q → ∃ m, n.getAt q = some m := by
  induction n using Node.ind with
  | h h₀ n₀ d₀ cs ih =>
    intro q hq
    simp only [searchNode] at hq
    split at hq
    · rename_i p hp
      cases hq
      obtain ⟨j, q, c, m, rfl, hj, hm⟩ := searchChildren_path hash number isDescendentOf predicate ih hp
      exact ⟨m, by simp [getAt, hj, hm]⟩
    · split at hq
      · cases hq
        exact ⟨_, rfl⟩
      · cases hq
    · split at hq
      · split at hq
        · cases hq
          exact ⟨_, rfl⟩
        · cases hq
      · cases hq

/-- For any predicate, the index path the search returns leads to a node of the tree. -/
theorem findNodeIndexWhere_valid {roots : List (Node H N V)} {p : List Nat}
    (h : findNodeIndexWhere hash number isDescendentOf predicate roots = some p) :
    ∃ m, getPath roots p = some m := by
  suffices key : ∀ (rs : List (Node H N V)) i, searchRoots hash number isDescendentOf predicate rs i = some p →
      ∃ j q r m, p = (i + j) :: q ∧ rs[j]? = some r ∧ r.getAt q = some m by
    obtain ⟨j, q, r, m, rfl, hj, hm⟩ := key roots 0 h
    exact ⟨m, by simp [getPath, hj, hm]⟩
  intro rs
  induction rs with
  | nil => simp [searchRoots]
  | cons r rs ih =>
    intro i hs
    simp only [searchRoots] at hs
    split at hs
    · obtain ⟨j, q, r', m, rfl, hj, hm⟩ := ih (i + 1) hs
      exact ⟨j + 1, q, r', m, by rw [Nat.add_assoc, Nat.add_comm 1 j], hj, hm⟩
    · split at hs
      · rename_i q hq
        cases hs
        obtain ⟨m, hm⟩ := searchNode_path hash number isDescendentOf predicate r q hq
        exact ⟨0, q, r, m, rfl, rfl, hm⟩
      · cases hs
      · obtain ⟨j, q, r', m, rfl, hj, hm⟩ := ih (i + 1) hs
        exact ⟨j + 1, q, r', m, by rw [Nat.add_assoc, Nat.add_comm 1 j], hj, hm⟩

end Valid

/-! ## With heights, the search finds the deepest ancestor -/

section Deepest

variable [LinearOrder N] (T : TreeOrder H N) (b : H)

/-- The number of a node is the height of its block. -/
def Heights (h : H) (n : N) : Prop := n = T.height h

/-- No node of the subtree lies above `b`. -/
def NoAncestor (n : Node H N V) : Prop := ∀ m ∈ n.subtrees, ¬ T.desc m.hash b

/-- `P` lies above `b`, but none of its children does. -/
def Deepest (P : Node H N V) : Prop := T.desc P.hash b ∧ ∀ c ∈ P.children, ¬ T.desc c.hash b

/-- What a search result means for a subtree: nothing above `b`, or the path of a deepest ancestor. -/
def SearchSpec (r : Found) (n : Node H N V) : Prop :=
  (r = .none ∧ NoAncestor T b n) ∨ ∃ p P, r = .path p ∧ n.getAt p = some P ∧ Deepest T b P

variable {T b}

/-- A subtree whose root is numbered at least `b`'s height holds no ancestor of `b`: this is why the search may
skip it. -/
theorem noAncestor_of_le {n : Node H N V} (hg : n.Good T (Heights T)) (hle : T.height b ≤ n.number) :
    NoAncestor T b n := by
  intro m hm hd
  have hnm : n.number ≤ m.number := (hg.below_of_mem m hm).2
  have hm' : m.number = T.height m.hash := (hg.subtrees_good m hm).self_ok
  have hlt : T.height m.hash < T.height b := T.height_lt hd
  have hcontra : n.number < n.number := calc
    n.number ≤ m.number := hnm
    _ = T.height m.hash := hm'
    _ < T.height b := hlt
    _ ≤ n.number := hle
  exact lt_irrefl _ hcontra

theorem searchChildren_spec {cs : List (Node H N V)}
    (hc : ∀ c ∈ cs, c.Good T (Heights T) ∧ SearchSpec T b (searchNode b (T.height b) T.desc (fun _ => true) c) c)
    (i : Nat) :
    (searchChildren b (T.height b) T.desc (fun _ : V => true) cs i = .none ∧ ∀ c ∈ cs, NoAncestor T b c) ∨
      ∃ j c q P, searchChildren b (T.height b) T.desc (fun _ : V => true) cs i = .path ((i + j) :: q) ∧
        cs[j]? = some c ∧ c.getAt q = some P ∧ Deepest T b P := by
  induction cs generalizing i with
  | nil => exact Or.inl ⟨by simp [searchChildren], by simp⟩
  | cons c cs ih =>
    obtain ⟨hgc, hsc⟩ := hc c List.mem_cons_self
    -- what the rest of the list gives, one index further
    have rest : (searchChildren b (T.height b) T.desc (fun _ : V => true) cs (i + 1) = .none ∧
        ∀ c ∈ cs, NoAncestor T b c) ∨ ∃ j c' q P,
        searchChildren b (T.height b) T.desc (fun _ : V => true) cs (i + 1) = .path ((i + (j + 1)) :: q) ∧
          (c :: cs)[j + 1]? = some c' ∧ c'.getAt q = some P ∧ Deepest T b P := by
      rcases ih (fun c' h' => hc c' (List.mem_cons_of_mem _ h')) (i + 1) with h | ⟨j, c', q, P, hr, hj, hq, hd⟩
      · exact Or.inl h
      · exact Or.inr ⟨j, c', q, P, by rw [hr]; congr 2; omega, hj, hq, hd⟩
    by_cases hlt : c.number < T.height b
    · rcases hsc with ⟨hn, hna⟩ | ⟨p, P, hp, hP, hd⟩
      · -- `c` holds no ancestor: the search goes on with its next sibling
        rcases rest with ⟨hr, hra⟩ | ⟨j, c', q, P, hr, hj, hq, hd⟩
        · refine Or.inl ⟨by simp [searchChildren, hlt, hn, hr], ?_⟩
          intro x hx
          rcases List.mem_cons.mp hx with rfl | hx
          · exact hna
          · exact hra x hx
        · exact Or.inr ⟨j + 1, c', q, P, by simp [searchChildren, hlt, hn, hr], hj, hq, hd⟩
      · exact Or.inr ⟨0, c, p, P, by simp [searchChildren, hlt, hp], rfl, hP, hd⟩
    · -- `c` is skipped, and it could not hold an ancestor anyway
      have hna : NoAncestor T b c := noAncestor_of_le hgc (le_of_not_gt hlt)
      rcases rest with ⟨hr, hra⟩ | ⟨j, c', q, P, hr, hj, hq, hd⟩
      · refine Or.inl ⟨by simp [searchChildren, hlt, hr], ?_⟩
        intro x hx
        rcases List.mem_cons.mp hx with rfl | hx
        · exact hna
        · exact hra x hx
      · exact Or.inr ⟨j + 1, c', q, P, by simp [searchChildren, hlt, hr], hj, hq, hd⟩

/-- The search below one node: nothing above `b`, or the path of a deepest ancestor. -/
theorem searchNode_spec {n : Node H N V} (hg : n.Good T (Heights T)) :
    SearchSpec T b (searchNode b (T.height b) T.desc (fun _ => true) n) n := by
  induction hg with
  | @mk h num d cs hok he hg hp ih =>
    rcases searchChildren_spec (fun c hc => ⟨hg c hc, ih c hc⟩) 0 with ⟨hn, hna⟩ | ⟨j, c, q, P, hr, hj, hq, hd⟩
    · -- no ancestor below the node: it is tested itself, as the last node of its subtree
      by_cases hdesc : T.desc h b
      · refine Or.inr ⟨[], ⟨h, num, d, cs⟩, by simp [searchNode, hn, hdesc], rfl, hdesc, ?_⟩
        intro c hc
        exact hna c hc c (self_mem_subtrees c)
      · refine Or.inl ⟨by simp [searchNode, hn, hdesc], ?_⟩
        intro m hm
        rw [subtrees_mk, List.mem_cons, mem_forestSubtrees] at hm
        rcases hm with rfl | ⟨c, hc, hm⟩
        · exact hdesc
        · exact hna c hc m hm
    · exact Or.inr ⟨j :: q, P, by simp [searchNode, hr], by simp [getAt, hj, hq], hd⟩

/-- `find_node_index_where` with a predicate that always holds, in a good tree numbered by heights: the path of
a deepest ancestor of `b`, or `None` when no node of the tree lies above `b`. -/
theorem findNodeIndexWhere_spec {roots : List (Node H N V)} (hf : ForestGood T (Heights T) roots) :
    (findNodeIndexWhere b (T.height b) T.desc (fun _ : V => true) roots = none ∧
      ∀ m ∈ forestSubtrees roots, ¬ T.desc m.hash b) ∨
    ∃ p P, findNodeIndexWhere b (T.height b) T.desc (fun _ : V => true) roots = some p ∧
      getPath roots p = some P ∧ Deepest T b P := by
  suffices key : ∀ (rs : List (Node H N V)), (∀ r ∈ rs, r.Good T (Heights T)) → ∀ i,
      (searchRoots b (T.height b) T.desc (fun _ : V => true) rs i = none ∧ ∀ r ∈ rs, NoAncestor T b r) ∨
      ∃ j r q P, searchRoots b (T.height b) T.desc (fun _ : V => true) rs i = some ((i + j) :: q) ∧
        rs[j]? = some r ∧ r.getAt q = some P ∧ Deepest T b P by
    rcases key roots hf.1 0 with ⟨hn, hna⟩ | ⟨j, r, q, P, hr, hj, hq, hd⟩
    · refine Or.inl ⟨hn, fun m hm => ?_⟩
      obtain ⟨r, hr, hm⟩ := mem_forestSubtrees.mp hm
      exact hna r hr m hm
    · exact Or.inr ⟨j :: q, P, by simpa [findNodeIndexWhere] using hr, by simp [getPath, hj, hq], hd⟩
  intro rs
  induction rs with
  | nil => exact fun _ _ => Or.inl ⟨by simp [searchRoots], by simp⟩
  | cons r rs ih =>
    intro hg i
    have hgr := hg r List.mem_cons_self
    -- the outer loop goes on with the next root, one index further
    have rest : (searchRoots b (T.height b) T.desc (fun _ : V => true) rs (i + 1) = none ∧
        ∀ r ∈ rs, NoAncestor T b r) ∨ ∃ j r' q P,
        searchRoots b (T.height b) T.desc (fun _ : V => true) rs (i + 1) = some ((i + (j + 1)) :: q) ∧
          (r :: rs)[j + 1]? = some r' ∧ r'.getAt q = some P ∧ Deepest T b P := by
      rcases ih (fun r' h' => hg r' (List.mem_cons_of_mem _ h')) (i + 1) with h | ⟨j, r', q, P, hr, hj, hq, hd⟩
      · exact Or.inl h
      · exact Or.inr ⟨j, r', q, P, by rw [hr]; congr 2; omega, hj, hq, hd⟩
    have cont : ∀ (hna : NoAncestor T b r) (hs : searchRoots b (T.height b) T.desc (fun _ : V => true) (r :: rs) i =
        searchRoots b (T.height b) T.desc (fun _ : V => true) rs (i + 1)),
        (searchRoots b (T.height b) T.desc (fun _ : V => true) (r :: rs) i = none ∧
          ∀ r' ∈ r :: rs, NoAncestor T b r') ∨
        ∃ j r' q P, searchRoots b (T.height b) T.desc (fun _ : V => true) (r :: rs) i = some ((i + j) :: q) ∧
          (r :: rs)[j]? = some r' ∧ r'.getAt q = some P ∧ Deepest T b P := by
      intro hna hs
      rw [hs]
      rcases rest with ⟨hr, hra⟩ | ⟨j, r', q, P, hr, hj, hq, hd⟩
      · refine Or.inl ⟨hr, fun x hx => ?_⟩
        rcases List.mem_cons.mp hx with rfl | hx
        · exact hna
        · exact hra x hx
      · exact Or.inr ⟨j + 1, r', q, P, hr, hj, hq, hd⟩
    by_cases hle : T.height b ≤ r.number
    · exact cont (noAncestor_of_le hgr hle) (by simp [searchRoots, hle])
    · rcases searchNode_spec hgr with ⟨hn, hna⟩ | ⟨p, P, hp, hP, hd⟩
      · exact cont hna (by simp [searchRoots, hle, hn])
      · exact Or.inr ⟨0, r, p, P, by simp [searchRoots, hle, hp], rfl, hP, hd⟩

end Deepest

end CoreChain.Fork

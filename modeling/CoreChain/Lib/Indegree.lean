import Mathlib

/-!
# Edges counted over part of a graph

A graph on `α` given by its edge multiplicities `e y h`, the edges from `y` into `h`. Over a list of vertices `S`,
`inCount e S h` counts the edges from `S` into `h`. For a duplicate-free `S` inside a duplicate-free `K`, the count
over `S` is at most the count over `K` (`inCount_le`), and equal to it exactly when no other vertex of `K` has an edge
into `h` (`inCount_eq_iff`): all of `h`'s predecessors in `K` are in `S`.

The count depends only on the vertices of `S`, not their order (`inCount_congr_mem`). Edges added item by item,
each item of `l` giving one edge from the vertex `p` sends it to, if any, add up over the vertices to the items sent
somewhere (`sum_countP_eq_some`), and with the items sent nowhere to all of them (`countP_isNone_add_sum_countP`).

When a rank grows along every edge inside `K`, a vertex of `K` outside `S` of least rank has all its predecessors in
`S` (`exists_inCount_eq`): the step of Kahn's algorithm, by which a topological sort never gets stuck.
-/

namespace CoreChain

variable {α : Type*}

/-- The edges from the vertices of `S` into `h`. -/
def inCount (e : α → α → ℕ) (S : List α) (h : α) : ℕ :=
  (S.map fun y => e y h).sum

@[simp] theorem inCount_nil (e : α → α → ℕ) (h : α) : inCount e [] h = 0 := rfl

@[simp] theorem inCount_append (e : α → α → ℕ) (S T : List α) (h : α) :
    inCount e (S ++ T) h = inCount e S h + inCount e T h := by
  simp [inCount]

@[simp] theorem inCount_singleton (e : α → α → ℕ) (y h : α) : inCount e [y] h = e y h := by
  simp [inCount]

@[simp] theorem inCount_cons (e : α → α → ℕ) (y : α) (S : List α) (h : α) :
    inCount e (y :: S) h = e y h + inCount e S h := by
  simp [inCount]

variable [DecidableEq α]

theorem inCount_eq_sum (e : α → α → ℕ) {S : List α} (hS : S.Nodup) (h : α) :
    inCount e S h = ∑ y ∈ S.toFinset, e y h := by
  rw [inCount, List.sum_toFinset _ hS]

theorem inCount_congr_mem (e : α → α → ℕ) {S T : List α} (hS : S.Nodup) (hT : T.Nodup) (hmem : ∀ a, a ∈ S ↔ a ∈ T)
    (h : α) : inCount e S h = inCount e T h := by
  rw [inCount_eq_sum e hS, inCount_eq_sum e hT]
  congr 1
  ext a
  simp only [List.mem_toFinset, hmem]

/-- Items of `l` sent by `p` to vertices of a duplicate-free `K`: the items sent to each vertex, summed over `K`,
are the items sent somewhere. -/
theorem sum_countP_eq_some {β : Type*} (p : β → Option α) {K : List α} (hK : K.Nodup) {l : List β}
    (hl : ∀ b ∈ l, ∀ a, p b = some a → a ∈ K) :
    (K.map fun a => l.countP fun b => p b = some a).sum = l.countP fun b => (p b).isSome := by
  induction l with
  | nil => simp
  | cons b l ih =>
    have ih := ih fun b' hb' => hl b' (List.mem_cons_of_mem _ hb')
    simp only [List.countP_cons, List.sum_map_add, ih]
    cases hp : p b with
    | none => simp
    | some a =>
      -- the new item is sent to `a` alone, which `K` holds once
      have ha := hl b List.mem_cons_self a hp
      simp only [Option.some.injEq, Option.isSome_some, if_true, decide_eq_true_eq]
      rw [← List.sum_toFinset _ hK, Finset.sum_ite_eq]
      simp [ha]

/-- The items sent nowhere and those sent to each vertex of `K` are all the items. -/
theorem countP_isNone_add_sum_countP {β : Type*} (p : β → Option α) {K : List α} (hK : K.Nodup) {l : List β}
    (hl : ∀ b ∈ l, ∀ a, p b = some a → a ∈ K) :
    l.countP (fun b => (p b).isNone) + (K.map fun a => l.countP fun b => p b = some a).sum = l.length := by
  rw [sum_countP_eq_some p hK hl, List.length_eq_countP_add_countP (fun b => (p b).isNone)]
  congr 1
  exact List.countP_congr fun b _ => by cases p b <;> simp

section Sub

variable (e : α → α → ℕ) {S K : List α} (hS : S.Nodup) (hK : K.Nodup) (hsub : S ⊆ K)
include hS hK hsub

theorem inCount_le (h : α) : inCount e S h ≤ inCount e K h := by
  rw [inCount_eq_sum e hS, inCount_eq_sum e hK]
  exact Finset.sum_le_sum_of_subset (fun y hy => List.mem_toFinset.mpr (hsub (List.mem_toFinset.mp hy)))

/-- The edges from `S` into `h` are all the edges from `K` into it exactly when no vertex of `K` outside `S` has
one. -/
theorem inCount_eq_iff (h : α) : inCount e S h = inCount e K h ↔ ∀ y ∈ K, y ∉ S → e y h = 0 := by
  have hfin : S.toFinset ⊆ K.toFinset := fun y hy => List.mem_toFinset.mpr (hsub (List.mem_toFinset.mp hy))
  rw [inCount_eq_sum e hS, inCount_eq_sum e hK, ← Finset.sum_sdiff hfin]
  constructor
  · intro hsum y hy hyS
    have hzero : ∑ x ∈ K.toFinset \ S.toFinset, e x h = 0 := by omega
    exact (Finset.sum_eq_zero_iff.mp hzero) y (by simp [hy, hyS])
  · intro hzero
    have hrest : ∑ x ∈ K.toFinset \ S.toFinset, e x h = 0 := by
      refine Finset.sum_eq_zero_iff.mpr fun y hy => ?_
      simp only [Finset.mem_sdiff, List.mem_toFinset] at hy
      exact hzero y hy.1 hy.2
    omega

end Sub

/-- The count depends only on the members of `S` (`inCount_congr_mem`). Edges added item by item, each item of `l` an
edge from the vertex `p` sends it to, if any, add up to the items sent somewhere (`sum_countP_eq_some`), and with those
sent nowhere to all of them (`countP_isNone_add_sum_countP`). When a rank grows along every edge inside `K`, a vertex of
`K` outside `S` of least rank has no predecessor in `K` outside `S`. -/
theorem exists_inCount_eq (e : α → α → ℕ) (rank : α → ℕ) {S K : List α}
    (hrank : ∀ y ∈ K, ∀ h ∈ K, 0 < e y h → rank y < rank h) (hne : ∃ h ∈ K, h ∉ S) :
    ∃ h ∈ K, h ∉ S ∧ ∀ y ∈ K, y ∉ S → e y h = 0 := by
  have hT : (K.filter fun h => h ∉ S).toFinset.Nonempty := by
    obtain ⟨h, hK, hS⟩ := hne
    exact ⟨h, by simp [hK, hS]⟩
  obtain ⟨h, hmem, hmin⟩ := Finset.exists_min_image _ rank hT
  simp only [List.mem_toFinset, List.mem_filter, decide_eq_true_eq] at hmem hmin
  refine ⟨h, hmem.1, hmem.2, fun y hy hyS => ?_⟩
  by_contra hpos
  have hlt := hrank y hy h hmem.1 (Nat.pos_of_ne_zero hpos)
  have hle := hmin y ⟨hy, hyS⟩
  omega

end CoreChain

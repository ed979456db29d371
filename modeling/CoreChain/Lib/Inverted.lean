import Mathlib

/-!
# An inverted index over a queue of key sets

A queue of rows, each a list of keys, with an index from a key to the absolute position of the row that holds it;
the row at the front of the queue is at position `base`. `Exact base rows index` says that no key is held twice
(in two rows, or twice in one) and that the index names, for each key, the row that holds it, and nothing for a key
that no row holds.

The operations of such a queue keep the index exact:

- taking the front row off, and its keys out of the index (`Exact.pop`);
- taking a key out of the row the index names, which is the same as erasing it from every row (`Exact.set_eq_map`),
  and out of the index (`Exact.erase`);
- pushing a row of keys no row holds at the back, with each of them indexed there (`Exact.push`).

The index is an association list updated by loops over keys (`AList.lookup_foldl_erase`,
`AList.lookup_foldl_insert`).
-/

namespace CoreChain

/-! ## Loops over the keys of an association list -/

section Fold

variable {K V : Type} [DecidableEq K]

/-- A loop that erases keys leaves a key unbound exactly when it erased it. -/
theorem AList.lookup_foldl_erase (ks : List K) (m : AList (fun _ : K => V)) (k : K) :
    (ks.foldl (fun m k => m.erase k) m).lookup k = if k ∈ ks then none else m.lookup k := by
  induction ks generalizing m with
  | nil => simp
  | cons a ks ih =>
    rw [List.foldl_cons, ih]
    by_cases hk : k ∈ ks
    · simp [hk]
    · by_cases hka : k = a
      · subst hka
        simp [hk, AList.lookup_erase]
      · simp [hk, hka, AList.lookup_erase_ne hka]

/-- A loop that binds keys to one value binds exactly those keys to it. -/
theorem AList.lookup_foldl_insert (ks : List K) (v : V) (m : AList (fun _ : K => V)) (k : K) :
    (ks.foldl (fun m k => m.insert k v) m).lookup k = if k ∈ ks then some v else m.lookup k := by
  induction ks generalizing m with
  | nil => simp
  | cons a ks ih =>
    rw [List.foldl_cons, ih]
    by_cases hk : k ∈ ks
    · simp [hk]
    · by_cases hka : k = a
      · subst hka
        simp [hk, AList.lookup_insert]
      · simp [hk, hka, AList.lookup_insert_ne hka]

end Fold

/-! ## The row of a key -/

section Index

variable {K : Type} [DecidableEq K]

/-- The position in the queue of the first row that holds `k`. -/
def rowOf (rows : List (List K)) (k : K) : Option Nat :=
  rows.findIdx? fun row => decide (k ∈ row)

@[simp]
theorem rowOf_nil (k : K) : rowOf [] k = none := rfl

theorem rowOf_cons (r : List K) (rows : List (List K)) (k : K) :
    rowOf (r :: rows) k = if k ∈ r then some 0 else (rowOf rows k).map (· + 1) := by
  simp only [rowOf, List.findIdx?_cons, decide_eq_true_eq]

theorem rowOf_eq_none {rows : List (List K)} {k : K} : rowOf rows k = none ↔ k ∉ rows.flatten := by
  simp [rowOf, List.findIdx?_eq_none_iff, List.mem_flatten]

theorem rowOf_eq_some {rows : List (List K)} {k : K} {i : Nat} (h : rowOf rows k = some i) :
    ∃ hi : i < rows.length, k ∈ rows[i] := by
  obtain ⟨hi, hk, -⟩ := List.findIdx?_eq_some_iff_getElem.mp h
  exact ⟨hi, by simpa using hk⟩

theorem rowOf_append_singleton (rows : List (List K)) (r : List K) (k : K) :
    rowOf (rows ++ [r]) k = (rowOf rows k).or (if k ∈ r then some rows.length else none) := by
  simp only [rowOf, List.findIdx?_append, List.findIdx?_singleton, decide_eq_true_eq]
  cases rowOf rows k <;> split_ifs <;> simp_all

/-- Rows that agree on whether they hold `k` find it in the same row. -/
theorem rowOf_map_of_mem_iff {rows : List (List K)} {f : List K → List K} {k : K} (hf : ∀ r, k ∈ f r ↔ k ∈ r) :
    rowOf (rows.map f) k = rowOf rows k := by
  simp only [rowOf, List.findIdx?_map, Function.comp_def, hf]

/-- Rows with a key erased from each are a sublist of the rows, joined. -/
theorem flatten_map_erase_sublist (rows : List (List K)) (k : K) :
    (rows.map (·.erase k)).flatten.Sublist rows.flatten := by
  induction rows with
  | nil => exact List.Sublist.refl _
  | cons r rows ih =>
    simp only [List.map_cons, List.flatten_cons]
    exact (List.erase_sublist).append ih

/-! ## Exact indices -/

/-- An exact index of a queue whose front row is at position `base`. -/
structure Exact (base : Nat) (rows : List (List K)) (index : K → Option Nat) : Prop where
  nodup : rows.flatten.Nodup
  index_eq : ∀ k, index k = (rowOf rows k).map (base + ·)

variable {base : Nat} {rows : List (List K)} {index : K → Option Nat}

theorem exact_nil (base : Nat) : Exact base ([] : List (List K)) fun _ => none :=
  ⟨List.nodup_nil, fun _ => rfl⟩

theorem Exact.index_unique {index' : K → Option Nat} (h : Exact base rows index) (h' : Exact base rows index')
    (k : K) : index k = index' k := by
  rw [h.index_eq, h'.index_eq]

theorem Exact.row_nodup (h : Exact base rows index) {r : List K} (hr : r ∈ rows) : r.Nodup :=
  (List.nodup_flatten.mp h.nodup).1 r hr

theorem Exact.not_mem_of_ne (h : Exact base rows index) {k : K} {i j : Nat} (hi : i < rows.length)
    (hj : j < rows.length) (hij : i ≠ j) (hk : k ∈ rows[i]) : k ∉ rows[j] := by
  have hpair := List.pairwise_iff_getElem.mp (List.nodup_flatten.mp h.nodup).2
  rcases Nat.lt_or_gt_of_ne hij with hlt | hlt
  · exact List.disjoint_left.mp (hpair i j hi hj hlt) hk
  · exact List.disjoint_right.mp (hpair j i hj hi hlt) hk

theorem Exact.mem_row {k : K} {block : Nat} (h : Exact base rows index) (hk : index k = some block) :
    base ≤ block ∧ ∃ hlt : block - base < rows.length, k ∈ rows[block - base] := by
  rw [h.index_eq] at hk
  obtain ⟨i, hi, rfl⟩ := Option.map_eq_some_iff.mp hk
  obtain ⟨hlt, hmem⟩ := rowOf_eq_some hi
  refine ⟨Nat.le_add_right _ _, ?_⟩
  simp only [Nat.add_sub_cancel_left]
  exact ⟨hlt, hmem⟩

theorem Exact.not_mem_of_none {k : K} (h : Exact base rows index) (hk : index k = none) : k ∉ rows.flatten := by
  rw [h.index_eq, Option.map_eq_none_iff] at hk
  exact rowOf_eq_none.mp hk

/-- Taking the front row off, and its keys out of the index. -/
theorem Exact.pop {r : List K} (h : Exact base (r :: rows) index) :
    Exact (base + 1) rows fun k => if k ∈ r then none else index k := by
  have hsplit := List.nodup_append.mp (List.flatten_cons ▸ h.nodup : (r ++ rows.flatten).Nodup)
  refine ⟨hsplit.2.1, fun k => ?_⟩
  by_cases hk : k ∈ r
  · have hnot : k ∉ rows.flatten := fun hk' => hsplit.2.2 k hk k hk' rfl
    rw [if_pos hk, (rowOf_eq_none.mpr hnot)]
    rfl
  · rw [if_neg hk, h.index_eq, rowOf_cons, if_neg hk, Option.map_map]
    congr 1
    funext i
    simp only [Function.comp_apply]
    omega

/-- Pushing a row of keys no row holds, each indexed at the back. -/
theorem Exact.push {r : List K} (h : Exact base rows index) (hr : r.Nodup) (hfresh : ∀ k ∈ r, k ∉ rows.flatten) :
    Exact base (rows ++ [r]) fun k => if k ∈ r then some (base + rows.length) else index k := by
  refine ⟨?_, fun k => ?_⟩
  · rw [List.flatten_append, List.flatten_singleton]
    refine List.nodup_append.mpr ⟨h.nodup, hr, ?_⟩
    rintro a ha b hb rfl
    exact hfresh a hb ha
  · rw [rowOf_append_singleton]
    by_cases hk : k ∈ r
    · rw [if_pos hk, if_pos hk, rowOf_eq_none.mpr (hfresh k hk)]
      rfl
    · rw [if_neg hk, if_neg hk, h.index_eq]
      cases rowOf rows k <;> rfl

/-- Erasing a key from every row, and from the index. -/
theorem Exact.erase (h : Exact base rows index) (k : K) :
    Exact base (rows.map (·.erase k)) fun k' => if k' = k then none else index k' := by
  refine ⟨(flatten_map_erase_sublist rows k).nodup h.nodup, fun k' => ?_⟩
  by_cases hk : k' = k
  · subst hk
    rw [if_pos rfl, eq_comm, Option.map_eq_none_iff, rowOf_eq_none]
    simp only [List.mem_flatten, List.mem_map, not_exists, not_and]
    rintro _ ⟨r, hr, rfl⟩
    exact (h.row_nodup hr).not_mem_erase
  · rw [if_neg hk, h.index_eq, rowOf_map_of_mem_iff fun r => List.mem_erase_of_ne hk]

/-- The rows of a queue of any type, through the keys of each, with an exact index: an update of the row the index
names for `k`, by an operation that changes no row without `k`, is that update of every row. -/
theorem Exact.set_eq_map {α : Type} {rows : List α} {keys : α → List K} {g : α → α} {k : K} {block : Nat}
    (h : Exact base (rows.map keys) index) (hg : ∀ a, k ∉ keys a → g a = a) (hk : index k = some block) :
    base ≤ block ∧ ∃ hlt : block - base < rows.length, rows.set (block - base) (g rows[block - base]) = rows.map g := by
  obtain ⟨hle, hlt, hmem⟩ := h.mem_row hk
  rw [List.length_map] at hlt
  refine ⟨hle, hlt, List.ext_getElem (by simp) fun j hj₁ hj₂ => ?_⟩
  rw [List.getElem_set, List.getElem_map]
  split_ifs with hj
  · subst hj
    rfl
  · rw [List.length_set] at hj₁
    have hnot := h.not_mem_of_ne (by simpa using hlt) (by simpa using hj₁) hj (by simpa using hmem)
    rw [List.getElem_map] at hnot
    exact (hg _ hnot).symm

/-- An update that changes no row without `k` changes no row when the index does not name `k`. -/
theorem Exact.map_eq_self {α : Type} {rows : List α} {keys : α → List K} {g : α → α} {k : K}
    (h : Exact base (rows.map keys) index) (hg : ∀ a, k ∉ keys a → g a = a) (hk : index k = none) :
    rows.map g = rows := by
  have hnot := h.not_mem_of_none hk
  calc rows.map g
      = rows.map id := List.map_congr_left fun r hr =>
        hg r fun hkr => hnot (List.mem_flatten.mpr ⟨keys r, List.mem_map_of_mem hr, hkr⟩)
    _ = rows := List.map_id rows

theorem Exact.congr {index' : K → Option Nat} (h : Exact base rows index) (hi : ∀ k, index' k = index k) :
    Exact base rows index' :=
  ⟨h.nodup, fun k => (hi k).trans (h.index_eq k)⟩

end Index

end CoreChain

import Mathlib

/-!
# Maps with sorted keys

A `BTreeMap` as the list of its entries in the order it iterates them, keys strictly increasing (`KeysSorted`,
carried by `SortedMap`), read with `List.lookup`. The operations follow the documented behaviour of
`alloc::collections::BTreeMap`:

- `upsertEntry f k v` is `entry(k).and_modify(f).or_insert(v)` (`lookup_upsertEntry`);
- `mergeEntries l₁ l₂` is `l₁.append(l₂)`: every entry of both, the second's value on a common key
  (`lookup_mergeEntries`).

A `BTreeSet` is a map to `Unit`. Upserting every entry of a sorted list in turn is read off one lookup of each
side (`lookup_foldl_upsertEntry`), and two lists whose entries are related one by one, each pair with one key,
have related lookups (`lookup_rel_of_forall₂`). On a `SortedMap`, `get?`, `upsert`, `insert` and `append` are the
`BTreeMap` calls of the same names.
-/

namespace CoreChain

variable {K V : Type} [LinearOrder K]

/-- Entries whose keys strictly increase: the order in which a `BTreeMap` iterates them. -/
def KeysSorted (l : List (K × V)) : Prop :=
  l.Pairwise fun a b => a.1 < b.1

instance (l : List (K × V)) : Decidable (KeysSorted l) :=
  inferInstanceAs (Decidable (l.Pairwise _))

/-- A `BTreeMap`: its entries in increasing order of keys. -/
structure SortedMap (K V : Type) [LinearOrder K] where
  entries : List (K × V)
  sorted : KeysSorted entries

/-- `BTreeMap::entry(k).and_modify(f).or_insert(v)`. -/
def upsertEntry (f : V → V) (k : K) (v : V) : List (K × V) → List (K × V)
  | [] => [(k, v)]
  | (k', v') :: l =>
    if k < k' then (k, v) :: (k', v') :: l
    else if k = k' then (k', f v') :: l
    else (k', v') :: upsertEntry f k v l

/-- `BTreeMap::append`: the entries of both maps in order, the second's value on a common key. -/
def mergeEntries : List (K × V) → List (K × V) → List (K × V)
  | [], l₂ => l₂
  | e :: l₁, [] => e :: l₁
  | (k₁, v₁) :: l₁, (k₂, v₂) :: l₂ =>
    if k₁ < k₂ then (k₁, v₁) :: mergeEntries l₁ ((k₂, v₂) :: l₂)
    else if k₂ < k₁ then (k₂, v₂) :: mergeEntries ((k₁, v₁) :: l₁) l₂
    else (k₂, v₂) :: mergeEntries l₁ l₂
termination_by l₁ l₂ => l₁.length + l₂.length

/-! ## Lookups -/

section Lookup

variable {l l₁ l₂ : List (K × V)} {k k' : K} {v v' : V}

theorem lookup_cons_of_ne (h : k ≠ k') : ((k', v) :: l).lookup k = l.lookup k := by
  rw [List.lookup_cons, beq_false_of_ne h]

theorem lookup_eq_none_of_forall_lt (h : ∀ p ∈ l, k < p.1) : l.lookup k = none :=
  List.lookup_eq_none_iff.mpr fun p hp => bne_iff_ne.mpr (ne_of_lt (h p hp))

theorem KeysSorted.of_cons (h : KeysSorted ((k', v') :: l)) : KeysSorted l :=
  List.Pairwise.of_cons h

theorem KeysSorted.lt_of_mem (h : KeysSorted ((k', v') :: l)) {p : K × V} (hp : p ∈ l) : k' < p.1 :=
  List.rel_of_pairwise_cons h hp

theorem KeysSorted.lookup_eq_none (h : KeysSorted ((k', v') :: l)) (hk : k < k') : ((k', v') :: l).lookup k = none :=
  lookup_eq_none_of_forall_lt fun p hp => by
    rcases List.mem_cons.mp hp with rfl | hp
    · exact hk
    · exact lt_trans hk (h.lt_of_mem hp)

theorem KeysSorted.lookup_of_mem (h : KeysSorted l) {p : K × V} (hp : p ∈ l) : l.lookup p.1 = some p.2 := by
  induction l with
  | nil => cases hp
  | cons q l ih =>
    rcases List.mem_cons.mp hp with rfl | hp
    · exact List.lookup_cons_self
    · rw [lookup_cons_of_ne (ne_of_gt (h.lt_of_mem hp))]
      exact ih h.of_cons hp

/-- Keeping the entries that pass a test keeps, under a key, what passes it. -/
theorem KeysSorted.lookup_filter (h : KeysSorted l) (f : K → V → Bool) (k : K) :
    (l.filter fun p => f p.1 p.2).lookup k = (l.lookup k).filter (f k) := by
  induction l with
  | nil => rfl
  | cons q l ih =>
    obtain ⟨k', v'⟩ := q
    by_cases hk : k = k'
    · subst hk
      -- the key is not found again in the tail
      have hnone : (l.filter fun p => f p.1 p.2).lookup k = none :=
        lookup_eq_none_of_forall_lt fun p hp => h.lt_of_mem (List.mem_filter.mp hp).1
      rw [List.lookup_cons_self, Option.filter_some]
      by_cases hf : f k v' = true
      · simp only [List.filter_cons, hf, if_true, List.lookup_cons_self]
      · simp only [List.filter_cons, hf, Bool.false_eq_true, if_false, hnone]
    · rw [lookup_cons_of_ne hk, ← ih h.of_cons]
      by_cases hf : f k' v' = true
      · simp only [List.filter_cons, hf, if_true, lookup_cons_of_ne hk]
      · simp only [List.filter_cons, hf, Bool.false_eq_true, if_false]

theorem KeysSorted.of_keys_eq {l' : List (K × V')} (h : KeysSorted l) (hkeys : l'.map Prod.fst = l.map Prod.fst) :
    KeysSorted l' := by
  have hl : (l.map Prod.fst).Pairwise (· < ·) := List.pairwise_map.mpr h
  rw [← hkeys] at hl
  exact List.pairwise_map.mp hl

end Lookup

/-! ## `entry(k).and_modify(f).or_insert(v)` -/

section Upsert

variable {l : List (K × V)} {f : V → V} {k k' : K} {v : V}

theorem mem_upsertEntry {p : K × V} (hp : p ∈ upsertEntry f k v l) : p.1 = k ∨ ∃ q ∈ l, p.1 = q.1 := by
  induction l with
  | nil =>
    rw [upsertEntry, List.mem_singleton] at hp
    exact .inl (by rw [hp])
  | cons q l ih =>
    obtain ⟨k', v'⟩ := q
    unfold upsertEntry at hp
    split_ifs at hp with hlt heq
    · rcases List.mem_cons.mp hp with rfl | hp
      · exact .inl rfl
      · exact .inr ⟨p, hp, rfl⟩
    · rcases List.mem_cons.mp hp with rfl | hp
      · exact .inr ⟨_, List.mem_cons_self, rfl⟩
      · exact .inr ⟨p, List.mem_cons_of_mem _ hp, rfl⟩
    · rcases List.mem_cons.mp hp with rfl | hp
      · exact .inr ⟨_, List.mem_cons_self, rfl⟩
      · obtain h | ⟨q, hq, h⟩ := ih hp
        · exact .inl h
        · exact .inr ⟨q, List.mem_cons_of_mem _ hq, h⟩

theorem KeysSorted.upsertEntry (h : KeysSorted l) : KeysSorted (upsertEntry f k v l) := by
  induction l with
  | nil => exact List.pairwise_singleton _ _
  | cons q l ih =>
    obtain ⟨k', v'⟩ := q
    unfold CoreChain.upsertEntry
    split_ifs with hlt heq
    · refine List.Pairwise.cons (fun p hp => ?_) h
      rcases List.mem_cons.mp hp with rfl | hp
      · exact hlt
      · exact lt_trans hlt (h.lt_of_mem hp)
    · exact List.Pairwise.cons (fun p hp => h.lt_of_mem hp) h.of_cons
    · -- the new key lies after the head
      have hgt : k' < k := lt_of_le_of_ne (not_lt.mp hlt) (Ne.symm heq)
      refine List.Pairwise.cons (fun p hp => ?_) (ih h.of_cons)
      obtain hk | ⟨q, hq, hk⟩ := mem_upsertEntry hp
      · rw [hk]
        exact hgt
      · rw [hk]
        exact h.lt_of_mem hq

/-- After `entry(k).and_modify(f).or_insert(v)`, the key `k` holds `f` of what it held, or `v`. -/
theorem lookup_upsertEntry (h : KeysSorted l) :
    (upsertEntry f k v l).lookup k' = if k' = k then some (((l.lookup k).map f).getD v) else l.lookup k' := by
  induction l with
  | nil =>
    by_cases hk : k' = k
    · rw [if_pos hk, hk]
      exact List.lookup_cons_self
    · rw [if_neg hk]
      exact lookup_cons_of_ne hk
  | cons q l ih =>
    obtain ⟨k₁, v₁⟩ := q
    by_cases hk : k' = k
    · rw [if_pos hk, hk]
      unfold upsertEntry
      split_ifs with hlt heq
      · rw [h.lookup_eq_none hlt]
        exact List.lookup_cons_self
      · subst heq
        simp
      · have ih := ih h.of_cons
        rw [if_pos hk, hk] at ih
        rw [lookup_cons_of_ne heq, lookup_cons_of_ne heq, ih]
    · rw [if_neg hk]
      unfold upsertEntry
      split_ifs with hlt heq
      · exact lookup_cons_of_ne hk
      · rw [← heq, lookup_cons_of_ne hk, lookup_cons_of_ne hk]
      · by_cases hk₁ : k' = k₁
        · rw [hk₁, List.lookup_cons_self, List.lookup_cons_self]
        · rw [lookup_cons_of_ne hk₁, lookup_cons_of_ne hk₁, ih h.of_cons, if_neg hk]

theorem length_upsertEntry_le : (upsertEntry f k v l).length ≤ l.length + 1 := by
  induction l with
  | nil => simp [upsertEntry]
  | cons q l ih =>
    obtain ⟨k₁, v₁⟩ := q
    unfold upsertEntry
    split_ifs
    · simp
    · simp
    · simpa using ih

end Upsert

/-! ## `append` -/

section Merge

variable {l₁ l₂ : List (K × V)}

theorem mem_mergeEntries {p : K × V} (hp : p ∈ mergeEntries l₁ l₂) : p ∈ l₁ ∨ p ∈ l₂ := by
  induction l₁, l₂ using mergeEntries.induct with
  | case1 l₂ =>
    rw [mergeEntries] at hp
    exact .inr hp
  | case2 e l₁ =>
    rw [mergeEntries] at hp
    exact .inl hp
  | case3 k₁ v₁ l₁ k₂ v₂ l₂ hlt ih =>
    rw [mergeEntries, if_pos hlt] at hp
    rcases List.mem_cons.mp hp with rfl | hp
    · exact .inl List.mem_cons_self
    · exact (ih hp).imp (List.mem_cons_of_mem _) id
  | case4 k₁ v₁ l₁ k₂ v₂ l₂ hlt hgt ih =>
    rw [mergeEntries, if_neg hlt, if_pos hgt] at hp
    rcases List.mem_cons.mp hp with rfl | hp
    · exact .inr List.mem_cons_self
    · exact (ih hp).imp id (List.mem_cons_of_mem _)
  | case5 k₁ v₁ l₁ k₂ v₂ l₂ hlt hgt ih =>
    rw [mergeEntries, if_neg hlt, if_neg hgt] at hp
    rcases List.mem_cons.mp hp with rfl | hp
    · exact .inr List.mem_cons_self
    · exact (ih hp).imp (List.mem_cons_of_mem _) (List.mem_cons_of_mem _)

theorem KeysSorted.mergeEntries (h₁ : KeysSorted l₁) (h₂ : KeysSorted l₂) : KeysSorted (mergeEntries l₁ l₂) := by
  induction l₁, l₂ using CoreChain.mergeEntries.induct with
  | case1 l₂ =>
    rw [CoreChain.mergeEntries]
    exact h₂
  | case2 e l₁ =>
    rw [CoreChain.mergeEntries]
    exact h₁
  | case3 k₁ v₁ l₁ k₂ v₂ l₂ hlt ih =>
    rw [CoreChain.mergeEntries, if_pos hlt]
    refine List.Pairwise.cons (fun p hp => ?_) (ih h₁.of_cons h₂)
    rcases mem_mergeEntries hp with hp | hp
    · exact h₁.lt_of_mem hp
    · rcases List.mem_cons.mp hp with rfl | hp
      · exact hlt
      · exact lt_trans hlt (h₂.lt_of_mem hp)
  | case4 k₁ v₁ l₁ k₂ v₂ l₂ hlt hgt ih =>
    rw [CoreChain.mergeEntries, if_neg hlt, if_pos hgt]
    refine List.Pairwise.cons (fun p hp => ?_) (ih h₁ h₂.of_cons)
    rcases mem_mergeEntries hp with hp | hp
    · rcases List.mem_cons.mp hp with rfl | hp
      · exact hgt
      · exact lt_trans hgt (h₁.lt_of_mem hp)
    · exact h₂.lt_of_mem hp
  | case5 k₁ v₁ l₁ k₂ v₂ l₂ hlt hgt ih =>
    rw [CoreChain.mergeEntries, if_neg hlt, if_neg hgt]
    have heq : k₁ = k₂ := le_antisymm (not_lt.mp hgt) (not_lt.mp hlt)
    refine List.Pairwise.cons (fun p hp => ?_) (ih h₁.of_cons h₂.of_cons)
    rcases mem_mergeEntries hp with hp | hp
    · exact heq ▸ h₁.lt_of_mem hp
    · exact h₂.lt_of_mem hp

/-- After `append`, a key holds the second map's value, or else the first's. -/
theorem lookup_mergeEntries (h₁ : KeysSorted l₁) (h₂ : KeysSorted l₂) (k : K) :
    (mergeEntries l₁ l₂).lookup k = (l₂.lookup k).or (l₁.lookup k) := by
  induction l₁, l₂ using mergeEntries.induct with
  | case1 l₂ => simp [mergeEntries]
  | case2 e l₁ => simp [mergeEntries]
  | case3 k₁ v₁ l₁ k₂ v₂ l₂ hlt ih =>
    rw [mergeEntries, if_pos hlt]
    by_cases hk : k = k₁
    · subst hk
      rw [h₂.lookup_eq_none hlt, List.lookup_cons_self, List.lookup_cons_self]
      rfl
    · rw [lookup_cons_of_ne hk, lookup_cons_of_ne hk, ih h₁.of_cons h₂]
  | case4 k₁ v₁ l₁ k₂ v₂ l₂ hlt hgt ih =>
    rw [mergeEntries, if_neg hlt, if_pos hgt]
    by_cases hk : k = k₂
    · subst hk
      simp
    · rw [lookup_cons_of_ne hk, lookup_cons_of_ne hk, ih h₁ h₂.of_cons]
  | case5 k₁ v₁ l₁ k₂ v₂ l₂ hlt hgt ih =>
    rw [mergeEntries, if_neg hlt, if_neg hgt]
    have heq : k₁ = k₂ := le_antisymm (not_lt.mp hgt) (not_lt.mp hlt)
    subst heq
    by_cases hk : k = k₁
    · subst hk
      simp
    · rw [lookup_cons_of_ne hk, lookup_cons_of_ne hk, lookup_cons_of_ne hk, ih h₁.of_cons h₂.of_cons]

end Merge

/-! ## Loops over entries -/

/-- Upserting the entries of a sorted list in turn: a key of the list holds its value combined by `F` onto what it
held, or its value; any other key keeps what it held. -/
theorem lookup_foldl_upsertEntry (F : V → V → V) {l m : List (K × V)} (hl : KeysSorted l) (hm : KeysSorted m)
    (k : K) :
    (l.foldl (fun acc p => upsertEntry (F · p.2) p.1 p.2 acc) m).lookup k =
      (l.lookup k).elim (m.lookup k) fun a => some (((m.lookup k).map (F · a)).getD a) := by
  induction l generalizing m with
  | nil => rfl
  | cons p l ih =>
    obtain ⟨k₁, a₁⟩ := p
    rw [List.foldl_cons, ih hl.of_cons hm.upsertEntry, lookup_upsertEntry hm]
    by_cases hk : k = k₁
    · subst hk
      rw [lookup_eq_none_of_forall_lt fun p hp => hl.lt_of_mem hp, List.lookup_cons_self, if_pos rfl]
      rfl
    · rw [lookup_cons_of_ne hk, if_neg hk]

/-- Lists whose entries are related one by one, each pair with one key, have related lookups. -/
theorem lookup_rel_of_forall₂ {V' : Type} {R : K × V' → K × V → Prop} {l' : List (K × V')} {l : List (K × V)}
    (h : List.Forall₂ R l' l) (hkey : ∀ o i, R o i → o.1 = i.1) (k : K) :
    Option.Rel (fun v' v => R (k, v') (k, v)) (l'.lookup k) (l.lookup k) := by
  induction h with
  | nil => exact Option.Rel.none
  | @cons o i l' l hR _ ih =>
    obtain ⟨k', v'⟩ := o
    obtain ⟨k₁, v₁⟩ := i
    obtain rfl : k' = k₁ := hkey _ _ hR
    by_cases hk : k = k'
    · subst hk
      rw [List.lookup_cons_self, List.lookup_cons_self]
      exact Option.Rel.some hR
    · rw [lookup_cons_of_ne hk, lookup_cons_of_ne hk]
      exact ih

omit [LinearOrder K] in
/-- Lists whose entries are related one by one, each pair with one key, have the same keys. -/
theorem keys_eq_of_forall₂ {V' : Type} {R : K × V' → K × V → Prop} {l' : List (K × V')} {l : List (K × V)}
    (h : List.Forall₂ R l' l) (hkey : ∀ o i, R o i → o.1 = i.1) : l'.map Prod.fst = l.map Prod.fst := by
  induction h with
  | nil => rfl
  | cons hR _ ih => rw [List.map_cons, List.map_cons, hkey _ _ hR, ih]

/-! ## Maps -/

namespace SortedMap

/-- `BTreeMap::new`. -/
def empty : SortedMap K V :=
  ⟨[], List.Pairwise.nil⟩

/-- `BTreeMap::get`. -/
def get? (m : SortedMap K V) (k : K) : Option V :=
  m.entries.lookup k

/-- `BTreeMap::entry(k).and_modify(f).or_insert(v)`. -/
def upsert (m : SortedMap K V) (f : V → V) (k : K) (v : V) : SortedMap K V :=
  ⟨upsertEntry f k v m.entries, m.sorted.upsertEntry⟩

/-- `BTreeMap::insert`, and `BTreeSet::insert` with `v = ()`. -/
def insert (m : SortedMap K V) (k : K) (v : V) : SortedMap K V :=
  m.upsert (fun _ => v) k v

/-- `BTreeMap::append`, and `BTreeSet::append`. -/
def append (m₁ m₂ : SortedMap K V) : SortedMap K V :=
  ⟨mergeEntries m₁.entries m₂.entries, m₁.sorted.mergeEntries m₂.sorted⟩

theorem get?_upsert (m : SortedMap K V) (f : V → V) (k k' : K) (v : V) :
    (m.upsert f k v).get? k' = if k' = k then some (((m.get? k).map f).getD v) else m.get? k' :=
  lookup_upsertEntry m.sorted

theorem get?_append (m₁ m₂ : SortedMap K V) (k : K) : (m₁.append m₂).get? k = (m₂.get? k).or (m₁.get? k) :=
  lookup_mergeEntries m₁.sorted m₂.sorted k

/-- `BTreeMap::retain`. -/
def retain (m : SortedMap K V) (f : K → V → Bool) : SortedMap K V :=
  ⟨m.entries.filter fun p => f p.1 p.2, List.Pairwise.filter _ m.sorted⟩

@[simp] theorem get?_empty (k : K) : (empty : SortedMap K V).get? k = none :=
  rfl

theorem get?_insert (m : SortedMap K V) (k k' : K) (v : V) :
    (m.insert k v).get? k' = if k' = k then some v else m.get? k' := by
  rw [insert, get?_upsert]
  split_ifs
  · cases m.get? k <;> rfl
  · rfl

theorem get?_retain (m : SortedMap K V) (f : K → V → Bool) (k : K) : (m.retain f).get? k = (m.get? k).filter (f k) :=
  m.sorted.lookup_filter f k

/-- `BTreeMap::remove`, and `BTreeSet::remove`. -/
def remove (m : SortedMap K V) (k : K) : SortedMap K V :=
  m.retain fun k' _ => k' ≠ k

theorem get?_remove (m : SortedMap K V) (k k' : K) : (m.remove k).get? k' = if k' = k then none else m.get? k' := by
  rw [remove, get?_retain]
  by_cases hk : k' = k
  · rw [if_pos hk]
    cases m.get? k' <;> simp [hk]
  · rw [if_neg hk]
    cases m.get? k' <;> simp [hk]

theorem length_insert_le (m : SortedMap K V) (k : K) (v : V) : (m.insert k v).entries.length ≤ m.entries.length + 1 :=
  length_upsertEntry_le

theorem nodup_keys (m : SortedMap K V) : (m.entries.map Prod.fst).Nodup :=
  (List.pairwise_map.mpr m.sorted).imp ne_of_lt

theorem get?_of_mem (m : SortedMap K V) {p : K × V} (hp : p ∈ m.entries) : m.get? p.1 = some p.2 :=
  m.sorted.lookup_of_mem hp

end SortedMap

end CoreChain

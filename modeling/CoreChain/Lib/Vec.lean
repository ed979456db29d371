import Mathlib

/-!
# Vector operations of the Rust standard library

Lists stand for `Vec`s. The operations here follow the documented behaviour of `alloc::vec::Vec`:

- `swapRemove l i` is `Vec::swap_remove`: the last element takes the place of the removed one. The order
  changes, but the result is a permutation of `l.eraseIdx i` (`swapRemove_perm`), so every order-free property of
  the rest survives it.
- `binarySearchBy l f` is `slice::binary_search_by`, by the halving loop of the standard library. On a sorted
  slice its index splits the slice at the searched key (`binarySearchBy_split`), and `Vec::insert` there keeps the
  slice sorted (`pairwise_insertIdx`); and on a sorted slice a `take_while` up to a key keeps every element with
  that key (`filter_takeWhile_of_pairwise`). `partitionPoint` is `slice::partition_point`, the same search.
-/

namespace CoreChain

variable {α : Type _}

/-- `Vec::swap_remove(i)` for `i < len`: overwrite slot `i` with the last element, then drop the last slot. -/
def swapRemove (l : List α) (i : Nat) : List α :=
  match l.getLast? with
  | some x => (l.set i x).dropLast
  | none => []

theorem swapRemove_perm {l : List α} {i : Nat} (hi : i < l.length) : (swapRemove l i).Perm (l.eraseIdx i) := by
  obtain ⟨l', x, rfl⟩ : ∃ l' x, l = l' ++ [x] := by
    rcases List.eq_nil_or_concat l with rfl | ⟨l', x, rfl⟩
    · simp at hi
    · exact ⟨l', x, by simp⟩
  simp only [List.length_append, List.length_singleton] at hi
  rcases Nat.lt_or_ge i l'.length with h | h
  · -- `i` is before the last slot: the last element moves into it
    have hs : (l' ++ [x]).set i x = l'.set i x ++ [x] := by
      rw [List.set_append_left _ _ h]
    have he : (l' ++ [x]).eraseIdx i = l'.eraseIdx i ++ [x] := List.eraseIdx_append_of_lt_length h _
    simp only [swapRemove, List.getLast?_append, List.getLast?_singleton, Option.some_or, hs,
      List.dropLast_concat, he]
    rw [List.set_eq_take_append_cons_drop, if_pos h, List.eraseIdx_eq_take_drop_succ, List.append_assoc]
    exact List.Perm.append_left _ (List.perm_append_singleton _ _).symm
  · -- `i` is the last slot: the element is simply dropped
    have hi' : i = l'.length := by omega
    subst hi'
    simp [swapRemove, List.set_append_right, List.eraseIdx_append_of_length_le]

theorem take_swapRemove {l : List α} {i j : Nat} (hi : i < l.length) (hj : j ≤ i) :
    (swapRemove l i).take j = l.take j := by
  obtain ⟨l', x, rfl⟩ : ∃ l' x, l = l' ++ [x] := by
    rcases List.eq_nil_or_concat l with rfl | ⟨l', x, rfl⟩
    · simp at hi
    · exact ⟨l', x, by simp⟩
  simp only [List.length_append, List.length_singleton] at hi
  rw [List.take_append_of_le_length (by omega)]
  rcases Nat.lt_or_ge i l'.length with h | h
  · simp only [swapRemove, List.getLast?_append, List.getLast?_singleton, Option.some_or,
      List.set_append_left _ _ h, List.dropLast_concat]
    exact List.take_set_of_le hj
  · have hi' : i = l'.length := by omega
    subst hi'
    simp [swapRemove, List.set_append_right]

theorem mem_modify {l : List α} {i : Nat} {f : α → α} {x : α} (h : x ∈ l.modify i f) :
    x ∈ l ∨ ∃ y, l[i]? = some y ∧ x = f y := by
  induction l generalizing i with
  | nil => simp at h
  | cons a l ih =>
    cases i with
    | zero =>
      rw [List.modify_zero_cons, List.mem_cons] at h
      rcases h with rfl | h
      · exact Or.inr ⟨a, rfl, rfl⟩
      · exact Or.inl (List.mem_cons_of_mem _ h)
    | succ i =>
      rw [List.modify_succ_cons, List.mem_cons] at h
      rcases h with rfl | h
      · exact Or.inl List.mem_cons_self
      · rcases ih h with h | ⟨y, hy, rfl⟩
        · exact Or.inl (List.mem_cons_of_mem _ h)
        · exact Or.inr ⟨y, hy, rfl⟩

theorem map_modify_of_getElem? {β : Type _} (g : α → β) {f : α → α} {l : List α} {i : Nat} {y : α}
    (hy : l[i]? = some y) (hf : g (f y) = g y) : (l.modify i f).map g = l.map g := by
  induction l generalizing i with
  | nil => simp at hy
  | cons a l ih =>
    cases i with
    | zero =>
      simp only [List.getElem?_cons_zero, Option.some.injEq] at hy
      subst hy
      simp [hf]
    | succ i =>
      simp only [List.getElem?_cons_succ] at hy
      simp [ih hy]

/-! ## Binary search -/

/-- The loop of `slice::binary_search_by`: the answer lies in `[base, base + size)`, and each round compares the
middle element and keeps one half. -/
def binarySearchLoop (f : α → Ordering) (l : List α) (base size : Nat) : Nat :=
  if 1 < size then
    binarySearchLoop f l (if l[base + size / 2]?.map f = some .gt then base else base + size / 2) (size - size / 2)
  else base
termination_by size

/-- `slice::binary_search_by`: `Ok` with the index of an element that `f` finds equal, or `Err` with the index
where one would go. -/
def binarySearchBy (l : List α) (f : α → Ordering) : Except Nat Nat :=
  if l.length = 0 then .error 0
  else
    let base := binarySearchLoop f l 0 l.length
    match l[base]?.map f with
    | some .eq => .ok base
    | some .lt => .error (base + 1)
    | _ => .error base

/-- `slice::partition_point`: a binary search whose comparison never finds the element, so its `Err` index is where
the predicate stops holding (the end, where it always holds: `partitionPoint_of_forall`). -/
def partitionPoint (l : List α) (pred : α → Bool) : Nat :=
  match binarySearchBy l (fun x => if pred x then .lt else .gt) with
  | .ok i => i
  | .error i => i

section BinarySearch

variable {K : Type _} [LinearOrder K] (key : α → K) (t : K) (l : List α)

/-- The elements of `l` before `lo` are at most `t`, and those from `hi` on are above it. -/
def SplitsAt (lo hi : Nat) : Prop :=
  (∀ j (hj : j < l.length), j < lo → key l[j] ≤ t) ∧ (∀ j (hj : j < l.length), hi ≤ j → t < key l[j])

variable {key t l}

/-- Each round of the loop keeps the answer bracketed; the loop ends on one element. -/
theorem binarySearchLoop_spec (hs : l.Pairwise (fun a b => key a ≤ key b)) :
    ∀ size base, 1 ≤ size → base + size ≤ l.length → SplitsAt key t l base (base + size) →
      binarySearchLoop (fun x => compare (key x) t) l base size < l.length ∧
        SplitsAt key t l (binarySearchLoop (fun x => compare (key x) t) l base size)
          (binarySearchLoop (fun x => compare (key x) t) l base size + 1) := by
  intro size
  induction size using Nat.strongRecOn with
  | _ size ih =>
  intro base h1 hb hsplit
  rw [binarySearchLoop]
  by_cases hsize : 1 < size
  · rw [if_pos hsize]
    have hmid : base + size / 2 < l.length := by omega
    have hsorted := List.pairwise_iff_getElem.mp hs
    by_cases hgt : l[base + size / 2]?.map (fun x => compare (key x) t) = some .gt
    · -- the middle element is above `t`, and so is everything after it
      rw [if_pos hgt]
      have hlt : t < key l[base + size / 2] := by
        rw [List.getElem?_eq_getElem hmid, Option.map_some, Option.some.injEq] at hgt
        exact compare_gt_iff_gt.mp hgt
      refine ih _ (by omega) base (by omega) (by omega) ⟨hsplit.1, fun j hj hj' => ?_⟩
      rcases Nat.eq_or_lt_of_le (show base + size / 2 ≤ j by omega) with rfl | hj''
      · exact hlt
      · exact lt_of_lt_of_le hlt (hsorted _ _ hmid hj hj'')
    · -- the middle element is at most `t`, and so is everything before it
      rw [if_neg hgt]
      have hle : key l[base + size / 2] ≤ t := by
        rw [List.getElem?_eq_getElem hmid, Option.map_some, Option.some.injEq] at hgt
        exact not_lt.mp (fun h => hgt (compare_gt_iff_gt.mpr h))
      refine ih _ (by omega) _ (by omega) (by omega) ⟨fun j hj hj' => ?_, fun j hj hj' => hsplit.2 j hj (by omega)⟩
      rcases Nat.lt_or_ge j base with hj'' | hj''
      · exact hsplit.1 j hj hj''
      · exact le_trans (hsorted _ _ hj hmid (by omega)) hle
  · rw [if_neg hsize]
    obtain rfl : size = 1 := by omega
    exact ⟨by omega, hsplit⟩

/-- On a sorted slice, the index that `binary_search_by_key` returns, `Ok` or `Err`, has the elements at most
the key before it and the elements at least the key from it on. -/
theorem binarySearchBy_split (hs : l.Pairwise (fun a b => key a ≤ key b)) :
    ∀ i, (binarySearchBy l (fun x => compare (key x) t) = .ok i ∨
        binarySearchBy l (fun x => compare (key x) t) = .error i) →
      i ≤ l.length ∧ (∀ j (hj : j < l.length), j < i → key l[j] ≤ t) ∧
        (∀ j (hj : j < l.length), i ≤ j → t ≤ key l[j]) := by
  intro i hi
  rcases Nat.eq_zero_or_pos l.length with hl | hl
  · have hbs : binarySearchBy l (fun x => compare (key x) t) = .error 0 := by simp [binarySearchBy, hl]
    rw [hbs] at hi
    obtain rfl : 0 = i := by simpa using hi
    exact ⟨Nat.zero_le _, fun j hj => by omega, fun j hj => by omega⟩
  · obtain ⟨hbase, hlo, hhi⟩ := binarySearchLoop_spec hs l.length 0 (by omega) (by omega)
      ⟨fun j _ hj => by omega, fun j hj hj' => by omega⟩
    generalize hr : binarySearchLoop (fun x => compare (key x) t) l 0 l.length = r at hbase hlo hhi
    -- the loop stops at `r`; the answer is read off how the element there compares with `t`
    rcases hc : compare (key l[r]) t with _ | _ | _ <;>
      simp only [binarySearchBy, if_neg (show ¬ l.length = 0 by omega), hr, List.getElem?_eq_getElem hbase,
        Option.map_some, hc] at hi
    · -- the element at `r` is below `t`: the answer is the next index
      obtain rfl : r + 1 = i := by simpa using hi
      refine ⟨by omega, fun j hj hj' => ?_, fun j hj hj' => le_of_lt (hhi j hj hj')⟩
      rcases Nat.lt_or_ge j r with hj'' | hj''
      · exact hlo j hj hj''
      · obtain rfl : j = r := by omega
        exact le_of_lt (compare_lt_iff_lt.mp hc)
    · obtain rfl : r = i := by simpa using hi
      refine ⟨by omega, hlo, fun j hj hj' => ?_⟩
      rcases Nat.eq_or_lt_of_le hj' with rfl | hj''
      · exact le_of_eq (compare_eq_iff_eq.mp hc).symm
      · exact le_of_lt (hhi j hj hj'')
    · obtain rfl : r = i := by simpa using hi
      refine ⟨by omega, hlo, fun j hj hj' => ?_⟩
      rcases Nat.eq_or_lt_of_le hj' with rfl | hj''
      · exact le_of_lt (compare_gt_iff_gt.mp hc)
      · exact le_of_lt (hhi j hj hj'')

/-- On a sorted list, cutting at the first key above `t` loses none of the elements with key `t`. -/
theorem filter_takeWhile_of_pairwise {l : List α} (hs : l.Pairwise (fun a b => key a ≤ key b)) :
    (l.takeWhile (fun a => decide (key a ≤ t))).filter (fun a => decide (key a = t)) =
      l.filter (fun a => decide (key a = t)) := by
  induction l with
  | nil => rfl
  | cons a l ih =>
    rw [List.pairwise_cons] at hs
    by_cases ha : key a ≤ t
    · rw [List.takeWhile_cons_of_pos (by simpa using ha), List.filter_cons, List.filter_cons, ih hs.2]
    · -- `a` and everything after it are above `t`
      rw [List.takeWhile_cons_of_neg (by simpa using ha), List.filter_nil, eq_comm, List.filter_eq_nil_iff]
      intro b hb
      simp only [decide_eq_true_eq]
      intro hbt
      rcases List.mem_cons.mp hb with rfl | hb
      · exact ha (le_of_eq hbt)
      · exact ha (hbt ▸ hs.1 b hb)

end BinarySearch

section PartitionPoint

variable {l : List α} {pred : α → Bool}

/-- When every element compares below the key, each round of the loop keeps the upper half, and the loop ends on
the last element. -/
theorem binarySearchLoop_of_forall_lt {f : α → Ordering} (hf : ∀ x ∈ l, f x = .lt) :
    ∀ size base, 1 ≤ size → base + size ≤ l.length → binarySearchLoop f l base size = base + size - 1 := by
  intro size
  induction size using Nat.strongRecOn with
  | _ size ih =>
  intro base h1 hb
  rw [binarySearchLoop]
  by_cases hsize : 1 < size
  · rw [if_pos hsize]
    have hmid : base + size / 2 < l.length := by omega
    have hlt : l[base + size / 2]?.map f = some .lt := by
      rw [List.getElem?_eq_getElem hmid, Option.map_some, hf _ (List.getElem_mem hmid)]
    rw [hlt, if_neg (by simp), ih _ (by omega) _ (by omega) (by omega)]
    omega
  · rw [if_neg hsize]
    omega

/-- Where the predicate holds on the whole slice, its partition point is the end. -/
theorem partitionPoint_of_forall (h : ∀ x ∈ l, pred x = true) : partitionPoint l pred = l.length := by
  unfold partitionPoint binarySearchBy
  by_cases hl : l.length = 0
  · rw [if_pos hl, hl]
  · rw [if_neg hl]
    have hf : ∀ x ∈ l, (if pred x then Ordering.lt else .gt) = .lt := fun x hx => by rw [h x hx, if_pos rfl]
    have hlast : l.length - 1 < l.length := by omega
    have hloop := binarySearchLoop_of_forall_lt hf l.length 0 (by omega) (by omega)
    rw [Nat.zero_add] at hloop
    simp only [hloop, List.getElem?_eq_getElem hlast, Option.map_some, hf _ (List.getElem_mem hlast)]
    omega

/-- Where the predicate holds on a prefix of the slice and fails after it, `partition_point` is the end of that
prefix. The search compares as `compare (key x) 1`, with `key` 0 where the predicate holds and 2 where it fails. -/
theorem partitionPoint_split (hmono : l.Pairwise (fun a b => pred b = true → pred a = true)) :
    partitionPoint l pred ≤ l.length ∧
      (∀ j (hj : j < l.length), j < partitionPoint l pred → pred l[j] = true) ∧
      (∀ j (hj : j < l.length), partitionPoint l pred ≤ j → pred l[j] = false) := by
  let key : α → Nat := fun x => if pred x then 0 else 2
  have hkey : (fun x => if pred x then Ordering.lt else .gt) = fun x => compare (key x) 1 := by
    funext x
    by_cases h : pred x <;> simp only [key, h, if_true, if_false, Bool.false_eq_true] <;> decide
  -- `key` is at most `1` exactly where the predicate holds
  have hkey_le : ∀ x, key x ≤ 1 ↔ pred x = true := by
    intro x
    by_cases h : pred x <;> simp [key, h]
  have hkey_ge : ∀ x, 1 ≤ key x ↔ pred x = false := by
    intro x
    by_cases h : pred x <;> simp [key, h]
  have hs : l.Pairwise (fun a b => key a ≤ key b) := by
    refine hmono.imp fun {a b} hab => ?_
    by_cases hb : pred b = true
    · have ha : key a = 0 := by simp [key, hab hb]
      omega
    · have hb' : key b = 2 := by simp [key, hb]
      have ha : key a ≤ 2 := by
        simp only [key]
        split <;> omega
      omega
  obtain ⟨hlen, hlo, hhi⟩ := binarySearchBy_split (t := 1) hs (partitionPoint l pred) (by
    unfold partitionPoint
    rw [hkey]
    split <;> simp_all)
  exact ⟨hlen, fun j hj hji => (hkey_le _).mp (hlo j hj hji), fun j hj hji => (hkey_ge _).mp (hhi j hj hji)⟩

/-- The prefix that `partition_point` cuts off is the part of the slice where the predicate holds. -/
theorem take_partitionPoint (hmono : l.Pairwise (fun a b => pred b = true → pred a = true)) :
    l.take (partitionPoint l pred) = l.filter pred := by
  obtain ⟨hlen, hlo, hhi⟩ := partitionPoint_split hmono
  have htake : ∀ a ∈ l.take (partitionPoint l pred), pred a = true := by
    intro a ha
    obtain ⟨j, hj, rfl⟩ := List.mem_take_iff_getElem.mp ha
    exact hlo j (by omega) (by omega)
  have hdrop : ∀ a ∈ l.drop (partitionPoint l pred), ¬ pred a = true := by
    intro a ha
    obtain ⟨j, hj, rfl⟩ := List.mem_drop_iff_getElem.mp ha
    rw [hhi _ (by omega) (by omega)]
    exact Bool.false_ne_true
  conv_rhs => rw [← List.take_append_drop (partitionPoint l pred) l]
  rw [List.filter_append, List.filter_eq_self.mpr htake, List.filter_eq_nil_iff.mpr hdrop, List.append_nil]

end PartitionPoint

/-- A strictly increasing list splits around each of its elements into those below it and those above it. -/
theorem split_of_sorted {β : Type _} [LinearOrder β] : ∀ {l : List β} {b : β}, l.Pairwise (· < ·) → b ∈ l →
    l = l.filter (fun a => decide (a < b)) ++ b :: l.filter (fun a => decide (b < a))
  | [], _, _, hb => absurd hb List.not_mem_nil
  | a :: l, b, hs, hb => by
    rw [List.pairwise_cons] at hs
    rcases List.mem_cons.mp hb with rfl | hb
    · -- `b` heads the list, and everything after it is above it
      rw [List.filter_cons_of_neg (by simp), List.filter_cons_of_neg (by simp),
        List.filter_eq_nil_iff.mpr fun c hc => by simpa using le_of_lt (hs.1 c hc),
        List.filter_eq_self.mpr fun c hc => by simpa using hs.1 c hc]
      rfl
    · have hab : a < b := hs.1 b hb
      rw [List.filter_cons_of_pos (by simpa using hab), List.filter_cons_of_neg (by simpa using le_of_lt hab),
        List.cons_append, ← split_of_sorted hs.2 hb]

/-- `Vec::insert` at an index with the elements before it related to `x`, and `x` to those from it on, keeps
a list pairwise related. -/
theorem pairwise_insertIdx {R : α → α → Prop} {x : α} :
    ∀ {l : List α} {i : Nat}, l.Pairwise R → i ≤ l.length →
      (∀ j (hj : j < l.length), j < i → R l[j] x) → (∀ j (hj : j < l.length), i ≤ j → R x l[j]) →
      (l.insertIdx i x).Pairwise R
  | l, 0, hl, _, _, hhi => by
    rw [List.insertIdx_zero, List.pairwise_cons]
    refine ⟨fun b hb => ?_, hl⟩
    obtain ⟨j, hj, rfl⟩ := List.getElem_of_mem hb
    exact hhi j hj (Nat.zero_le j)
  | a :: l, i + 1, hl, hi, hlo, hhi => by
    rw [List.insertIdx_succ_cons, List.pairwise_cons]
    rw [List.pairwise_cons] at hl
    refine ⟨fun b hb => ?_, pairwise_insertIdx hl.2 (by simp at hi; omega)
      (fun j hj hj' => hlo (j + 1) (by simp; omega) (by omega))
      (fun j hj hj' => hhi (j + 1) (by simp; omega) (by omega))⟩
    rcases List.mem_insertIdx (by simp at hi; omega) |>.mp hb with rfl | hb
    · exact hlo 0 (by simp) (by omega)
    · exact hl.1 b hb

/-- `Iterator::position`: either no element satisfies the predicate, or the first one that does splits the list. -/
theorem findIdx?_split (p : α → Bool) :
    ∀ l : List α, (l.findIdx? p = none ∧ ∀ x ∈ l, p x = false) ∨
      ∃ pre x post, l = pre ++ x :: post ∧ l.findIdx? p = some pre.length ∧ p x = true ∧ ∀ y ∈ pre, p y = false
  | [] => .inl ⟨rfl, fun _ h => by cases h⟩
  | a :: l => by
    rw [List.findIdx?_cons]
    by_cases ha : p a = true
    · exact .inr ⟨[], a, l, rfl, by simp [ha], ha, fun _ h => by cases h⟩
    · rw [if_neg ha]
      have ha' : p a = false := by simpa using ha
      rcases findIdx?_split p l with ⟨hnone, hall⟩ | ⟨pre, x, post, rfl, hidx, hx, hpre⟩
      · exact .inl ⟨by rw [hnone]; rfl, List.forall_mem_cons.mpr ⟨ha', hall⟩⟩
      · exact .inr ⟨a :: pre, x, post, rfl, by rw [hidx]; rfl, hx, List.forall_mem_cons.mpr ⟨ha', hpre⟩⟩

/-- `Vec::insert` at the length of a prefix. -/
theorem insertIdx_length_append (pre post : List α) (x : α) : (pre ++ post).insertIdx pre.length x = pre ++ x :: post := by
  induction pre with
  | nil => exact List.insertIdx_zero
  | cons a pre ih => rw [List.cons_append, List.length_cons, List.insertIdx_succ_cons, ih, List.cons_append]

/-- Changing the element at the length of a prefix. -/
theorem modify_length_append (pre post : List α) (x : α) (f : α → α) :
    (pre ++ x :: post).modify pre.length f = pre ++ f x :: post := by
  induction pre with
  | nil => exact List.modify_zero_cons f x post
  | cons a pre ih => rw [List.cons_append, List.length_cons, List.modify_succ_cons, ih, List.cons_append]

end CoreChain

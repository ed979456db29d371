import CoreChain.Lib.Rows

/-!
# Binary Merkle trees

The model of `substrate/utils/binary-merkle-tree/src/lib.rs`. Leaves are hashed, and `merkelize` builds the
rows above them with `merkelize_row`, reporting every pair it takes to a `Visitor`; the `ProofCollection`
visitor of `merkle_proof` keeps the neighbours of one leaf's ancestors. `verify_proof` folds a proof back up,
choosing each side from the position and the width of the row.

- `merkelize_fst`: the root that `merkelize` returns is the `top` of the leaf hashes, for every visitor;
- `merkelize_collect`: the proof that `ProofCollection` collects is the leaf's `path`;
- `verifyFold_eq_climb`: the fold of `verify_proof` is a `climb`.
-/

namespace CoreChain.Merkle

/-- A `Hasher` of `hash_db`: the hash of a byte string, and the bytes of a hash (`AsRef<[u8]>`). -/
structure Hasher (Out : Type) where
  hash : List UInt8 → Out
  asRef : Out → List UInt8

variable {Out : Type}

/-- An inner node: the two child hashes side by side in `combined`, hashed. -/
def Hasher.combine (H : Hasher Out) (a b : Out) : Out :=
  H.hash (H.asRef a ++ H.asRef b)

/-- The outputs are byte arrays of one size, as `H256` is: `as_ref` has one length and forgets nothing. -/
structure Hasher.FixedSize (H : Hasher Out) : Prop where
  length_eq : ∀ a b, (H.asRef a).length = (H.asRef b).length
  injective : Function.Injective H.asRef

/-- For byte arrays of one size, two different pairs of hashes lay out as two different byte strings. -/
theorem Hasher.FixedSize.bytes_ne {H : Hasher Out} (hH : H.FixedSize) {q q' : Out × Out} (hne : q ≠ q') :
    H.asRef q.1 ++ H.asRef q.2 ≠ H.asRef q'.1 ++ H.asRef q'.2 := by
  intro hbytes
  obtain ⟨h1, h2⟩ := List.append_inj hbytes (hH.length_eq _ _)
  exact hne (Prod.ext (hH.injective h1) (hH.injective h2))

/-- A `Visitor`: told of every row change and of every pair that `merkelize_row` takes, with its index. -/
structure Visitor (σ T : Type) where
  moveUp : σ → σ
  visit : σ → Nat → Option T → Option T → σ

/-- The visitor `()` of `merkle_root`, which does nothing. -/
def Visitor.unit {T : Type} : Visitor Unit T :=
  ⟨fun s => s, fun s _ _ _ => s⟩

/-! ## Building the rows -/

section Merkelize

variable (H : Hasher Out) {σ : Type} (vis : Visitor σ Out)

/-- `merkelize_row`: take the items two at a time; a pair becomes its inner node in `next`; a last single item is pushed
when `next` already holds a node, and is the root otherwise. `index`, the `u32` index of the pair, wraps past
`u32::MAX`. -/
def merkelizeRow : List Out → List Out → Nat → σ → Except (List Out) Out × σ
  | [], next, index, s => (.error next, vis.visit s index none none)
  | [a], next, index, s =>
    let s := vis.visit s index (some a) none
    if next.isEmpty then (.ok a, s)
    else (.error (next ++ [a]), vis.visit s ((index + 2) % 2 ^ 32) none none)
  | a :: b :: rest, next, index, s =>
    merkelizeRow rest (next ++ [H.combine a b]) ((index + 2) % 2 ^ 32) (vis.visit s index (some a) (some b))

theorem merkelizeRow_fst : ∀ (xs next : List Out) (index : Nat) (s : σ), next ≠ [] ∨ xs.length ≠ 1 →
    (merkelizeRow H vis xs next index s).1 = .error (next ++ pairUp H.combine xs)
  | [], next, _, _, _ => by simp [merkelizeRow]
  | [a], next, _, _, h => by
    have hn : next ≠ [] := by simpa using h
    simp [merkelizeRow, hn]
  | a :: b :: rest, next, index, s, _ => by
    rw [merkelizeRow, merkelizeRow_fst rest _ _ _ (Or.inl (by simp))]
    simp

theorem merkelizeRow_singleton (a : Out) (index : Nat) (s : σ) :
    merkelizeRow H vis [a] [] index s = (.ok a, vis.visit s index (some a) none) := rfl

/-- A row of two or more items gives the row above it. -/
theorem merkelizeRow_error {xs t : List Out} {s s' : σ} (h : merkelizeRow H vis xs [] 0 s = (.error t, s'))
    (hne : xs ≠ []) : t = pairUp H.combine xs ∧ t ≠ [] ∧ t.length < xs.length := by
  have h1 : xs.length ≠ 1 := by
    intro h1
    obtain ⟨a, rfl⟩ := List.length_eq_one_iff.1 h1
    simp [merkelizeRow_singleton] at h
  have ht : t = pairUp H.combine xs := by
    have := merkelizeRow_fst H vis xs [] 0 s (Or.inr h1)
    rw [h] at this
    simpa using this
  have h2 : 2 ≤ xs.length := by
    have := List.length_pos_iff.2 hne
    omega
  refine ⟨ht, ?_, ht ▸ length_pairUp_lt H.combine h2⟩
  rw [ht, ← List.length_pos_iff, length_pairUp]
  omega

/-- Only a row of one item gives a root. -/
theorem merkelizeRow_ok {xs : List Out} {root : Out} {s s' : σ}
    (h : merkelizeRow H vis xs [] 0 s = (.ok root, s')) : xs = [root] := by
  by_cases h1 : xs.length = 1
  · obtain ⟨a, rfl⟩ := List.length_eq_one_iff.1 h1
    simp [merkelizeRow_singleton] at h
    rw [h.1]
  · have := merkelizeRow_fst H vis xs [] 0 s (Or.inr h1)
    simp [h] at this

theorem two_le_of_merkelizeRow_error {xs t : List Out} {s s' : σ}
    (h : merkelizeRow H vis xs [] 0 s = (.error t, s')) (hne : xs ≠ []) : 2 ≤ xs.length := by
  obtain ⟨rfl, -, hlt⟩ := merkelizeRow_error H vis h hne
  have := List.length_pos_iff.2 hne
  rw [length_pairUp] at hlt
  omega

/-- The `loop` of `merkelize` over the rows above the leaves. -/
def merkelizeLoop (next : List Out) (hne : next ≠ []) (s : σ) : Out × σ :=
  match h : merkelizeRow H vis next [] 0 (vis.moveUp s) with
  | (.ok root, s) => (root, s)
  | (.error t, s) => merkelizeLoop t (merkelizeRow_error H vis h hne).2.1 s
termination_by next.length
decreasing_by exact (merkelizeRow_error H vis h hne).2.2

/-- `merkelize`: the root over the leaf hashes, the default hash when there are none. -/
def merkelize [Inhabited Out] (leaves : List Out) (s : σ) : Out × σ :=
  match merkelizeRow H vis leaves [] 0 s with
  | (.ok root, s) => (root, s)
  | (.error next, s) => if h : next = [] then (default, s) else merkelizeLoop H vis next h s

theorem merkelizeLoop_fst [Inhabited Out] (next : List Out) (hne : next ≠ []) (s : σ) :
    (merkelizeLoop H vis next hne s).1 = top H.combine next := by
  induction next using WellFounded.induction (measure List.length).wf generalizing s with
  | h next ih =>
  rw [merkelizeLoop]
  split
  · rename_i root s' h
    rw [merkelizeRow_ok H vis h, top_singleton]
  · rename_i t s' h
    have h2 := two_le_of_merkelizeRow_error H vis h hne
    obtain ⟨rfl, -, hlt⟩ := merkelizeRow_error H vis h hne
    rw [ih _ hlt, top_of_two_le H.combine h2]

theorem merkelize_fst [Inhabited Out] (leaves : List Out) (s : σ) :
    (merkelize H vis leaves s).1 = top H.combine leaves := by
  rw [merkelize]
  split
  · rename_i root s' h
    rw [merkelizeRow_ok H vis h, top_singleton]
  · rename_i t s' h
    rcases eq_or_ne leaves [] with rfl | hne
    · simp only [merkelizeRow, Prod.mk.injEq, Except.error.injEq] at h
      obtain ⟨rfl, -⟩ := h
      simp
    · have h2 := two_le_of_merkelizeRow_error H vis h hne
      obtain ⟨rfl, ht, -⟩ := merkelizeRow_error H vis h hne
      rw [dif_neg ht, merkelizeLoop_fst, top_of_two_le H.combine h2]

end Merkelize

/-- `merkle_root`: the root over the hashes of the leaves. -/
def merkleRoot [Inhabited Out] (H : Hasher Out) (leaves : List (List UInt8)) : Out :=
  (merkelize H Visitor.unit (leaves.map H.hash) ()).1

theorem merkleRoot_eq_top [Inhabited Out] (H : Hasher Out) (leaves : List (List UInt8)) :
    merkleRoot H leaves = top H.combine (leaves.map H.hash) :=
  merkelize_fst H Visitor.unit _ ()

/-! ## Collecting a proof -/

/-- The state of the `ProofCollection` visitor. -/
structure ProofCollection (T : Type) where
  proof : List T
  position : Nat

/-- `ProofCollection` as a `Visitor`: a pair at the leaf's position gives its right item, a pair just before
it its left item; a row change halves the position. -/
def ProofCollection.visitor {T : Type} : Visitor (ProofCollection T) T where
  moveUp s := { s with position := s.position / 2 }
  visit s index left right :=
    let s := if s.position = index then { s with proof := s.proof ++ right.toList } else s
    if s.position = index + 1 then { s with proof := s.proof ++ left.toList } else s

section Collect

variable (H : Hasher Out)

@[simp] theorem collect_visit_none (s : ProofCollection Out) (index : Nat) :
    ProofCollection.visitor.visit s index none none = s := by
  simp [ProofCollection.visitor]

theorem collect_visit_of_lt {s : ProofCollection Out} {index : Nat} (h : s.position < index)
    (left right : Option Out) : ProofCollection.visitor.visit s index left right = s := by
  simp [ProofCollection.visitor, Nat.ne_of_lt h, show s.position ≠ index + 1 by omega]

/-- Once the position is behind the index, a row adds nothing to the proof. -/
theorem merkelizeRow_collect_of_lt : ∀ (xs next : List Out) (index : Nat) (s : ProofCollection Out),
    s.position < index → index + xs.length < 2 ^ 32 →
      (merkelizeRow H ProofCollection.visitor xs next index s).2 = s
  | [], _, _, s, _, _ => collect_visit_none s _
  | [a], next, index, s, h, _ => by
    simp only [merkelizeRow, collect_visit_of_lt h]
    split <;> simp
  | a :: b :: rest, next, index, s, h, hb => by
    have hi : (index + 2) % 2 ^ 32 = index + 2 := Nat.mod_eq_of_lt (by simp at hb; omega)
    rw [merkelizeRow, collect_visit_of_lt h, hi]
    exact merkelizeRow_collect_of_lt rest _ _ s (by omega) (by simp at hb; omega)

/-- A row adds the neighbour of the position to the proof. -/
theorem merkelizeRow_collect : ∀ (xs next : List Out) (index p : Nat) (proof : List Out),
    p < xs.length → index + xs.length < 2 ^ 32 →
      (merkelizeRow H ProofCollection.visitor xs next index ⟨proof, index + p⟩).2 =
        ⟨proof ++ (sibling xs p).toList, index + p⟩
  | [a], next, index, 0, proof, _, _ => by
    simp only [merkelizeRow, sibling]
    split <;> simp [ProofCollection.visitor]
  | a :: b :: rest, next, index, 0, proof, _, hb => by
    have hi : (index + 2) % 2 ^ 32 = index + 2 := Nat.mod_eq_of_lt (by simp at hb; omega)
    rw [merkelizeRow, hi, merkelizeRow_collect_of_lt H rest _ _ _ (by simp [ProofCollection.visitor])
      (by simp at hb; omega)]
    simp [ProofCollection.visitor, sibling]
  | a :: b :: rest, next, index, 1, proof, _, hb => by
    have hi : (index + 2) % 2 ^ 32 = index + 2 := Nat.mod_eq_of_lt (by simp at hb; omega)
    rw [merkelizeRow, hi, merkelizeRow_collect_of_lt H rest _ _ _ (by simp [ProofCollection.visitor])
      (by simp at hb; omega)]
    simp [ProofCollection.visitor, sibling]
  | a :: b :: rest, next, index, p + 2, proof, hp, hb => by
    have hi : (index + 2) % 2 ^ 32 = index + 2 := Nat.mod_eq_of_lt (by simp at hb; omega)
    have hv : ProofCollection.visitor.visit ⟨proof, index + (p + 2)⟩ index (some a) (some b) =
        ⟨proof, (index + 2) + p⟩ := by
      simp [ProofCollection.visitor]
      omega
    rw [merkelizeRow, hi, hv, merkelizeRow_collect rest _ _ p proof (by simp at hp; omega)
      (by simp at hb; omega), sibling_cons_cons]
    simp only [ProofCollection.mk.injEq, true_and]
    omega

theorem merkelizeLoop_collect [Inhabited Out] (next : List Out) (hne : next ≠ []) (proof : List Out)
    (p : Nat) (hp : p / 2 < next.length) (hb : next.length < 2 ^ 32) :
    (merkelizeLoop H ProofCollection.visitor next hne ⟨proof, p⟩).2.proof =
      proof ++ path H.combine next (p / 2) := by
  induction next using WellFounded.induction (measure List.length).wf generalizing proof p with
  | h next ih =>
  have hrow : (merkelizeRow H ProofCollection.visitor next [] 0 (ProofCollection.visitor.moveUp ⟨proof, p⟩)).2 =
      ⟨proof ++ (sibling next (p / 2)).toList, p / 2⟩ := by
    have := merkelizeRow_collect H next [] 0 (p / 2) proof hp (by omega)
    rw [Nat.zero_add] at this
    exact this
  rw [merkelizeLoop]
  split
  · rename_i root s' h
    obtain rfl := merkelizeRow_ok H _ h
    rw [h] at hrow
    obtain rfl : s' = _ := hrow
    have hp0 : p / 2 = 0 := by simp at hp; omega
    simp [hp0, sibling]
  · rename_i t s' h
    have h2 := two_le_of_merkelizeRow_error H _ h hne
    obtain ⟨rfl, -, hlt⟩ := merkelizeRow_error H _ h hne
    rw [h] at hrow
    obtain rfl : s' = _ := hrow
    rw [ih (pairUp H.combine next) hlt _ _ (p / 2) (by rw [length_pairUp]; omega) (by omega),
      path_of_two_le H.combine h2]
    simp

/-- The proof that `ProofCollection` collects while `merkelize` runs is the leaf's path. -/
theorem merkelize_collect [Inhabited Out] (leaves : List Out) (p : Nat) (hp : p < leaves.length)
    (hb : leaves.length < 2 ^ 32) :
    (merkelize H ProofCollection.visitor leaves ⟨[], p⟩).2.proof = path H.combine leaves p := by
  have hrow := merkelizeRow_collect H leaves [] 0 p [] hp (by omega)
  rw [Nat.zero_add] at hrow
  have hne : leaves ≠ [] := List.ne_nil_of_length_pos (by omega)
  rw [merkelize]
  split
  · rename_i root s' h
    obtain rfl := merkelizeRow_ok H _ h
    rw [h] at hrow
    obtain rfl : s' = _ := hrow
    have hp0 : p = 0 := by simp at hp; omega
    simp [hp0, sibling]
  · rename_i t s' h
    have h2 := two_le_of_merkelizeRow_error H _ h hne
    obtain ⟨rfl, ht, hlt⟩ := merkelizeRow_error H _ h hne
    rw [h] at hrow
    obtain rfl : s' = _ := hrow
    rw [dif_neg ht, merkelizeLoop_collect H (pairUp H.combine leaves) ht _ p (by rw [length_pairUp]; omega)
      (by omega),
      path_of_two_le H.combine h2]
    simp

end Collect

/-- The `leaf` that the `enumerate().map(..)` closure of `merkle_proof` sets: the last item whose index, cast
to `u32`, is `leaf_index`. -/
def capturedLeaf {α : Type} (leafIndex : Nat) : List α → Nat → Option α → Option α
  | [], _, leaf => leaf
  | l :: ls, idx, leaf => capturedLeaf leafIndex ls (idx + 1) (if idx % 2 ^ 32 = leafIndex then some l else leaf)

theorem capturedLeaf_eq {α : Type} (leafIndex : Nat) : ∀ (ls : List α) (idx : Nat) (leaf : Option α),
    idx + ls.length ≤ 2 ^ 32 →
      capturedLeaf leafIndex ls idx leaf = if idx ≤ leafIndex then (ls[leafIndex - idx]?).or leaf else leaf
  | [], idx, leaf, _ => by simp [capturedLeaf]
  | l :: ls, idx, leaf, hb => by
    have hidx : idx % 2 ^ 32 = idx := Nat.mod_eq_of_lt (by simp at hb; omega)
    rw [capturedLeaf, capturedLeaf_eq leafIndex ls (idx + 1) _ (by simp at hb; omega), hidx]
    rcases Nat.lt_trichotomy idx leafIndex with hlt | rfl | hgt
    · obtain ⟨k, rfl⟩ : ∃ k, leafIndex = idx + 1 + k := ⟨leafIndex - idx - 1, by omega⟩
      have hk : idx + 1 + k - idx = k + 1 := by omega
      simp [hk, Nat.ne_of_lt hlt, show ¬ idx + 1 + k < idx by omega]
    · simp [show ¬ idx + 1 ≤ idx by omega]
    · simp [Nat.ne_of_gt hgt, show ¬ idx ≤ leafIndex by omega, show ¬ idx + 1 ≤ leafIndex by omega]

/-- A `MerkleProof`. -/
structure MerkleProof (Out L : Type) where
  root : Out
  proof : List Out
  numberOfLeaves : Nat
  leafIndex : Nat
  leaf : L

/-- `merkle_proof`: the root, the collected proof and the leaf at `leaf_index`; `none` where the source panics
on `leaf.expect(..)`. -/
def merkleProof [Inhabited Out] (H : Hasher Out) (leaves : List (List UInt8)) (leafIndex : Nat) :
    Option (MerkleProof Out (List UInt8)) :=
  let (root, collect) := merkelize H ProofCollection.visitor (leaves.map H.hash) ⟨[], leafIndex⟩
  (capturedLeaf leafIndex leaves 0 none).map fun leaf =>
    ⟨root, collect.proof, leaves.length % 2 ^ 32, leafIndex, leaf⟩

/-! ## Verifying a proof -/

/-- A `Leaf`: its content, or its hash. -/
inductive Leaf (Out : Type)
  | value (content : List UInt8)
  | hash (h : Out)

/-- The fold of `verify_proof` over the proof: the proof item goes first when the position is odd or the last
of its row. -/
def verifyFold (H : Hasher Out) : List Out → Out → Nat → Nat → Out
  | [], a, _, _ => a
  | b :: proof, a, position, width =>
    let combined :=
      if position % 2 = 1 ∨ position + 1 = width then H.asRef b ++ H.asRef a else H.asRef a ++ H.asRef b
    verifyFold H proof (H.hash combined) (position / 2) ((width - 1) / 2 + 1)

/-- `verify_proof`. -/
def verifyProof [DecidableEq Out] (H : Hasher Out) (root : Out) (proof : List Out)
    (numberOfLeaves leafIndex : Nat) (leaf : Leaf Out) : Bool :=
  if numberOfLeaves ≤ leafIndex then false
  else
    let leafHash := match leaf with
      | .value content => H.hash content
      | .hash h => h
    decide (root = verifyFold H proof leafHash leafIndex numberOfLeaves)

theorem verifyFold_eq_climb (H : Hasher Out) : ∀ (proof : List Out) (a : Out) (position width : Nat),
    verifyFold H proof a position width = climb H.combine proof a position width
  | [], _, _, _ => rfl
  | b :: proof, a, position, width => by
    rw [verifyFold, climb, verifyFold_eq_climb H proof]
    congr 1
    split <;> rfl

end CoreChain.Merkle

import CoreChain.Merkle.Binary

/-!
# Merkle proofs: completeness and soundness

A proof from `merkle_proof` passes `verify_proof` for every tree size: the verifier reads the same rows as
`merkelize` built, because a node carried up without a neighbour stays the last node of every row above it
(`Tracks`). Soundness needs more than the code checks: a leaf and an inner node hash alike, and the proof's
length is never compared with the depth of the leaf, so a proof of the right length is what binds a leaf to its
position, up to a hash collision.

- `merkleProof_eq_some`: what `merkle_proof` returns, in terms of the rows;
- `merkleProof_verifies`: every proof it returns verifies;
- `verifyProof_inner_node`: what `verify_proof` accepts beyond the leaves;
- `verifyProof_sound`: a proof of the right length verifies only the leaf at its index, or the hash collides on
  what the verifier hashed.
-/

namespace CoreChain.Merkle

variable {Out : Type} [Inhabited Out] (H : Hasher Out)

section Rows

variable {leaves : List (List UInt8)} {i : Nat}

theorem merkleProof_eq_some (hlen : leaves.length < 2 ^ 32) (hi : i < leaves.length) :
    merkleProof H leaves i =
      some ⟨merkleRoot H leaves, path H.combine (leaves.map H.hash) i, leaves.length, i, leaves[i]⟩ := by
  have hleaf : capturedLeaf i leaves 0 none = some leaves[i] := by
    rw [capturedLeaf_eq i leaves 0 none (by omega), if_pos (Nat.zero_le i), Nat.sub_zero,
      List.getElem?_eq_getElem hi]
    rfl
  have hroot := merkelize_fst H ProofCollection.visitor (leaves.map H.hash) ⟨[], i⟩
  have hproof := merkelize_collect H (leaves.map H.hash) i (by simpa using hi) (by simpa using hlen)
  rw [merkleProof, hleaf, merkleRoot_eq_top, Nat.mod_eq_of_lt hlen, ← hroot, ← hproof]
  rfl

/-- The root is what the leaf's path climbs to from the leaf. -/
theorem merkleRoot_eq_climb (hi : i < leaves.length) :
    merkleRoot H leaves = climb H.combine (path H.combine (leaves.map H.hash) i) (H.hash leaves[i]) i
      leaves.length := by
  have hpath := climb_path H.combine (leaves.map H.hash) i (by simpa using hi) i leaves.length
    (by simpa using tracks_refl i leaves.length)
  rw [merkleRoot_eq_top, ← hpath, List.getElem_map]

theorem verifyProof_path [DecidableEq Out] (leaves : List (List UInt8)) (hi : i < leaves.length) :
    verifyProof H (merkleRoot H leaves) (path H.combine (leaves.map H.hash) i) leaves.length i
      (.value leaves[i]) = true := by
  have hroot := merkleRoot_eq_climb H hi
  simp only [verifyProof, if_neg (Nat.not_le.2 hi), verifyFold_eq_climb, decide_eq_true_eq]
  exact hroot

end Rows

/-! ## Completeness -/

theorem merkleProof_verifies [DecidableEq Out] (leaves : List (List UInt8)) (i : Nat)
    (hlen : leaves.length < 2 ^ 32) (hi : i < leaves.length) :
    ∃ p, merkleProof H leaves i = some p ∧ p.root = merkleRoot H leaves ∧ p.leaf = leaves[i] ∧
      p.numberOfLeaves = leaves.length ∧ p.leafIndex = i ∧
      verifyProof H p.root p.proof leaves.length i (.value p.leaf) = true :=
  ⟨_, merkleProof_eq_some H hlen hi, rfl, rfl, rfl, rfl, verifyProof_path H leaves hi⟩

/-- A hasher whose hash is its input; it is injective. -/
def bytesHasher : Hasher (List UInt8) :=
  ⟨id, id⟩

theorem merkleProof_verifies_threeLeaves :
    ∃ p, merkleProof bytesHasher [[1], [2], [3]] 2 = some p ∧ p.root = merkleRoot bytesHasher [[1], [2], [3]] ∧
      p.leaf = [3] ∧ p.numberOfLeaves = 3 ∧ p.leafIndex = 2 ∧
      verifyProof bytesHasher p.root p.proof 3 2 (.value p.leaf) = true :=
  merkleProof_verifies bytesHasher [[1], [2], [3]] 2 (by decide) (by decide)

/-! ## What `verify_proof` accepts -/

/-- For every hasher, the bytes of the inner node of a two-leaf tree pass as the only leaf of a one-leaf tree:
`verify_proof` does not tell a leaf from an inner node, nor check the proof against the number of leaves. -/
theorem verifyProof_inner_node [DecidableEq Out] (a b : List UInt8) :
    verifyProof H (merkleRoot H [a, b]) [] 1 0 (.value (H.asRef (H.hash a) ++ H.asRef (H.hash b))) = true := by
  rw [merkleRoot_eq_top, top_of_two_le H.combine (by simp)]
  simp [verifyProof, verifyFold, Hasher.combine]

theorem injective_hasher_accepts_non_leaf :
    Function.Injective bytesHasher.hash ∧
      verifyProof bytesHasher (merkleRoot bytesHasher [[0], [1]]) [] 1 0 (.value [0, 1]) = true ∧
      ([0, 1] : List UInt8) ∉ ([[0], [1]] : List (List UInt8)) :=
  ⟨Function.injective_id, verifyProof_inner_node bytesHasher [0] [1], by decide⟩

/-! ## Soundness -/

/-- A proof as long as the leaf's own that verifies `x` at index `i` binds `x` to the leaf there, unless the hash
collides on what the verifier hashed: on `x` and the leaf, or on the two inner nodes of some row, as the verifier and
`merkelize` laid them out. -/
theorem verifyProof_sound [DecidableEq Out] (hH : H.FixedSize) (leaves : List (List UInt8))
    (hlen : leaves.length < 2 ^ 32) (i : Nat) (p : MerkleProof Out (List UInt8))
    (hp : merkleProof H leaves i = some p) (proof : List Out) (hl : proof.length = p.proof.length)
    (x : List UInt8) (hv : verifyProof H (merkleRoot H leaves) proof leaves.length i (.value x) = true) :
    ∃ hi : i < leaves.length, x = leaves[i] ∨ (x ≠ leaves[i] ∧ H.hash x = H.hash leaves[i]) ∨
      ∃ (k : Nat) (a b c d : Out), (climbPairs H.combine proof (H.hash x) i leaves.length)[k]? = some (a, b) ∧
        (climbPairs H.combine p.proof (H.hash leaves[i]) i leaves.length)[k]? = some (c, d) ∧
        H.asRef a ++ H.asRef b ≠ H.asRef c ++ H.asRef d ∧
        H.hash (H.asRef a ++ H.asRef b) = H.hash (H.asRef c ++ H.asRef d) := by
  have hi : i < leaves.length := by
    by_contra hc
    simp [verifyProof, Nat.not_lt.1 hc] at hv
  rw [merkleProof_eq_some H hlen hi, Option.some.injEq] at hp
  subst hp
  have hclimb : climb H.combine proof (H.hash x) i leaves.length =
      climb H.combine (path H.combine (leaves.map H.hash) i) (H.hash leaves[i]) i leaves.length := by
    simp only [verifyProof, if_neg (Nat.not_le.2 hi), verifyFold_eq_climb, decide_eq_true_eq] at hv
    rw [← hv, merkleRoot_eq_climb H hi]
  refine ⟨hi, ?_⟩
  rcases climb_eq_or_collides H.combine hl hclimb with hx | ⟨k, ⟨a, b⟩, ⟨c, d⟩, hq, hq', hne, heq⟩
  · by_cases hxl : x = leaves[i]
    · exact Or.inl hxl
    · exact Or.inr (Or.inl ⟨hxl, hx⟩)
  · exact Or.inr (Or.inr ⟨k, a, b, c, d, hq, hq', hH.bytes_ne hne, heq⟩)

/-- A hasher into one byte, the wrapping sum of the input; its outputs are byte arrays of size one. -/
def byteSum : Hasher UInt8 :=
  ⟨fun bs => bs.foldl (· + ·) 0, fun o => [o]⟩

theorem byteSum_fixedSize : byteSum.FixedSize :=
  ⟨fun _ _ => rfl, fun _ _ h => List.singleton_injective h⟩

theorem verifyProof_sound_byteSum :
    ∃ hi : 0 < ([[1], [2]] : List (List UInt8)).length, ([1] : List UInt8) = ([[1], [2]] : List (List UInt8))[0] ∨
      (([1] : List UInt8) ≠ ([[1], [2]] : List (List UInt8))[0] ∧
        byteSum.hash [1] = byteSum.hash ([[1], [2]] : List (List UInt8))[0]) ∨
      ∃ (k : Nat) (a b c d : UInt8),
        (climbPairs byteSum.combine (path byteSum.combine ([[1], [2]].map byteSum.hash) 0) (byteSum.hash [1]) 0
          2)[k]? = some (a, b) ∧
        (climbPairs byteSum.combine (path byteSum.combine ([[1], [2]].map byteSum.hash) 0)
          (byteSum.hash ([[1], [2]] : List (List UInt8))[0]) 0 2)[k]? = some (c, d) ∧
        byteSum.asRef a ++ byteSum.asRef b ≠ byteSum.asRef c ++ byteSum.asRef d ∧
        byteSum.hash (byteSum.asRef a ++ byteSum.asRef b) = byteSum.hash (byteSum.asRef c ++ byteSum.asRef d) :=
  verifyProof_sound byteSum byteSum_fixedSize [[1], [2]] (by decide) 0 _
    (merkleProof_eq_some byteSum (by decide) (by decide)) _ rfl [1]
    (verifyProof_path byteSum [[1], [2]] (by decide))

end CoreChain.Merkle

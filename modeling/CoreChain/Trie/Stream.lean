import CoreChain.Trie.Plan

/-!
# The trie stream

The model of `TrieStream` of `substrate/primitives/trie/src/trie_stream.rs`, the encoder trie-root drives to
compute a root from a sorted set of keys without building a trie. It writes a node from its nibbles, one a byte,
and appends each child in full when it is shorter than 32 bytes and as its hash otherwise.

A key packed two nibbles a byte is determined by its nibbles (`PackedKey.bytes_eq_of_nibbles`), and the stream
packs them that way (`fusedKey`), so each node the stream writes is the node `NodeCodec` writes for the same
nibbles (`appendLeaf_out`, `branch_out`), with the child references trie-db makes (`childReference`).
-/

namespace CoreChain.Trie

/-! ## `trie_stream.rs` -/

/-- `branch_node_bit_mask`. -/
def branchNodeBitMask (hasChildren : List Bool) : UInt8 × UInt8 :=
  let bitmap := bitmapLoop hasChildren 0 1
  (UInt8.ofNat (bitmap % 256), UInt8.ofNat (bitmap / 256))

/-- `chunks(2).map(|ch| (ch[0] << 4) | ch[1])` over an even number of nibbles: two a byte, the first high. -/
def fusePairs : List UInt8 → List UInt8
  | a :: b :: rest => ((a <<< 4) ||| b) :: fusePairs rest
  -- a chunk of one would panic at `ch[1]`; the slice always has an even length
  | _ => []

/-- `fuse_nibbles_node`. -/
def fuseNibblesNode (nibbles : List UInt8) (kind : NodeKind) : List UInt8 :=
  let size := nibbles.length
  let iterStart := match kind with
    | .leaf => sizeAndPrefixIterator size leafPrefixMask 2
    | .branchNoValue => sizeAndPrefixIterator size branchWithoutMask 2
    | .branchWithValue => sizeAndPrefixIterator size branchWithMask 2
    | .hashedValueLeaf => sizeAndPrefixIterator size altHashingLeafPrefixMask 3
    | .hashedValueBranch => sizeAndPrefixIterator size altHashingBranchWithMask 4
  iterStart ++ (if nibbles.length % 2 = 1 then [nibbles.getD 0 0] else []) ++
    fusePairs (nibbles.drop (nibbles.length % 2))

/-- `TrieStream`: the buffer of the node being written. -/
structure TrieStream where
  buffer : List UInt8

section Stream

variable (c : CompactCodec)

/-- `TrieStream::new`. -/
def TrieStream.new : TrieStream := ⟨[]⟩

/-- `TrieStream::out`. -/
def TrieStream.out (s : TrieStream) : List UInt8 := s.buffer

/-- `TrieStream::append_empty_data`. -/
def TrieStream.appendEmptyData (s : TrieStream) : TrieStream := ⟨s.buffer ++ [emptyTrie]⟩

/-- `TrieStream::append_leaf`; its value is written as `NodeCodec` writes one (`Value.encode`). -/
def TrieStream.appendLeaf (s : TrieStream) (key : List UInt8) (value : Value) : TrieStream :=
  let kind := match value with
    | .inline _ => NodeKind.leaf
    | .node _ => NodeKind.hashedValueLeaf
  ⟨s.buffer ++ fuseNibblesNode key kind ++ value.encode c⟩

/-- `TrieStream::begin_branch` with a partial key. Without one the source panics (`unreachable!`): a trie with no
extension nodes begins every branch with its key. -/
def TrieStream.beginBranch (s : TrieStream) (partialKey : List UInt8) (maybeValue : Option Value)
    (hasChildren : List Bool) : TrieStream :=
  let kind := match maybeValue with
    | none => NodeKind.branchNoValue
    | some (.inline _) => .branchWithValue
    | some (.node _) => .hashedValueBranch
  let bm := branchNodeBitMask hasChildren
  ⟨s.buffer ++ fuseNibblesNode partialKey kind ++ [bm.1, bm.2] ++ (maybeValue.map (Value.encode c)).getD []⟩

/-- `TrieStream::append_substream`: a child of at most 31 bytes in full, a longer one as its hash, either after
its length. -/
def TrieStream.appendSubstream (hash : List UInt8 → List UInt8) (s other : TrieStream) : TrieStream :=
  let data := other.out
  if data.length ≤ 31 then ⟨s.buffer ++ c.encode (UInt32.ofNat data.length) ++ data⟩
  else ⟨s.buffer ++ c.encode (UInt32.ofNat (hash data).length) ++ hash data⟩

/-- The children of a branch as trie-root appends them after `begin_branch`, each present one in its slot's
order. -/
def TrieStream.appendSubstreams (hash : List UInt8 → List UInt8) (s : TrieStream) :
    List (Option TrieStream) → TrieStream
  | [] => s
  | none :: children => s.appendSubstreams hash children
  | some child :: children => (s.appendSubstream c hash child).appendSubstreams hash children

/-- A branch as trie-root writes it: `begin_branch` with the presence of its children, then their substreams. -/
def TrieStream.branch (hash : List UInt8 → List UInt8) (partialKey : List UInt8) (value : Option Value)
    (children : List (Option TrieStream)) : TrieStream :=
  (TrieStream.new.beginBranch c partialKey value (children.map Option.isSome)).appendSubstreams c hash children

end Stream

/-- The reference trie-db's `TrieDBMut` makes to an encoded child: the child itself, in a zeroed buffer of a
hash's size, when it is shorter than a hash, and its hash otherwise. -/
def childReference (hash : List UInt8 → List UInt8) (hashLength : Nat) (encoded : List UInt8) : ChildReference :=
  if encoded.length ≥ hashLength then .hash (hash encoded)
  else .inline (encoded ++ List.replicate (hashLength - encoded.length) 0) encoded.length

/-! ## Packed keys and their nibbles -/

/-- The nibbles of packed bytes, two a byte, the high one first. -/
def unpack (bytes : List UInt8) : List UInt8 :=
  bytes.flatMap fun (b : UInt8) => [b >>> 4, b &&& 0x0F]

/-- The nibbles of a packed key, after its padding. -/
def PackedKey.nibbles (key : PackedKey) : List UInt8 :=
  (unpack key.bytes).drop (numberPadding key.nibbleCount)

/-- The packed key `fuse_nibbles_node` writes after the header. -/
def fusedKey (nibbles : List UInt8) : List UInt8 :=
  (if nibbles.length % 2 = 1 then [nibbles.getD 0 0] else []) ++ fusePairs (nibbles.drop (nibbles.length % 2))

theorem nibble_forall {P : UInt8 → Prop} (h : ∀ k < 16, P (UInt8.ofNat k)) : ∀ a : UInt8, a < 16 → P a := by
  intro a ha
  have hk : a.toNat < 16 := UInt8.lt_iff_toNat_lt.mp ha
  have := h a.toNat hk
  rwa [UInt8.ofNat_toNat] at this

theorem byte_of_halves : ∀ b : UInt8, ((b >>> 4) <<< 4) ||| (b &&& 0x0F) = b := by
  apply uint8_forall
  decide +kernel

theorem nibble_halves : ∀ a : UInt8, a < 16 → a >>> 4 = 0 ∧ a &&& 0x0F = a := by
  apply nibble_forall
  decide

theorem fused_halves : ∀ a : UInt8, a < 16 → ∀ b : UInt8, b < 16 →
    ((a <<< 4) ||| b) >>> 4 = a ∧ ((a <<< 4) ||| b) &&& 0x0F = b := by
  apply nibble_forall
  intro k hk
  apply nibble_forall
  revert k
  decide

/-- A byte with no padding in its high half has a high half of zero. -/
theorem high_of_padLeft : ∀ b : UInt8, padLeft b = 0 → b >>> 4 = 0 := by
  apply uint8_forall
  decide +kernel

theorem unpack_cons (b : UInt8) (bytes : List UInt8) : unpack (b :: bytes) = (b >>> 4) :: (b &&& 0x0F) :: unpack bytes :=
  rfl

theorem unpack_injective : ∀ {xs ys : List UInt8}, unpack xs = unpack ys → xs = ys
  | [], [], _ => rfl
  | [], _ :: _, h => by simp [unpack] at h
  | _ :: _, [], h => by simp [unpack] at h
  | x :: xs, y :: ys, h => by
    rw [unpack_cons, unpack_cons, List.cons.injEq, List.cons.injEq] at h
    obtain ⟨hhigh, hlow, hrest⟩ := h
    have hxy : x = y := by
      rw [← byte_of_halves x, ← byte_of_halves y, hhigh, hlow]
    rw [hxy, unpack_injective hrest]

theorem unpack_fusePairs : ∀ nibbles : List UInt8, (∀ x ∈ nibbles, x < 16) → nibbles.length % 2 = 0 →
    unpack (fusePairs nibbles) = nibbles
  | [], _, _ => rfl
  | [_], _, hlen => by simp at hlen
  | a :: b :: rest, hnib, hlen => by
    have ha := hnib a List.mem_cons_self
    have hb := hnib b (List.mem_cons_of_mem _ List.mem_cons_self)
    obtain ⟨hhigh, hlow⟩ := fused_halves a ha b hb
    simp only [List.length_cons] at hlen
    rw [fusePairs, unpack_cons, hhigh, hlow,
      unpack_fusePairs rest (fun x hx => hnib x (List.mem_cons_of_mem _ (List.mem_cons_of_mem _ hx))) (by omega)]

/-- The stream's packed key unpacks to a zero of padding, when the count is odd, and the nibbles. -/
theorem unpack_fusedKey (nibbles : List UInt8) (hnib : ∀ x ∈ nibbles, x < 16) :
    unpack (fusedKey nibbles) = (if nibbles.length % 2 = 1 then [0] else []) ++ nibbles := by
  unfold fusedKey
  by_cases hodd : nibbles.length % 2 = 1
  · -- the first nibble is a byte of its own
    obtain ⟨a, rest, rfl⟩ : ∃ a rest, nibbles = a :: rest := by
      cases nibbles with
      | nil => simp at hodd
      | cons a rest => exact ⟨a, rest, rfl⟩
    obtain ⟨hhigh, hlow⟩ := nibble_halves a (hnib a List.mem_cons_self)
    rw [if_pos hodd, if_pos hodd, hodd, List.singleton_append, unpack_cons, List.getD_cons_zero, hhigh, hlow,
      List.drop_one, List.tail_cons,
      unpack_fusePairs rest (fun x hx => hnib x (List.mem_cons_of_mem _ hx)) (by simp at hodd; omega)]
    rfl
  · rw [if_neg hodd, if_neg hodd, List.nil_append, List.nil_append, show nibbles.length % 2 = 0 by omega,
      List.drop_zero, unpack_fusePairs nibbles hnib (by omega)]

/-- A packed key unpacks to a zero of padding, when the count is odd, and its nibbles. -/
theorem PackedKey.unpack_bytes (key : PackedKey) :
    unpack key.bytes = (if key.nibbleCount % 2 = 1 then [0] else []) ++ key.nibbles := by
  unfold PackedKey.nibbles numberPadding nibblePerByte
  by_cases hodd : key.nibbleCount % 2 = 1
  · -- the padding is the high half of the first byte
    have hlen := key.length_eq
    unfold divCeil nibblePerByte at hlen
    rw [if_pos (by omega)] at hlen
    obtain ⟨b, bs, hb⟩ : ∃ b bs, key.bytes = b :: bs := by
      cases hk : key.bytes with
      | nil => rw [hk] at hlen; simp at hlen
      | cons b bs => exact ⟨b, bs, rfl⟩
    have hzero := key.padding_zero (by unfold numberPadding nibblePerByte; omega)
    rw [hb, List.headD_cons] at hzero
    rw [if_pos hodd, hodd, hb, unpack_cons, high_of_padLeft b hzero]
    rfl
  · rw [if_neg hodd, show key.nibbleCount % 2 = 0 by omega, List.drop_zero, List.nil_append]

/-- A packed key is determined by its nibbles: it is the key the stream packs. -/
theorem PackedKey.bytes_eq_fusedKey (key : PackedKey) {nibbles : List UInt8} (hnib : ∀ x ∈ nibbles, x < 16)
    (hcount : key.nibbleCount = nibbles.length) (hkey : key.nibbles = nibbles) : key.bytes = fusedKey nibbles := by
  apply unpack_injective
  rw [key.unpack_bytes, unpack_fusedKey nibbles hnib, hcount, hkey]

theorem length_unpack (bytes : List UInt8) : (unpack bytes).length = 2 * bytes.length := by
  induction bytes with
  | nil => rfl
  | cons b bytes ih =>
    rw [unpack_cons, List.length_cons, List.length_cons, ih, List.length_cons]
    omega

theorem padLeft_nibble : ∀ a : UInt8, a < 16 → padLeft a = 0 := by
  apply nibble_forall
  decide

/-- The key the stream packs is a packed key of its nibbles. -/
def PackedKey.ofNibbles (nibbles : List UInt8) (hnib : ∀ x ∈ nibbles, x < 16) : PackedKey where
  bytes := fusedKey nibbles
  nibbleCount := nibbles.length
  length_eq := by
    have hlen := congrArg List.length (unpack_fusedKey nibbles hnib)
    rw [length_unpack, List.length_append] at hlen
    unfold divCeil nibblePerByte
    split_ifs at hlen ⊢ <;> simp only [List.length_cons, List.length_nil] at hlen <;> omega
  padding_zero := by
    intro hodd
    unfold numberPadding nibblePerByte at hodd
    cases nibbles with
    | nil => simp at hodd
    | cons a rest =>
      have ha := hnib a List.mem_cons_self
      rw [fusedKey, if_pos (by omega), List.singleton_append, List.headD_cons, List.getD_cons_zero]
      exact padLeft_nibble a ha

theorem PackedKey.nibbles_ofNibbles (nibbles : List UInt8) (hnib : ∀ x ∈ nibbles, x < 16) :
    (PackedKey.ofNibbles nibbles hnib).nibbles = nibbles := by
  unfold PackedKey.nibbles PackedKey.ofNibbles numberPadding nibblePerByte
  simp only
  rw [unpack_fusedKey nibbles hnib]
  split_ifs with hodd
  · rw [hodd]
    rfl
  · rw [show nibbles.length % 2 = 0 by omega, List.drop_zero, List.nil_append]

/-! ## The nodes the stream writes -/

section Nodes

variable {c : CompactCodec}

/-- `fuse_nibbles_node` writes the header `partial_from_iterator_encode` writes for the kind, then the packed key. -/
theorem fuseNibblesNode_eq (nibbles : List UInt8) (kind : NodeKind) :
    fuseNibblesNode nibbles kind = partialFromIteratorEncode (fusedKey nibbles) nibbles.length kind := by
  cases kind <;> simp only [fuseNibblesNode, partialFromIteratorEncode, fusedKey, NodeHeader.encode, List.append_assoc]

/-- A leaf the stream writes is the leaf `leaf_node` writes for its nibbles packed. -/
theorem appendLeaf_out (key : PackedKey) {nibbles : List UInt8} (hnib : ∀ x ∈ nibbles, x < 16)
    (hcount : key.nibbleCount = nibbles.length) (hkey : key.nibbles = nibbles) (value : Value) :
    (TrieStream.new.appendLeaf c nibbles value).out = leafNode c key.bytes key.nibbleCount value := by
  rw [key.bytes_eq_fusedKey hnib hcount hkey, hcount]
  cases value <;> simp only [TrieStream.appendLeaf, TrieStream.new, TrieStream.out, leafNode, fuseNibblesNode_eq,
    List.nil_append] <;> rfl

/-- A substream is appended as `branch_node_nibbled` writes the reference trie-db makes to it. -/
theorem appendSubstream_out (hash : List UInt8 → List UInt8) (s other : TrieStream) :
    (s.appendSubstream c hash other).out = s.out ++ (childReference hash 32 other.out).encode c := by
  unfold TrieStream.appendSubstream childReference
  by_cases h : other.out.length ≤ 31
  · -- a short child is written in full, and its buffer holds it first
    rw [if_pos h, if_neg (by omega)]
    simp only [TrieStream.out, ChildReference.encode, List.take_left, List.append_assoc]
  · rw [if_neg h, if_pos (by omega)]
    simp only [TrieStream.out, ChildReference.encode, List.append_assoc]

theorem appendSubstreams_out (hash : List UInt8 → List UInt8) : ∀ (s : TrieStream) (children : List (Option TrieStream)),
    (s.appendSubstreams c hash children).out =
      s.out ++ (children.map (Option.map fun child => childReference hash 32 child.out)).flatMap (encodeChild c)
  | s, [] => by simp [TrieStream.appendSubstreams]
  | s, none :: children => by
    simp only [TrieStream.appendSubstreams, appendSubstreams_out hash s children, List.map_cons, Option.map_none,
      List.flatMap_cons, encodeChild, List.nil_append]
  | s, some child :: children => by
    simp only [TrieStream.appendSubstreams, appendSubstreams_out hash _ children, appendSubstream_out, List.map_cons,
      Option.map_some, List.flatMap_cons, encodeChild, List.append_assoc]

/-- A branch the stream writes is the branch `branch_node_nibbled` writes for its nibbles packed, each child
referred to as trie-db refers to it. -/
theorem branch_out (key : PackedKey) {nibbles : List UInt8} (hnib : ∀ x ∈ nibbles, x < 16)
    (hcount : key.nibbleCount = nibbles.length) (hkey : key.nibbles = nibbles) (hash : List UInt8 → List UInt8)
    (value : Option Value) (children : List (Option TrieStream)) :
    (TrieStream.branch c hash nibbles value children).out =
      branchNodeNibbled c key.bytes key.nibbleCount
        (children.map (Option.map fun child => childReference hash 32 child.out)) value := by
  have hbitmap : Bitmap.encode ((children.map (Option.map fun child => childReference hash 32 child.out)).map
      Option.isSome) = branchNodeBitMask (children.map Option.isSome) := by
    rw [List.map_map]
    congr 2
    funext child
    cases child <;> rfl
  rw [key.bytes_eq_fusedKey hnib hcount hkey, hcount, branchNodeNibbled_eq, TrieStream.branch, appendSubstreams_out,
    hbitmap]
  rcases value with _ | ⟨_ | _⟩ <;> simp only [TrieStream.beginBranch, TrieStream.new, TrieStream.out,
    fuseNibblesNode_eq, partialFromIteratorEncode, List.nil_append, List.append_assoc] <;> rfl

end Nodes

end CoreChain.Trie

import CoreChain.Trie.Header
import CoreChain.Lib.Compact

/-!
# The trie node codec

The model of `NodeCodec` of `substrate/primitives/trie/src/node_codec.rs`, the format of the nodes of a trie with
no extension nodes. A node is a header (`Header.lean`) with the number of nibbles of its partial key, the key packed
two nibbles a byte with a zero half byte in front when the count is odd, then for a branch a two-byte bitmap of
its children, then the value, inline after its length or as a hash, then the children, each after its length.

`decodePlan` reads a node without copying it: the plan it returns holds ranges of the bytes, and `NodePlan.build`
reads them against the bytes, as trie-db's `NodePlan::build` does.

The hasher is its output length `hashLength` (`H::LENGTH`), and the SCALE compact codec of lengths is a
`CompactCodec`.
-/

namespace CoreChain.Trie

/-! ## `nibble_ops` of trie-db -/

/-- `nibble_ops::NIBBLE_PER_BYTE`. -/
def nibblePerByte : Nat := 2

/-- `nibble_ops::NIBBLE_LENGTH`: the children of a branch. -/
def nibbleLength : Nat := 16

/-- `nibble_ops::pad_left`: the high half of a byte, where a key with an odd number of nibbles has its padding. -/
def padLeft (b : UInt8) : UInt8 := b &&& 0xF0

/-- `nibble_ops::number_padding`. -/
def numberPadding (i : Nat) : Nat := i % nibblePerByte

/-- `usize::div_ceil`. -/
def divCeil (a b : Nat) : Nat := a / b + if a % b > 0 then 1 else 0

/-- `BITMAP_LENGTH`. -/
def bitmapLength : Nat := 2

/-- `Error` of `error.rs`, with the variants `decode_plan` returns. -/
inductive Error where
  | badFormat
  | decode (e : String)
  deriving DecidableEq, Repr

/-- The `codec::Error` of a failed `Compact::<u32>::decode`; SCALE's text of it is not modelled. -/
def compactError : String := "Compact<u32>"

/-! ## Plans and nodes -/

/-- `NibbleSlicePlan`: the range of the packed key and the nibbles of padding in front of it. -/
structure NibbleSlicePlan where
  bytes : Nat × Nat
  offset : Nat
  deriving DecidableEq, Repr

/-- `ValuePlan`. -/
inductive ValuePlan where
  | inline (range : Nat × Nat)
  | node (range : Nat × Nat)
  deriving DecidableEq, Repr

/-- `NodeHandlePlan`. -/
inductive NodeHandlePlan where
  | hash (range : Nat × Nat)
  | inline (range : Nat × Nat)
  deriving DecidableEq, Repr

/-- `NodePlan`, of the kinds a trie with no extension nodes has. -/
inductive NodePlan where
  | empty
  | leaf (partialKey : NibbleSlicePlan) (value : ValuePlan)
  | nibbledBranch (partialKey : NibbleSlicePlan) (value : Option ValuePlan) (children : List (Option NodeHandlePlan))
  deriving DecidableEq, Repr

/-- `Value` of trie-db: a value in the node, or the hash of a value stored apart. -/
inductive Value where
  | inline (bytes : List UInt8)
  | node (hash : List UInt8)
  deriving DecidableEq, Repr

/-- `ChildReference` of trie-db: the hash of a child, or a child shorter than a hash, in a buffer of a hash's size
with its length. -/
inductive ChildReference where
  | hash (h : List UInt8)
  | inline (inlineData : List UInt8) (len : Nat)
  deriving DecidableEq, Repr

/-- `NodeHandle` of trie-db. -/
inductive NodeHandle where
  | hash (bytes : List UInt8)
  | inline (bytes : List UInt8)
  deriving DecidableEq, Repr

/-- `Node` of trie-db, of the kinds a trie with no extension nodes has; a partial key is its packed bytes with the
nibbles of padding in front of them, as a `NibbleSlice` holds it. -/
inductive Node where
  | empty
  | leaf (partialKey : List UInt8 × Nat) (value : Value)
  | nibbledBranch (partialKey : List UInt8 × Nat) (value : Option Value) (children : List (Option NodeHandle))
  deriving DecidableEq, Repr

/-- `&data[range]`. -/
def slice (data : List UInt8) (range : Nat × Nat) : List UInt8 :=
  (data.drop range.1).take (range.2 - range.1)

/-- `NibbleSlicePlan::build`. -/
def NibbleSlicePlan.build (data : List UInt8) (plan : NibbleSlicePlan) : List UInt8 × Nat :=
  (slice data plan.bytes, plan.offset)

/-- `ValuePlan::build`. -/
def ValuePlan.build (data : List UInt8) : ValuePlan → Value
  | .inline range => .inline (slice data range)
  | .node range => .node (slice data range)

/-- `NodeHandlePlan::build`. -/
def NodeHandlePlan.build (data : List UInt8) : NodeHandlePlan → NodeHandle
  | .hash range => .hash (slice data range)
  | .inline range => .inline (slice data range)

/-- `NodePlan::build`. -/
def NodePlan.build (data : List UInt8) : NodePlan → Node
  | .empty => .empty
  | .leaf partialKey value => .leaf (partialKey.build data) (value.build data)
  | .nibbledBranch partialKey value children =>
    .nibbledBranch (partialKey.build data) (value.map (ValuePlan.build data))
      (children.map (Option.map (NodeHandlePlan.build data)))

/-! ## Bitmaps -/

/-- The loop of `Bitmap::encode` and of `branch_node_bit_mask` in `trie_stream.rs`, on the `u16` bitmap and
cursor. -/
def bitmapLoop : List Bool → Nat → Nat → Nat
  | [], bitmap, _ => bitmap
  | v :: vs, bitmap, cursor => bitmapLoop vs (if v then bitmap ||| cursor else bitmap) ((cursor <<< 1) % 2 ^ 16)

/-- `Bitmap`, a `u16`. -/
structure Bitmap where
  value : Nat
  deriving DecidableEq, Repr

/-- `Bitmap::encode`: the two bytes it writes over the placeholder. -/
def Bitmap.encode (hasChildren : List Bool) : UInt8 × UInt8 :=
  let bitmap := bitmapLoop hasChildren 0 1
  (UInt8.ofNat (bitmap % 256), UInt8.ofNat (bitmap / 256))

/-- `Bitmap::decode` of the two bytes of the bitmap's range, read as a little-endian `u16`. -/
def Bitmap.decode (b₀ b₁ : UInt8) : Except String Bitmap :=
  let value := b₀.toNat + 256 * b₁.toNat
  if value = 0 then .error "Bitmap without a child." else .ok ⟨value⟩

/-- `Bitmap::value_at`. -/
def Bitmap.valueAt (bitmap : Bitmap) (i : Nat) : Bool :=
  bitmap.value &&& (1 <<< i) != 0

/-! ## Encoding -/

/-- `partial_from_iterator_encode`. -/
def partialFromIteratorEncode (partialKey : List UInt8) (nibbleCount : Nat) (nodeKind : NodeKind) : List UInt8 :=
  let header := match nodeKind with
    | .leaf => NodeHeader.leaf nibbleCount
    | .branchWithValue => .branch true nibbleCount
    | .branchNoValue => .branch false nibbleCount
    | .hashedValueLeaf => .hashedValueLeaf nibbleCount
    | .hashedValueBranch => .hashedValueBranch nibbleCount
  header.encode ++ partialKey

section Codec

variable (c : CompactCodec) (hashLength : Nat)

/-- The bytes both encoders write for a value: an inline value after its length, or the hash. -/
def Value.encode : Value → List UInt8
  | .inline value => c.encode (UInt32.ofNat value.length) ++ value
  | .node hash => hash

/-- `encode_to` of a child's slice: its length and its bytes. -/
def ChildReference.encode : ChildReference → List UInt8
  | .hash h => c.encode (UInt32.ofNat h.length) ++ h
  | .inline inlineData len => c.encode (UInt32.ofNat len) ++ inlineData.take len

/-- The bytes `branch_node_nibbled` writes for a slot of the branch: nothing for an empty one. -/
def encodeChild : Option ChildReference → List UInt8
  | some child => child.encode c
  | none => []

/-- `NodeCodec::leaf_node`. -/
def leafNode (partialKey : List UInt8) (numberNibble : Nat) (value : Value) : List UInt8 :=
  let containsHash := match value with
    | .node _ => true
    | .inline _ => false
  let output := if containsHash then partialFromIteratorEncode partialKey numberNibble .hashedValueLeaf
    else partialFromIteratorEncode partialKey numberNibble .leaf
  output ++ value.encode c

/-- `NodeCodec::branch_node_nibbled`. The source pushes two zero bytes for the bitmap, writes the value and the
children, and then copies the bitmap over the zeros; here the bitmap is written in its place at once. -/
def branchNodeNibbled (partialKey : List UInt8) (numberNibble : Nat) (children : List (Option ChildReference))
    (value : Option Value) : List UInt8 :=
  let containsHash := match value with
    | some (.node _) => true
    | _ => false
  let output := match value, containsHash with
    | none, _ => partialFromIteratorEncode partialKey numberNibble .branchNoValue
    | _, false => partialFromIteratorEncode partialKey numberNibble .branchWithValue
    | _, true => partialFromIteratorEncode partialKey numberNibble .hashedValueBranch
  let bitmap := Bitmap.encode (children.map Option.isSome)
  output ++ [bitmap.1, bitmap.2] ++ ((value.map (Value.encode c)).getD []) ++ children.flatMap (encodeChild c)

/-- `NodeCodec::empty_node`. -/
def emptyNode : List UInt8 := [emptyTrie]

/-! ## Decoding -/

/-- `Compact::<u32>::decode` from a `ByteSliceInput`. -/
def ByteSliceInput.decodeCompact (input : ByteSliceInput) : Except String (Nat × ByteSliceInput) :=
  match c.decode (input.data.drop input.offset) with
  | none => .error compactError
  | some (n, rest) => .ok (n.toNat, ⟨input.data, input.data.length - rest.length⟩)

/-- The start of both node kinds of `decode_plan`: the checks of the byte after the header, and the range of the
packed key. -/
def decodePartial (data : List UInt8) (nibbleCount : Nat) (input : ByteSliceInput) :
    Except Error (NibbleSlicePlan × ByteSliceInput) := do
  let padding := nibbleCount % nibblePerByte != 0
  -- data should be at least of size offset + 1
  if data.length < input.offset + 1 then throw .badFormat
  -- check that the padding is valid (if any)
  if padding && padLeft (data.getD input.offset 0) != 0 then throw .badFormat
  let (partialRange, input) ← (input.take (divCeil nibbleCount nibblePerByte)).mapError .decode
  pure (⟨partialRange, numberPadding nibbleCount⟩, input)

/-- The value of a node in `decode_plan`: its hash of `H::LENGTH` bytes, or an inline value after its length. -/
def decodeValue (containsHash : Bool) (input : ByteSliceInput) : Except Error (ValuePlan × ByteSliceInput) := do
  if containsHash then
    let (range, input) ← (input.take hashLength).mapError .decode
    pure (.node range, input)
  else
    let (count, input) ← (input.decodeCompact c).mapError .decode
    let (range, input) ← (input.take count).mapError .decode
    pure (.inline range, input)

/-- The value of a branch in `decode_plan`, when its header says it has one. -/
def decodeBranchValue (branchHasValue containsHash : Bool) (input : ByteSliceInput) :
    Except Error (Option ValuePlan × ByteSliceInput) := do
  if branchHasValue then
    let (value, input) ← decodeValue c hashLength containsHash input
    pure (some value, input)
  else pure (none, input)

/-- The loop of `decode_plan` over the children the bitmap announces; a child of `H::LENGTH` bytes is a hash. -/
def decodeChildren (bitmap : Bitmap) :
    List Nat → ByteSliceInput → Except Error (List (Option NodeHandlePlan) × ByteSliceInput)
  | [], input => pure ([], input)
  | i :: is, input => do
    if bitmap.valueAt i then
      let (count, input) ← (input.decodeCompact c).mapError .decode
      let (range, input) ← (input.take count).mapError .decode
      let (children, input) ← decodeChildren bitmap is input
      pure (some (if count = hashLength then .hash range else .inline range) :: children, input)
    else
      let (children, input) ← decodeChildren bitmap is input
      pure (none :: children, input)

/-- `NodeCodec::decode_plan`. -/
def decodePlan (data : List UInt8) : Except Error NodePlan := do
  let input := ByteSliceInput.new data
  let (header, input) ← (NodeHeader.decode input).mapError .decode
  let containsHash := header.containsHashOfValue
  let branchHasValue := match header with
    | .branch hasValue _ => hasValue
    -- hashed_value_branch
    | _ => true
  match header with
  | .null => pure .empty
  | .hashedValueBranch nibbleCount | .branch _ nibbleCount =>
    let (partialKey, input) ← decodePartial data nibbleCount input
    let (bitmapRange, input) ← (input.take bitmapLength).mapError .decode
    let bitmap ← (Bitmap.decode (data.getD bitmapRange.1 0) (data.getD (bitmapRange.1 + 1) 0)).mapError .decode
    let (value, input) ← decodeBranchValue c hashLength branchHasValue containsHash input
    let (children, _) ← decodeChildren c hashLength bitmap (List.range nibbleLength) input
    pure (.nibbledBranch partialKey value children)
  | .hashedValueLeaf nibbleCount | .leaf nibbleCount =>
    let (partialKey, input) ← decodePartial data nibbleCount input
    let (value, _) ← decodeValue c hashLength containsHash input
    pure (.leaf partialKey value)

end Codec

end CoreChain.Trie

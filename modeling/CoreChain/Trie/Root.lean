import CoreChain.Trie.Stream

/-!
# Two roots of one trie

trie-root computes the root of a sorted set of keys by streaming the nodes of its trie through `TrieStream`, each
child into a stream of its own that the parent then appends, and hashing the root node's bytes. trie-db builds
the nodes of the same trie with `NodeCodec`, refers to each child as `childReference` says and hashes the root
node's bytes. Both libraries build the trie of the set, a tree of nodes whose keys are nibbles (`Tree`), and
trie-db packs a node's nibbles two a byte (`PacksNibbles`).

For every such tree the two encoders write the same bytes at every node (`stream_out_eq_encode`), so the roots
agree (`trieRoot_eq_trieDBRoot`).
-/

namespace CoreChain.Trie

/-- A nibble, kept one a byte as trie-root keeps nibbles. -/
abbrev Nibble := {b : UInt8 // b < 16}

/-- A trie with no extension nodes: a node's key is its nibbles, and a branch has a slot for each nibble. -/
inductive Tree where
  | empty
  | leaf (key : List Nibble) (value : Value)
  | branch (partialKey : List Nibble) (value : Option Value) (children : List (Option Tree))

/-- What trie-db's packing of a key's nibbles gives: a packed key of those nibbles. -/
def PacksNibbles (pack : List UInt8 → List UInt8) : Prop :=
  ∀ nibbles : List UInt8, (∀ x ∈ nibbles, x < 16) →
    ∃ key : PackedKey, key.bytes = pack nibbles ∧ key.nibbleCount = nibbles.length ∧ key.nibbles = nibbles

/-- The stream's own packing is one. -/
theorem packsNibbles_fusedKey : PacksNibbles fusedKey := fun nibbles hnib =>
  ⟨PackedKey.ofNibbles nibbles hnib, rfl, rfl, PackedKey.nibbles_ofNibbles nibbles hnib⟩

theorem nibbles_lt (key : List Nibble) : ∀ x ∈ key.map Subtype.val, x < 16 := by
  intro x hx
  obtain ⟨n, -, rfl⟩ := List.mem_map.mp hx
  exact n.property

section Roots

variable (c : CompactCodec) (hash : List UInt8 → List UInt8) (pack : List UInt8 → List UInt8)

mutual

/-- The stream trie-root writes for a node. -/
def Tree.stream : Tree → TrieStream
  | .empty => TrieStream.new.appendEmptyData
  | .leaf key value => TrieStream.new.appendLeaf c (key.map Subtype.val) value
  | .branch partialKey value children =>
    TrieStream.branch c hash (partialKey.map Subtype.val) value (Tree.streams children)

/-- The streams of a branch's children. -/
def Tree.streams : List (Option Tree) → List (Option TrieStream)
  | [] => []
  | none :: children => none :: Tree.streams children
  | some child :: children => some child.stream :: Tree.streams children

end

mutual

/-- The bytes trie-db's `NodeCodec` writes for a node, its key packed by `pack`. -/
def Tree.encode : Tree → List UInt8
  | .empty => emptyNode
  | .leaf key value => leafNode c (pack (key.map Subtype.val)) key.length value
  | .branch partialKey value children =>
    branchNodeNibbled c (pack (partialKey.map Subtype.val)) partialKey.length (Tree.references children) value

/-- The references of a branch to its children. -/
def Tree.references : List (Option Tree) → List (Option ChildReference)
  | [] => []
  | none :: children => none :: Tree.references children
  | some child :: children => some (childReference hash 32 child.encode) :: Tree.references children

end

/-- `trie_root`: the hash of the root node's stream. -/
def trieRoot (t : Tree) : List UInt8 :=
  hash (t.stream c hash).out

/-- The root of the `TrieDB` of a trie: the hash of the root node's bytes. -/
def trieDBRoot (t : Tree) : List UInt8 :=
  hash (t.encode c hash pack)

variable {c hash pack}

mutual

/-- Every node of the trie has the same bytes in the stream and in the codec. -/
theorem stream_out_eq_encode (hpack : PacksNibbles pack) : ∀ t : Tree, (t.stream c hash).out = t.encode c hash pack
  | .empty => rfl
  | .leaf key value => by
    obtain ⟨packed, hbytes, hcount, hnibbles⟩ := hpack _ (nibbles_lt key)
    rw [Tree.stream, Tree.encode, appendLeaf_out packed (nibbles_lt key) hcount hnibbles, hbytes, hcount,
      List.length_map]
  | .branch partialKey value children => by
    obtain ⟨packed, hbytes, hcount, hnibbles⟩ := hpack _ (nibbles_lt partialKey)
    rw [Tree.stream, Tree.encode, branch_out packed (nibbles_lt partialKey) hcount hnibbles, hbytes, hcount,
      List.length_map, references_eq hpack children]

/-- The children of a branch are referred to alike. -/
theorem references_eq (hpack : PacksNibbles pack) : ∀ children : List (Option Tree),
    (Tree.streams c hash children).map (Option.map fun child => childReference hash 32 child.out) =
      Tree.references c hash pack children
  | [] => rfl
  | none :: children => by
    rw [Tree.streams, Tree.references, List.map_cons, Option.map_none, references_eq hpack children]
  | some child :: children => by
    rw [Tree.streams, Tree.references, List.map_cons, Option.map_some, stream_out_eq_encode hpack child,
      references_eq hpack children]

end

theorem trieRoot_eq_trieDBRoot (hpack : PacksNibbles pack) (t : Tree) : trieRoot c hash t = trieDBRoot c hash pack t := by
  unfold trieRoot trieDBRoot
  rw [stream_out_eq_encode hpack t]

end Roots

/-- `TrieStream` writes the nodes `NodeCodec` writes: the empty node, every leaf and every branch, nibbles packed two a
byte, a child of at most 31 bytes inline and a longer one as its hash, as trie-db refers to children by 32-byte hashes.
So trie-root's root of a trie is its `TrieDB` root. -/
theorem trieStream_eq_nodeCodec (c : CompactCodec) (hash : List UInt8 → List UInt8) :
    TrieStream.new.appendEmptyData.out = emptyNode ∧
    (∀ (key : PackedKey) (nibbles : List UInt8) (value : Value), (∀ x ∈ nibbles, x < 16) →
      key.nibbleCount = nibbles.length → key.nibbles = nibbles →
      (TrieStream.new.appendLeaf c nibbles value).out = leafNode c key.bytes key.nibbleCount value) ∧
    (∀ (key : PackedKey) (nibbles : List UInt8) (value : Option Value) (children : List (Option TrieStream)),
      (∀ x ∈ nibbles, x < 16) → key.nibbleCount = nibbles.length → key.nibbles = nibbles →
      (TrieStream.branch c hash nibbles value children).out =
        branchNodeNibbled c key.bytes key.nibbleCount
          (children.map (Option.map fun child => childReference hash 32 child.out)) value) ∧
    (∀ pack, PacksNibbles pack → ∀ t : Tree, trieRoot c hash t = trieDBRoot c hash pack t) :=
  ⟨rfl, fun key _ value hnib hcount hkey => appendLeaf_out key hnib hcount hkey value,
    fun key _ value children hnib hcount hkey => branch_out key hnib hcount hkey hash value children,
    fun _ hpack t => trieRoot_eq_trieDBRoot hpack t⟩

/-- A branch with a leaf child of three nibbles: trie-root and trie-db give it one root, whatever the hash. -/
theorem trieStream_eq_nodeCodec_branch :
    PacksNibbles fusedKey ∧
      trieRoot scaleCompact (List.take 32)
          (.branch [⟨1, by decide⟩] none [none, some (.leaf [⟨2, by decide⟩, ⟨3, by decide⟩] (.inline [7]))]) =
        trieDBRoot scaleCompact (List.take 32) fusedKey
          (.branch [⟨1, by decide⟩] none [none, some (.leaf [⟨2, by decide⟩, ⟨3, by decide⟩] (.inline [7]))]) :=
  ⟨packsNibbles_fusedKey, (trieStream_eq_nodeCodec scaleCompact (List.take 32)).2.2.2 fusedKey packsNibbles_fusedKey _⟩

end CoreChain.Trie

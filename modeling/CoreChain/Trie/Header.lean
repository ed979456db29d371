import Mathlib

/-!
# Trie node headers

The model of `substrate/primitives/trie/src/node_header.rs`. A header is one byte whose top two, three or four bits
give the node kind, the rest the start of the nibble count: a count below the largest value of those bits is the
value itself; otherwise the largest value is written and the rest of the count follows, less one, in bytes of 255
and a last byte below 255 (`sizeAndPrefixIterator`, read back by `decodeSize`).

`NodeHeader.decode` reads back what `NodeHeader.encode` writes and consumes exactly it (`decode_encode`), and what it
accepts is the encoding of what it returns (`encode_of_decode`): the format has one encoding of every header.
-/

namespace CoreChain.Trie

/-! ## `trie_constants` -/

/-- `FIRST_PREFIX`. -/
def firstPrefix : UInt8 := (0b00 : UInt8) <<< 6

/-- `LEAF_PREFIX_MASK`. -/
def leafPrefixMask : UInt8 := (0b01 : UInt8) <<< 6

/-- `BRANCH_WITHOUT_MASK`. -/
def branchWithoutMask : UInt8 := (0b10 : UInt8) <<< 6

/-- `BRANCH_WITH_MASK`. -/
def branchWithMask : UInt8 := (0b11 : UInt8) <<< 6

/-- `EMPTY_TRIE`. -/
def emptyTrie : UInt8 := firstPrefix ||| ((0b00 : UInt8) <<< 4)

/-- `ALT_HASHING_LEAF_PREFIX_MASK`. -/
def altHashingLeafPrefixMask : UInt8 := firstPrefix ||| ((0b1 : UInt8) <<< 5)

/-- `ALT_HASHING_BRANCH_WITH_MASK`. -/
def altHashingBranchWithMask : UInt8 := firstPrefix ||| ((0b01 : UInt8) <<< 4)

/-! ## Headers -/

/-- `NodeHeader`. -/
inductive NodeHeader where
  | null
  | branch (hasValue : Bool) (nibbleCount : Nat)
  | leaf (nibbleCount : Nat)
  | hashedValueBranch (nibbleCount : Nat)
  | hashedValueLeaf (nibbleCount : Nat)
  deriving DecidableEq, Repr

/-- `NodeHeader::contains_hash_of_value`. -/
def NodeHeader.containsHashOfValue : NodeHeader → Bool
  | .hashedValueBranch _ | .hashedValueLeaf _ => true
  | _ => false

/-- `NodeKind`. -/
inductive NodeKind where
  | leaf
  | branchNoValue
  | branchWithValue
  | hashedValueLeaf
  | hashedValueBranch
  deriving DecidableEq, Repr

/-- The bytes after the first of a nibble count, as the `from_fn` closure of `size_and_prefix_iterator` yields
them from `rem`: `255` while more than 255 remain, then what remains less one. -/
def sizeTail (rem : Nat) : List UInt8 :=
  if rem > 0 then
    if rem < 256 then [UInt8.ofNat (rem - 1)] else 255 :: sizeTail (rem - 255)
  else []
termination_by rem
decreasing_by omega

/-- `size_and_prefix_iterator`. -/
def sizeAndPrefixIterator (size : Nat) (kindPrefix : UInt8) (prefixMask : Nat) : List UInt8 :=
  let maxValue := 255 >>> prefixMask
  let l1 := min (maxValue - 1) size
  let (firstByte, rem) :=
    if size = l1 then (kindPrefix + UInt8.ofNat l1, 0) else (kindPrefix + UInt8.ofNat maxValue, size - l1)
  firstByte :: sizeTail rem

/-- `NodeHeader::encode`, through `encode_size_and_prefix`. -/
def NodeHeader.encode : NodeHeader → List UInt8
  | .null => [emptyTrie]
  | .branch true nibbleCount => sizeAndPrefixIterator nibbleCount branchWithMask 2
  | .branch false nibbleCount => sizeAndPrefixIterator nibbleCount branchWithoutMask 2
  | .leaf nibbleCount => sizeAndPrefixIterator nibbleCount leafPrefixMask 2
  | .hashedValueBranch nibbleCount => sizeAndPrefixIterator nibbleCount altHashingBranchWithMask 4
  | .hashedValueLeaf nibbleCount => sizeAndPrefixIterator nibbleCount altHashingLeafPrefixMask 3

/-! ## Reading -/

/-- `ByteSliceInput` of `node_codec.rs`: the bytes and how many of them were read. -/
structure ByteSliceInput where
  data : List UInt8
  offset : Nat

namespace ByteSliceInput

/-- `ByteSliceInput::new`. -/
def new (data : List UInt8) : ByteSliceInput :=
  ⟨data, 0⟩

/-- `ByteSliceInput::take`: the range of the next `count` bytes. -/
def take (input : ByteSliceInput) (count : Nat) : Except String ((Nat × Nat) × ByteSliceInput) :=
  if input.offset + count > input.data.length then .error "out of data"
  else .ok ((input.offset, input.offset + count), { input with offset := input.offset + count })

/-- `Input::read_byte` of `ByteSliceInput`. -/
def readByte (input : ByteSliceInput) : Except String (UInt8 × ByteSliceInput) :=
  if input.offset + 1 > input.data.length then .error "out of data"
  else .ok (input.data.getD input.offset 0, { input with offset := input.offset + 1 })

end ByteSliceInput

/-- The loop of `decode_size`, with `read_byte` written out: a byte below 255 ends the count. -/
def decodeSizeLoop (input : ByteSliceInput) (result : Nat) : Except String (Nat × ByteSliceInput) :=
  if input.offset + 1 > input.data.length then .error "out of data"
  else
    let n := input.data.getD input.offset 0
    if n.toNat < 255 then .ok (result + n.toNat + 1, ⟨input.data, input.offset + 1⟩)
    else decodeSizeLoop ⟨input.data, input.offset + 1⟩ (result + 255)
termination_by input.data.length - input.offset

/-- `decode_size`. -/
def decodeSize (first : UInt8) (input : ByteSliceInput) (prefixMask : Nat) : Except String (Nat × ByteSliceInput) :=
  let maxValue := 255 >>> prefixMask
  let result := (first &&& UInt8.ofNat maxValue).toNat
  if result < maxValue then .ok (result, input) else decodeSizeLoop input (result - 1)

/-- `NodeHeader::decode` after its first byte `i`. -/
def NodeHeader.decodeWith (i : UInt8) (input : ByteSliceInput) : Except String (NodeHeader × ByteSliceInput) :=
  if i = emptyTrie then .ok (.null, input)
  else if i &&& ((0b11 : UInt8) <<< 6) = leafPrefixMask then
    (decodeSize i input 2).map fun r => (.leaf r.1, r.2)
  else if i &&& ((0b11 : UInt8) <<< 6) = branchWithMask then
    (decodeSize i input 2).map fun r => (.branch true r.1, r.2)
  else if i &&& ((0b11 : UInt8) <<< 6) = branchWithoutMask then
    (decodeSize i input 2).map fun r => (.branch false r.1, r.2)
  -- the two top bits are `00`, `EMPTY_TRIE`; the source's `unreachable!()` covers no other value
  else if i &&& ((0b111 : UInt8) <<< 5) = altHashingLeafPrefixMask then
    (decodeSize i input 3).map fun r => (.hashedValueLeaf r.1, r.2)
  else if i &&& ((0b1111 : UInt8) <<< 4) = altHashingBranchWithMask then
    (decodeSize i input 4).map fun r => (.hashedValueBranch r.1, r.2)
  else .error "Unallowed encoding"

/-- `NodeHeader::decode`. -/
def NodeHeader.decode (input : ByteSliceInput) : Except String (NodeHeader × ByteSliceInput) :=
  match input.readByte with
  | .error e => .error e
  | .ok (i, input) => NodeHeader.decodeWith i input

/-! ## Reading what was written -/

theorem drop_eq_cons {data rest : List UInt8} {offset : Nat} {b : UInt8} (h : data.drop offset = b :: rest) :
    offset < data.length ∧ data.getD offset 0 = b ∧ data.drop (offset + 1) = rest := by
  have hlen : (data.drop offset).length = rest.length + 1 := by rw [h]; rfl
  rw [List.length_drop] at hlen
  refine ⟨by omega, ?_, ?_⟩
  · have hget : data[offset]? = some b := by
      rw [← Nat.add_zero offset, ← List.getElem?_drop, h]
      rfl
    rw [List.getD_eq_getElem?_getD, hget]
    rfl
  · rw [← List.drop_drop, h]
    rfl

theorem readByte_of_drop {data rest : List UInt8} {offset : Nat} {b : UInt8} (h : data.drop offset = b :: rest) :
    ByteSliceInput.readByte ⟨data, offset⟩ = .ok (b, ⟨data, offset + 1⟩) := by
  obtain ⟨hlt, hget, -⟩ := drop_eq_cons h
  unfold ByteSliceInput.readByte
  rw [if_neg (by simp only; omega), hget]

theorem sizeTail_of_lt {rem : Nat} (h₀ : 0 < rem) (h : rem < 256) : sizeTail rem = [UInt8.ofNat (rem - 1)] := by
  rw [sizeTail, if_pos h₀, if_pos h]

theorem sizeTail_of_ge {rem : Nat} (h : 256 ≤ rem) : sizeTail rem = 255 :: sizeTail (rem - 255) := by
  rw [sizeTail, if_pos (by omega), if_neg (by omega)]

/-- The loop reads back a `sizeTail`, whatever follows it. -/
theorem decodeSizeLoop_sizeTail (rem : Nat) (h₀ : 0 < rem) (data : List UInt8) (offset result : Nat)
    (rest : List UInt8) (h : data.drop offset = sizeTail rem ++ rest) :
    decodeSizeLoop ⟨data, offset⟩ result = .ok (result + rem, ⟨data, offset + (sizeTail rem).length⟩) := by
  by_cases hlt : rem < 256
  · -- the last byte, `rem - 1`
    rw [sizeTail_of_lt h₀ hlt] at h ⊢
    obtain ⟨hoff, hget, -⟩ := drop_eq_cons h
    have hbyte : (UInt8.ofNat (rem - 1)).toNat = rem - 1 := by
      rw [UInt8.toNat_ofNat']
      exact Nat.mod_eq_of_lt (by omega)
    rw [decodeSizeLoop, if_neg (by simp only; omega)]
    simp only [hget, hbyte]
    rw [if_pos (by omega)]
    congr 2
    omega
  · -- a byte of 255, and the rest of the count after it
    rw [sizeTail_of_ge (by omega)] at h ⊢
    obtain ⟨hoff, hget, hrest⟩ := drop_eq_cons h
    rw [decodeSizeLoop, if_neg (by simp only; omega)]
    simp only [hget, UInt8.reduceToNat, Nat.lt_irrefl, if_false]
    rw [decodeSizeLoop_sizeTail (rem - 255) (by omega) data (offset + 1) (result + 255) rest hrest]
    have hv : result + 255 + (rem - 255) = result + rem := by omega
    have hoff' : offset + 1 + (sizeTail (rem - 255)).length = offset + (255 :: sizeTail (rem - 255)).length := by
      simp only [List.length_cons]
      omega
    rw [hv, hoff']
termination_by rem
decreasing_by omega

/-- What the loop reads is a `sizeTail`. -/
theorem decodeSizeLoop_ok : ∀ {input : ByteSliceInput} {result v : Nat} {input' : ByteSliceInput},
    decodeSizeLoop input result = .ok (v, input') →
    input'.data = input.data ∧ ∃ rem, 0 < rem ∧ v = result + rem ∧
      input.data.drop input.offset = sizeTail rem ++ input.data.drop input'.offset
  | input, result, v, input', h => by
    rw [decodeSizeLoop] at h
    split at h
    · cases h
    · rename_i hlen
      have hcons : input.data.drop input.offset = input.data.getD input.offset 0 :: input.data.drop (input.offset + 1) := by
        rw [List.getD_eq_getElem?_getD, List.getElem?_eq_getElem (by omega)]
        exact List.drop_eq_getElem_cons (by omega)
      simp only at h
      split at h
      · -- a byte below 255 ends the count
        rename_i hn
        cases h
        refine ⟨rfl, (input.data.getD input.offset 0).toNat + 1, by omega, by omega, ?_⟩
        rw [sizeTail_of_lt (by omega) (by omega), hcons, Nat.add_sub_cancel, UInt8.ofNat_toNat]
        rfl
      · -- a byte of 255
        rename_i hn
        obtain ⟨hdata, rem, hrem, hv, hdrop⟩ := decodeSizeLoop_ok h
        have h255 : input.data.getD input.offset 0 = 255 := by
          have := (input.data.getD input.offset 0).toNat_lt
          apply UInt8.toNat_inj.mp
          simp only [UInt8.reduceToNat]
          omega
        refine ⟨hdata, rem + 255, by omega, by omega, ?_⟩
        rw [sizeTail_of_ge (by omega), Nat.add_sub_cancel, hcons, h255]
        simp only [List.cons_append]
        rw [← hdrop]
termination_by input => input.data.length - input.offset
decreasing_by omega

theorem readByte_ok {input input' : ByteSliceInput} {b : UInt8} (h : input.readByte = .ok (b, input')) :
    input' = ⟨input.data, input.offset + 1⟩ ∧ input.data.drop input.offset = b :: input.data.drop (input.offset + 1) := by
  unfold ByteSliceInput.readByte at h
  split at h
  · cases h
  · rename_i hlen
    cases h
    refine ⟨rfl, ?_⟩
    rw [List.getD_eq_getElem?_getD, List.getElem?_eq_getElem (by omega)]
    exact List.drop_eq_getElem_cons (by omega)

theorem decode_of_drop {data rest : List UInt8} {offset : Nat} {i : UInt8} (h : data.drop offset = i :: rest) :
    NodeHeader.decode ⟨data, offset⟩ = NodeHeader.decodeWith i ⟨data, offset + 1⟩ := by
  unfold NodeHeader.decode
  rw [readByte_of_drop h]

theorem map_eq_ok {ε α β : Type} {e : Except ε α} {f : α → β} {b : β} (h : e.map f = .ok b) :
    ∃ a, e = .ok a ∧ f a = b := by
  cases e with
  | error => cases h
  | ok a =>
    cases h
    exact ⟨a, rfl, rfl⟩

/-- Every byte is the `UInt8` of its number: a fact of all 256 bytes is decided over those numbers. -/
theorem uint8_forall {P : UInt8 → Prop} (h : ∀ n < 256, P (UInt8.ofNat n)) (i : UInt8) : P i := by
  have := h i.toNat i.toNat_lt
  rwa [UInt8.ofNat_toNat] at this

/-! ## Counts -/

section Size

variable {kindPrefix : UInt8} {prefixMask : Nat}

theorem sizeAndPrefixIterator_of_lt {size : Nat} (h : size < 255 >>> prefixMask) :
    sizeAndPrefixIterator size kindPrefix prefixMask = [kindPrefix + UInt8.ofNat size] := by
  have hmin : min (255 >>> prefixMask - 1) size = size := Nat.min_eq_right (by omega)
  simp only [sizeAndPrefixIterator, hmin, if_true]
  rw [sizeTail, if_neg (Nat.lt_irrefl 0)]

theorem sizeAndPrefixIterator_of_ge {size : Nat} (hM : 1 ≤ 255 >>> prefixMask) (h : 255 >>> prefixMask ≤ size) :
    sizeAndPrefixIterator size kindPrefix prefixMask =
      (kindPrefix + UInt8.ofNat (255 >>> prefixMask)) :: sizeTail (size - (255 >>> prefixMask - 1)) := by
  have hmin : min (255 >>> prefixMask - 1) size = 255 >>> prefixMask - 1 := Nat.min_eq_left (by omega)
  simp only [sizeAndPrefixIterator, hmin]
  rw [if_neg (by omega)]

/-- The first byte of a count is the prefix plus a number of the prefix's low bits. -/
theorem sizeAndPrefixIterator_head (hM : 1 ≤ 255 >>> prefixMask) (size : Nat) :
    ∃ l ≤ 255 >>> prefixMask, ∃ tail,
      sizeAndPrefixIterator size kindPrefix prefixMask = (kindPrefix + UInt8.ofNat l) :: tail := by
  by_cases h : size < 255 >>> prefixMask
  · exact ⟨size, Nat.le_of_lt h, [], sizeAndPrefixIterator_of_lt h⟩
  · exact ⟨_, Nat.le_refl _, _, sizeAndPrefixIterator_of_ge hM (by omega)⟩

/-- `decode_size` reads back a count, when the prefix keeps out of the low bits it leaves to the count. -/
theorem decodeSize_sizeAndPrefixIterator (hM : 1 ≤ 255 >>> prefixMask)
    (hlow : ∀ l ≤ 255 >>> prefixMask, ((kindPrefix + UInt8.ofNat l) &&& UInt8.ofNat (255 >>> prefixMask)).toNat = l)
    (size : Nat) {first : UInt8} {tail : List UInt8}
    (henc : sizeAndPrefixIterator size kindPrefix prefixMask = first :: tail)
    {data rest : List UInt8} {offset : Nat} (h : data.drop offset = tail ++ rest) :
    decodeSize first ⟨data, offset⟩ prefixMask = .ok (size, ⟨data, offset + tail.length⟩) := by
  unfold decodeSize
  by_cases hs : size < 255 >>> prefixMask
  · -- the count fits in the first byte
    rw [sizeAndPrefixIterator_of_lt hs, List.cons.injEq] at henc
    obtain ⟨rfl, rfl⟩ := henc
    simp only [hlow size (Nat.le_of_lt hs)]
    rw [if_pos hs]
    rfl
  · -- the first byte is full and the rest follows
    rw [sizeAndPrefixIterator_of_ge hM (by omega), List.cons.injEq] at henc
    obtain ⟨rfl, rfl⟩ := henc
    simp only [hlow _ (Nat.le_refl _), Nat.lt_irrefl, if_false]
    rw [decodeSizeLoop_sizeTail _ (by omega) data offset _ rest h]
    congr 2
    omega

/-- What `decode_size` reads after a first byte of the prefix is the rest of that count's encoding. -/
theorem decodeSize_ok (hM : 1 ≤ 255 >>> prefixMask) (hM' : 255 >>> prefixMask < 256) {first : UInt8}
    (hfirst : kindPrefix + UInt8.ofNat (first &&& UInt8.ofNat (255 >>> prefixMask)).toNat = first)
    {data : List UInt8} {offset size : Nat} {input' : ByteSliceInput}
    (h : decodeSize first ⟨data, offset⟩ prefixMask = .ok (size, input')) :
    input'.data = data ∧
      first :: data.drop offset = sizeAndPrefixIterator size kindPrefix prefixMask ++ data.drop input'.offset := by
  unfold decodeSize at h
  have hle : (first &&& UInt8.ofNat (255 >>> prefixMask)).toNat ≤ 255 >>> prefixMask := by
    rw [UInt8.toNat_and, UInt8.toNat_ofNat', Nat.mod_eq_of_lt hM']
    exact Nat.and_le_right
  simp only at h
  split_ifs at h with hlt
  · -- the count was in the first byte
    cases h
    refine ⟨rfl, ?_⟩
    rw [sizeAndPrefixIterator_of_lt hlt, hfirst]
    rfl
  · -- the first byte was full: the rest of the count follows it
    have hfull : (first &&& UInt8.ofNat (255 >>> prefixMask)).toNat = 255 >>> prefixMask := by omega
    rw [hfull] at h hfirst
    obtain ⟨hdata, rem, hrem, rfl, hdrop⟩ := decodeSizeLoop_ok h
    refine ⟨hdata, ?_⟩
    rw [sizeAndPrefixIterator_of_ge hM (by omega), hfirst, List.cons_append, hdrop]
    congr 3
    omega

end Size

/-! ## Headers -/

section Kind

variable {kindPrefix : UInt8} {prefixMask : Nat}

/-- A header of a kind reads back from its encoding: the kind's first bytes hold the count's low bits, and each of
them takes the kind's branch of `decodeWith`. -/
theorem decode_sizeAndPrefixIterator {mk : Nat → NodeHeader} (hM : 1 ≤ 255 >>> prefixMask)
    (hfirst : ∀ l ≤ 255 >>> prefixMask,
      ((kindPrefix + UInt8.ofNat l) &&& UInt8.ofNat (255 >>> prefixMask)).toNat = l ∧
      ∀ input, NodeHeader.decodeWith (kindPrefix + UInt8.ofNat l) input =
        (decodeSize (kindPrefix + UInt8.ofNat l) input prefixMask).map fun r => (mk r.1, r.2))
    (size : Nat) {data rest : List UInt8} {offset : Nat}
    (h : data.drop offset = sizeAndPrefixIterator size kindPrefix prefixMask ++ rest) :
    NodeHeader.decode ⟨data, offset⟩ =
      .ok (mk size, ⟨data, offset + (sizeAndPrefixIterator size kindPrefix prefixMask).length⟩) := by
  obtain ⟨l, hl, tail, henc⟩ := @sizeAndPrefixIterator_head kindPrefix prefixMask hM size
  rw [henc, List.cons_append] at h
  obtain ⟨-, -, hrest⟩ := drop_eq_cons h
  have hsize := decodeSize_sizeAndPrefixIterator hM (fun l hl => (hfirst l hl).1) size henc hrest
  rw [decode_of_drop h, (hfirst l hl).2, hsize, henc, List.length_cons]
  simp only [Except.map, Nat.add_assoc, Nat.add_comm 1]

/-- A header that `decodeWith` reads with a kind's count is that count's encoding. -/
theorem decodeSize_map_ok {mk : Nat → NodeHeader} (hM : 1 ≤ 255 >>> prefixMask) (hM' : 255 >>> prefixMask < 256)
    (hencode : ∀ n, (mk n).encode = sizeAndPrefixIterator n kindPrefix prefixMask) {first : UInt8}
    (hfirst : kindPrefix + UInt8.ofNat (first &&& UInt8.ofNat (255 >>> prefixMask)).toNat = first)
    {data : List UInt8} {offset : Nat} {header : NodeHeader} {input' : ByteSliceInput}
    (h : (decodeSize first ⟨data, offset⟩ prefixMask).map (fun r => (mk r.1, r.2)) = .ok (header, input')) :
    input'.data = data ∧ first :: data.drop offset = header.encode ++ data.drop input'.offset := by
  obtain ⟨⟨n, input''⟩, hsize, hmk⟩ := map_eq_ok h
  simp only [Prod.mk.injEq] at hmk
  obtain ⟨rfl, rfl⟩ := hmk
  rw [hencode]
  exact decodeSize_ok hM hM' hfirst hsize

end Kind

/-! ### The first byte of each kind

Which branch of `decodeWith` each kind's first bytes take, decided over the values of the count's bits, and that a
byte which takes a kind's branch is that kind's prefix plus its low bits, decided over all bytes. -/

theorem leaf_first (l : Nat) (hl : l ≤ 255 >>> 2) :
    ((leafPrefixMask + UInt8.ofNat l) &&& UInt8.ofNat (255 >>> 2)).toNat = l ∧
    ∀ input, NodeHeader.decodeWith (leafPrefixMask + UInt8.ofNat l) input =
      (decodeSize (leafPrefixMask + UInt8.ofNat l) input 2).map fun r => (.leaf r.1, r.2) := by
  have hbits : ∀ l ≤ 255 >>> 2, ((leafPrefixMask + UInt8.ofNat l) &&& UInt8.ofNat (255 >>> 2)).toNat = l ∧
      leafPrefixMask + UInt8.ofNat l ≠ emptyTrie ∧
      (leafPrefixMask + UInt8.ofNat l) &&& ((0b11 : UInt8) <<< 6) = leafPrefixMask := by decide
  obtain ⟨hlow, h₀, h₁⟩ := hbits l hl
  refine ⟨hlow, fun input => ?_⟩
  rw [NodeHeader.decodeWith, if_neg h₀, if_pos h₁]

theorem branchWith_first (l : Nat) (hl : l ≤ 255 >>> 2) :
    ((branchWithMask + UInt8.ofNat l) &&& UInt8.ofNat (255 >>> 2)).toNat = l ∧
    ∀ input, NodeHeader.decodeWith (branchWithMask + UInt8.ofNat l) input =
      (decodeSize (branchWithMask + UInt8.ofNat l) input 2).map fun r => (.branch true r.1, r.2) := by
  have hbits : ∀ l ≤ 255 >>> 2, ((branchWithMask + UInt8.ofNat l) &&& UInt8.ofNat (255 >>> 2)).toNat = l ∧
      branchWithMask + UInt8.ofNat l ≠ emptyTrie ∧
      (branchWithMask + UInt8.ofNat l) &&& ((0b11 : UInt8) <<< 6) ≠ leafPrefixMask ∧
      (branchWithMask + UInt8.ofNat l) &&& ((0b11 : UInt8) <<< 6) = branchWithMask := by decide
  obtain ⟨hlow, h₀, h₁, h₂⟩ := hbits l hl
  refine ⟨hlow, fun input => ?_⟩
  rw [NodeHeader.decodeWith, if_neg h₀, if_neg h₁, if_pos h₂]

theorem branchWithout_first (l : Nat) (hl : l ≤ 255 >>> 2) :
    ((branchWithoutMask + UInt8.ofNat l) &&& UInt8.ofNat (255 >>> 2)).toNat = l ∧
    ∀ input, NodeHeader.decodeWith (branchWithoutMask + UInt8.ofNat l) input =
      (decodeSize (branchWithoutMask + UInt8.ofNat l) input 2).map fun r => (.branch false r.1, r.2) := by
  have hbits : ∀ l ≤ 255 >>> 2, ((branchWithoutMask + UInt8.ofNat l) &&& UInt8.ofNat (255 >>> 2)).toNat = l ∧
      branchWithoutMask + UInt8.ofNat l ≠ emptyTrie ∧
      (branchWithoutMask + UInt8.ofNat l) &&& ((0b11 : UInt8) <<< 6) ≠ leafPrefixMask ∧
      (branchWithoutMask + UInt8.ofNat l) &&& ((0b11 : UInt8) <<< 6) ≠ branchWithMask ∧
      (branchWithoutMask + UInt8.ofNat l) &&& ((0b11 : UInt8) <<< 6) = branchWithoutMask := by decide
  obtain ⟨hlow, h₀, h₁, h₂, h₃⟩ := hbits l hl
  refine ⟨hlow, fun input => ?_⟩
  rw [NodeHeader.decodeWith, if_neg h₀, if_neg h₁, if_neg h₂, if_pos h₃]

theorem hashedValueLeaf_first (l : Nat) (hl : l ≤ 255 >>> 3) :
    ((altHashingLeafPrefixMask + UInt8.ofNat l) &&& UInt8.ofNat (255 >>> 3)).toNat = l ∧
    ∀ input, NodeHeader.decodeWith (altHashingLeafPrefixMask + UInt8.ofNat l) input =
      (decodeSize (altHashingLeafPrefixMask + UInt8.ofNat l) input 3).map fun r => (.hashedValueLeaf r.1, r.2) := by
  have hbits : ∀ l ≤ 255 >>> 3, ((altHashingLeafPrefixMask + UInt8.ofNat l) &&& UInt8.ofNat (255 >>> 3)).toNat = l ∧
      altHashingLeafPrefixMask + UInt8.ofNat l ≠ emptyTrie ∧
      (altHashingLeafPrefixMask + UInt8.ofNat l) &&& ((0b11 : UInt8) <<< 6) ≠ leafPrefixMask ∧
      (altHashingLeafPrefixMask + UInt8.ofNat l) &&& ((0b11 : UInt8) <<< 6) ≠ branchWithMask ∧
      (altHashingLeafPrefixMask + UInt8.ofNat l) &&& ((0b11 : UInt8) <<< 6) ≠ branchWithoutMask ∧
      (altHashingLeafPrefixMask + UInt8.ofNat l) &&& ((0b111 : UInt8) <<< 5) = altHashingLeafPrefixMask := by decide
  obtain ⟨hlow, h₀, h₁, h₂, h₃, h₄⟩ := hbits l hl
  refine ⟨hlow, fun input => ?_⟩
  rw [NodeHeader.decodeWith, if_neg h₀, if_neg h₁, if_neg h₂, if_neg h₃, if_pos h₄]

theorem hashedValueBranch_first (l : Nat) (hl : l ≤ 255 >>> 4) :
    ((altHashingBranchWithMask + UInt8.ofNat l) &&& UInt8.ofNat (255 >>> 4)).toNat = l ∧
    ∀ input, NodeHeader.decodeWith (altHashingBranchWithMask + UInt8.ofNat l) input =
      (decodeSize (altHashingBranchWithMask + UInt8.ofNat l) input 4).map fun r => (.hashedValueBranch r.1, r.2) := by
  have hbits : ∀ l ≤ 255 >>> 4, ((altHashingBranchWithMask + UInt8.ofNat l) &&& UInt8.ofNat (255 >>> 4)).toNat = l ∧
      altHashingBranchWithMask + UInt8.ofNat l ≠ emptyTrie ∧
      (altHashingBranchWithMask + UInt8.ofNat l) &&& ((0b11 : UInt8) <<< 6) ≠ leafPrefixMask ∧
      (altHashingBranchWithMask + UInt8.ofNat l) &&& ((0b11 : UInt8) <<< 6) ≠ branchWithMask ∧
      (altHashingBranchWithMask + UInt8.ofNat l) &&& ((0b11 : UInt8) <<< 6) ≠ branchWithoutMask ∧
      (altHashingBranchWithMask + UInt8.ofNat l) &&& ((0b111 : UInt8) <<< 5) ≠ altHashingLeafPrefixMask ∧
      (altHashingBranchWithMask + UInt8.ofNat l) &&& ((0b1111 : UInt8) <<< 4) = altHashingBranchWithMask := by
    decide
  obtain ⟨hlow, h₀, h₁, h₂, h₃, h₄, h₅⟩ := hbits l hl
  refine ⟨hlow, fun input => ?_⟩
  rw [NodeHeader.decodeWith, if_neg h₀, if_neg h₁, if_neg h₂, if_neg h₃, if_neg h₄, if_pos h₅]

/-- A byte is its bits outside a mask plus its bits under it: the two parts share no bit, so nothing carries. -/
theorem and_not_add_and (a m : UInt8) : (a &&& ~~~m) + (a &&& m) = a := by
  apply UInt8.toBitVec_inj.mp
  have hdisj : (a.toBitVec &&& ~~~m.toBitVec) &&& (a.toBitVec &&& m.toBitVec) = 0#8 := by
    ext i
    simp only [BitVec.getElem_and, BitVec.getElem_not, BitVec.getElem_zero]
    cases a.toBitVec[i] <;> cases m.toBitVec[i] <;> rfl
  rw [UInt8.toBitVec_add, UInt8.toBitVec_and, UInt8.toBitVec_and, UInt8.toBitVec_not,
    BitVec.add_eq_or_of_and_eq_zero _ _ hdisj, ← BitVec.and_or_distrib_left, BitVec.not_or_self,
    BitVec.and_allOnes]

/-- A first byte whose high bits are a prefix is the prefix plus the size in its low bits. -/
theorem recovers_of_mask {hi lo mask : UInt8} (hmask : hi = ~~~lo) :
    ∀ i : UInt8, i &&& hi = mask → mask + UInt8.ofNat (i &&& lo).toNat = i := by
  intro i h
  rw [UInt8.ofNat_toNat, ← h, hmask]
  exact and_not_add_and i lo

theorem leaf_recovers : ∀ i : UInt8, i &&& ((0b11 : UInt8) <<< 6) = leafPrefixMask →
    leafPrefixMask + UInt8.ofNat (i &&& UInt8.ofNat (255 >>> 2)).toNat = i :=
  recovers_of_mask (by decide)

theorem branchWith_recovers : ∀ i : UInt8, i &&& ((0b11 : UInt8) <<< 6) = branchWithMask →
    branchWithMask + UInt8.ofNat (i &&& UInt8.ofNat (255 >>> 2)).toNat = i :=
  recovers_of_mask (by decide)

theorem branchWithout_recovers : ∀ i : UInt8, i &&& ((0b11 : UInt8) <<< 6) = branchWithoutMask →
    branchWithoutMask + UInt8.ofNat (i &&& UInt8.ofNat (255 >>> 2)).toNat = i :=
  recovers_of_mask (by decide)

theorem hashedValueLeaf_recovers : ∀ i : UInt8, i &&& ((0b111 : UInt8) <<< 5) = altHashingLeafPrefixMask →
    altHashingLeafPrefixMask + UInt8.ofNat (i &&& UInt8.ofNat (255 >>> 3)).toNat = i :=
  recovers_of_mask (by decide)

theorem hashedValueBranch_recovers : ∀ i : UInt8, i &&& ((0b1111 : UInt8) <<< 4) = altHashingBranchWithMask →
    altHashingBranchWithMask + UInt8.ofNat (i &&& UInt8.ofNat (255 >>> 4)).toNat = i :=
  recovers_of_mask (by decide)

/-! ### Round trip -/

/-- `decode` reads back the header `encode` writes, whatever follows it, and consumes exactly its bytes. -/
theorem decode_encode (header : NodeHeader) {data rest : List UInt8} {offset : Nat}
    (h : data.drop offset = header.encode ++ rest) :
    NodeHeader.decode ⟨data, offset⟩ = .ok (header, ⟨data, offset + header.encode.length⟩) := by
  cases header with
  | null =>
    rw [decode_of_drop h]
    rfl
  | branch hasValue n =>
    cases hasValue with
    | true => exact decode_sizeAndPrefixIterator (by decide) branchWith_first n h
    | false => exact decode_sizeAndPrefixIterator (by decide) branchWithout_first n h
  | leaf n => exact decode_sizeAndPrefixIterator (by decide) leaf_first n h
  | hashedValueBranch n => exact decode_sizeAndPrefixIterator (by decide) hashedValueBranch_first n h
  | hashedValueLeaf n => exact decode_sizeAndPrefixIterator (by decide) hashedValueLeaf_first n h

theorem decodeWith_ok {i : UInt8} {data : List UInt8} {offset : Nat} {header : NodeHeader}
    {input' : ByteSliceInput} (h : NodeHeader.decodeWith i ⟨data, offset⟩ = .ok (header, input')) :
    input'.data = data ∧ i :: data.drop offset = header.encode ++ data.drop input'.offset := by
  unfold NodeHeader.decodeWith at h
  split_ifs at h with h₀ h₁ h₂ h₃ h₄ h₅
  · cases h
    subst h₀
    exact ⟨rfl, rfl⟩
  · exact decodeSize_map_ok (by decide) (by decide) (fun _ => rfl) (leaf_recovers i h₁) h
  · exact decodeSize_map_ok (by decide) (by decide) (fun _ => rfl) (branchWith_recovers i h₂) h
  · exact decodeSize_map_ok (by decide) (by decide) (fun _ => rfl) (branchWithout_recovers i h₃) h
  · exact decodeSize_map_ok (by decide) (by decide) (fun _ => rfl) (hashedValueLeaf_recovers i h₄) h
  · exact decodeSize_map_ok (by decide) (by decide) (fun _ => rfl) (hashedValueBranch_recovers i h₅) h

/-- What `decode` accepts is the encoding of the header it returns: no header has a second encoding. -/
theorem encode_of_decode {input input' : ByteSliceInput} {header : NodeHeader}
    (h : NodeHeader.decode input = .ok (header, input')) :
    input'.data = input.data ∧ input.data.drop input.offset = header.encode ++ input.data.drop input'.offset := by
  unfold NodeHeader.decode at h
  split at h
  · cases h
  · rename_i i input₁ hread
    obtain ⟨rfl, hcons⟩ := readByte_ok hread
    rw [hcons]
    exact decodeWith_ok h

end CoreChain.Trie

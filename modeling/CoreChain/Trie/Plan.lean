import CoreChain.Trie.Codec
import Mathlib

/-!
# Decoding an encoded node

`decodePlan` reads back every node `leafNode` and `branchNodeNibbled` write, when the hash is at least one byte
long: the plan it returns, read against the bytes, is the node that was encoded (`decodePlan_leafNode`,
`decodePlan_branchNodeNibbled`). A node is well formed when its key is packed (`PackedKey`), its value is short
enough for its length prefix or a hash (`Value.Valid`), and each child is a hash or a shorter inline node
(`ChildReference.Valid`).

Each part of a node is read by its own lemma, from any offset and whatever follows it: the key, the value, the
bitmap and the children.
-/

namespace CoreChain.Trie

/-! ## Well-formed nodes -/

/-- A partial key packed two nibbles a byte, with the half byte of padding zero when the count is odd. -/
structure PackedKey where
  bytes : List UInt8
  nibbleCount : Nat
  length_eq : bytes.length = divCeil nibbleCount nibblePerByte
  padding_zero : numberPadding nibbleCount ≠ 0 → padLeft (bytes.headD 0) = 0

/-- A value whose length fits its `u32` prefix, or a hash. -/
def Value.Valid (hashLength : Nat) : Value → Prop
  | .inline bytes => bytes.length < 2 ^ 32
  | .node hash => hash.length = hashLength

/-- A child that is a hash, or an inline node shorter than a hash in a buffer of a hash's size. -/
def ChildReference.Valid (hashLength : Nat) : ChildReference → Prop
  | .hash h => h.length = hashLength
  | .inline inlineData len => inlineData.length = hashLength ∧ len < hashLength

/-- Whether a value is a hash, as `leaf_node` and `branch_node_nibbled` test it with `matches!`. -/
def Value.isNode : Value → Bool
  | .node _ => true
  | .inline _ => false

/-- The handle a decoded node has for a child. -/
def ChildReference.handle : ChildReference → NodeHandle
  | .hash h => .hash h
  | .inline inlineData len => .inline (inlineData.take len)

/-- The bytes a child's slice holds after its length. -/
def ChildReference.payload : ChildReference → List UInt8
  | .hash h => h
  | .inline inlineData len => inlineData.take len

/-! ## Reading from an input -/

theorem take_of_drop {data xs rest : List UInt8} {offset : Nat} (hoff : offset ≤ data.length)
    (h : data.drop offset = xs ++ rest) :
    ByteSliceInput.take ⟨data, offset⟩ xs.length = .ok ((offset, offset + xs.length), ⟨data, offset + xs.length⟩) := by
  have hlen : (data.drop offset).length = xs.length + rest.length := by rw [h, List.length_append]
  rw [List.length_drop] at hlen
  unfold ByteSliceInput.take
  rw [if_neg (by simp only; omega)]

theorem drop_add_of_drop {data xs rest : List UInt8} {offset : Nat} (h : data.drop offset = xs ++ rest) :
    data.drop (offset + xs.length) = rest := by
  rw [← List.drop_drop, h, List.drop_left]

theorem add_le_of_drop {data xs rest : List UInt8} {offset : Nat} (hoff : offset ≤ data.length)
    (h : data.drop offset = xs ++ rest) : offset + xs.length ≤ data.length := by
  have hlen : (data.drop offset).length = xs.length + rest.length := by rw [h, List.length_append]
  rw [List.length_drop] at hlen
  omega

theorem slice_of_drop {data xs rest : List UInt8} {offset : Nat} (h : data.drop offset = xs ++ rest) :
    slice data (offset, offset + xs.length) = xs := by
  unfold slice
  rw [h, Nat.add_sub_cancel_left, List.take_left]

section Lawful

variable {c : CompactCodec}

theorem decodeCompact_of_drop (hc : c.Lawful) {data rest : List UInt8} {offset : Nat} {n : UInt32}
    (h : data.drop offset = c.encode n ++ rest) :
    ByteSliceInput.decodeCompact c ⟨data, offset⟩ = .ok (n.toNat, ⟨data, offset + (c.encode n).length⟩) := by
  have hlen : (data.drop offset).length = (c.encode n).length + rest.length := by rw [h, List.length_append]
  have hne := List.length_pos_of_ne_nil (hc.encode_ne_nil n)
  rw [List.length_drop] at hlen
  unfold ByteSliceInput.decodeCompact
  simp only [h, hc.decode_encode]
  congr 3
  omega

/-- A length and the bytes after it: the compact length reads, then the range of the bytes. -/
theorem lengthPrefixed_of_drop (hc : c.Lawful) {payload data rest : List UInt8} {offset : Nat}
    (hn : payload.length < 2 ^ 32) (hoff : offset ≤ data.length)
    (h : data.drop offset = c.encode (UInt32.ofNat payload.length) ++ payload ++ rest) :
    ByteSliceInput.decodeCompact c ⟨data, offset⟩ =
        .ok (payload.length, ⟨data, offset + (c.encode (UInt32.ofNat payload.length)).length⟩) ∧
      ByteSliceInput.take ⟨data, offset + (c.encode (UInt32.ofNat payload.length)).length⟩ payload.length =
        .ok ((offset + (c.encode (UInt32.ofNat payload.length)).length,
            offset + (c.encode (UInt32.ofNat payload.length)).length + payload.length),
          ⟨data, offset + (c.encode (UInt32.ofNat payload.length)).length + payload.length⟩) ∧
      slice data (offset + (c.encode (UInt32.ofNat payload.length)).length,
          offset + (c.encode (UInt32.ofNat payload.length)).length + payload.length) = payload ∧
      data.drop (offset + (c.encode (UInt32.ofNat payload.length)).length + payload.length) = rest ∧
      offset + (c.encode (UInt32.ofNat payload.length)).length + payload.length ≤ data.length := by
  rw [List.append_assoc] at h
  have hcount : (UInt32.ofNat payload.length).toNat = payload.length := by
    rw [UInt32.toNat_ofNat']
    exact Nat.mod_eq_of_lt hn
  have hpayload := drop_add_of_drop h
  have hoff' := add_le_of_drop hoff h
  refine ⟨?_, take_of_drop hoff' hpayload, slice_of_drop hpayload, drop_add_of_drop hpayload,
    add_le_of_drop hoff' hpayload⟩
  rw [decodeCompact_of_drop hc h, hcount]

variable {hashLength : Nat}

theorem decodeValue_node {hash data rest : List UInt8} {offset : Nat} (hv : hash.length = hashLength)
    (hoff : offset ≤ data.length) (h : data.drop offset = hash ++ rest) :
    decodeValue c hashLength true ⟨data, offset⟩ =
      .ok (.node (offset, offset + hash.length), ⟨data, offset + hash.length⟩) := by
  unfold decodeValue
  rw [← hv]
  simp only [take_of_drop hoff h, Except.mapError, bind, Except.bind, if_true]
  rfl

theorem decodeValue_inline (hc : c.Lawful) {value data rest : List UInt8} {offset : Nat} (hv : value.length < 2 ^ 32)
    (hoff : offset ≤ data.length) (h : data.drop offset = c.encode (UInt32.ofNat value.length) ++ value ++ rest) :
    decodeValue c hashLength false ⟨data, offset⟩ =
      .ok (.inline (offset + (c.encode (UInt32.ofNat value.length)).length,
          offset + (c.encode (UInt32.ofNat value.length)).length + value.length),
        ⟨data, offset + (c.encode (UInt32.ofNat value.length)).length + value.length⟩) := by
  obtain ⟨hcount, htake, -, -, -⟩ := lengthPrefixed_of_drop hc hv hoff h
  unfold decodeValue
  simp only [hcount, htake, Except.mapError, bind, Except.bind, Bool.false_eq_true, if_false]
  rfl

/-- The value of a node reads back from its bytes, as the value. -/
theorem decodeValue_encode (hc : c.Lawful) {value : Value} (hv : value.Valid hashLength)
    {data rest : List UInt8} {offset : Nat} (hoff : offset ≤ data.length)
    (h : data.drop offset = value.encode c ++ rest) :
    ∃ plan, decodeValue c hashLength value.isNode ⟨data, offset⟩ =
      .ok (plan, ⟨data, offset + (value.encode c).length⟩) ∧ plan.build data = value := by
  cases value with
  | inline bytes =>
    rw [Value.encode] at h
    rw [Value.encode, List.length_append, ← Nat.add_assoc]
    refine ⟨_, decodeValue_inline hc hv hoff h, ?_⟩
    rw [List.append_assoc] at h
    simp only [ValuePlan.build, Value.inline.injEq]
    exact slice_of_drop (drop_add_of_drop h)
  | node hash =>
    rw [Value.encode] at h ⊢
    refine ⟨_, decodeValue_node hv hoff h, ?_⟩
    simp only [ValuePlan.build, Value.node.injEq]
    exact slice_of_drop h

/-- The value of a branch reads back from its bytes, none when it has none. -/
theorem decodeBranchValue_encode (hc : c.Lawful) {value : Option Value}
    (hv : ∀ v, value = some v → v.Valid hashLength) {data rest : List UInt8} {offset : Nat}
    (hoff : offset ≤ data.length) (h : data.drop offset = (value.map (Value.encode c)).getD [] ++ rest) :
    ∃ plan, decodeBranchValue c hashLength value.isSome ((value.map Value.isNode).getD false) ⟨data, offset⟩ =
      .ok (plan, ⟨data, offset + ((value.map (Value.encode c)).getD []).length⟩) ∧
      plan.map (ValuePlan.build data) = value := by
  cases value with
  | none =>
    refine ⟨none, ?_, rfl⟩
    simp only [decodeBranchValue, Option.isSome_none, Bool.false_eq_true, if_false, Option.map_none,
      Option.getD_none, List.length_nil, Nat.add_zero]
    rfl
  | some v =>
    simp only [Option.map_some, Option.getD_some] at h ⊢
    obtain ⟨plan, hdec, hbuild⟩ := decodeValue_encode hc (hv v rfl) hoff h
    refine ⟨some plan, ?_, by rw [Option.map_some, hbuild]⟩
    simp only [decodeBranchValue, Option.isSome_some, if_true, hdec, bind, Except.bind, pure, Except.pure]

end Lawful

/-! ## The key -/

/-- The checks after the header pass on a packed key, and its range is read. -/
theorem decodePartial_encode (key : PackedKey) {data rest : List UInt8} {offset : Nat}
    (hoff : offset ≤ data.length) (h : data.drop offset = key.bytes ++ rest) (hne : key.bytes ++ rest ≠ []) :
    decodePartial data key.nibbleCount ⟨data, offset⟩ =
      .ok (⟨(offset, offset + key.bytes.length), numberPadding key.nibbleCount⟩, ⟨data, offset + key.bytes.length⟩) := by
  have hlt : offset < data.length := by
    have hlen : (data.drop offset).length = (key.bytes ++ rest).length := by rw [h]
    have hpos := List.length_pos_of_ne_nil hne
    rw [List.length_drop] at hlen
    omega
  -- the padding half byte is the high half of the key's first byte
  have hpad : ¬((key.nibbleCount % nibblePerByte != 0) && padLeft (data.getD offset 0) != 0) = true := by
    by_cases hodd : numberPadding key.nibbleCount = 0
    · simp only [numberPadding] at hodd
      simp [hodd]
    · obtain ⟨b, bs, hb⟩ : ∃ b bs, key.bytes = b :: bs := by
        have hlen := key.length_eq
        unfold numberPadding at hodd
        unfold divCeil at hlen
        rw [if_pos (by omega)] at hlen
        cases hk : key.bytes with
        | nil => rw [hk] at hlen; simp at hlen
        | cons b bs => exact ⟨b, bs, rfl⟩
      have hzero := key.padding_zero hodd
      rw [hb, List.headD_cons] at hzero
      rw [hb] at h
      rw [(drop_eq_cons h).2.1, hzero]
      simp
  unfold decodePartial
  rw [← key.length_eq]
  simp only [Nat.not_lt.mpr hlt, if_false, hpad, take_of_drop (Nat.le_of_lt hlt) h, Except.mapError, bind,
    Except.bind, pure, Except.pure, Bool.false_eq_true]

/-! ## The bitmap -/

/-- From a cursor at bit `k`, the loop keeps the bits below `k` and sets bit `k + j` to the `j`-th flag. -/
theorem testBit_bitmapLoop : ∀ (vs : List Bool) (bitmap k : Nat), k + vs.length ≤ 16 → bitmap < 2 ^ k →
    ∀ i, (bitmapLoop vs bitmap (2 ^ k % 2 ^ 16)).testBit i = if i < k then bitmap.testBit i else vs.getD (i - k) false
  | [], bitmap, k, _, hb, i => by
    simp only [bitmapLoop, List.getD_nil]
    split_ifs with hi
    · rfl
    · exact Nat.testBit_lt_two_pow (Nat.lt_of_lt_of_le hb (Nat.pow_le_pow_right (by decide) (by omega)))
  | v :: vs, bitmap, k, hk, hb, i => by
    simp only [List.length_cons] at hk
    have hcursor : 2 ^ k % 2 ^ 16 = 2 ^ k := Nat.mod_eq_of_lt (Nat.pow_lt_pow_right (by decide) (by omega))
    have hnext : (2 ^ k <<< 1) % 2 ^ 16 = 2 ^ (k + 1) % 2 ^ 16 := by
      rw [Nat.shiftLeft_eq, Nat.pow_succ 2 k, Nat.pow_one]
    have hk' : 2 ^ k < 2 ^ (k + 1) := Nat.pow_lt_pow_right (by decide) (by omega)
    have hb' : (if v then bitmap ||| 2 ^ k else bitmap) < 2 ^ (k + 1) := by
      split_ifs
      · exact Nat.or_lt_two_pow (Nat.lt_trans hb hk') hk'
      · exact Nat.lt_trans hb hk'
    have hbit : bitmap.testBit k = false := Nat.testBit_lt_two_pow hb
    rw [bitmapLoop, hcursor, hnext, testBit_bitmapLoop vs _ (k + 1) (by omega) hb' i]
    -- bit `k` is the first flag; the bits above it are the other flags
    rcases Nat.lt_trichotomy i k with hi | rfl | hi
    · rw [if_pos (by omega), if_pos hi]
      split_ifs
      · rw [Nat.testBit_or, Nat.testBit_two_pow, decide_eq_false (by omega), Bool.or_false]
      · rfl
    · rw [if_pos (by omega), if_neg (Nat.lt_irrefl _), Nat.sub_self, List.getD_cons_zero]
      split_ifs with hv
      · rw [Nat.testBit_or, Nat.testBit_two_pow_self, Bool.or_true, hv]
      · rw [hbit]
        simpa using hv
    · rw [if_neg (by omega), if_neg (by omega)]
      obtain ⟨d, rfl⟩ : ∃ d, i = k + 1 + d := ⟨i - (k + 1), by omega⟩
      rw [show k + 1 + d - k = d + 1 by omega, List.getD_cons_succ, Nat.add_sub_cancel_left]

theorem bitmapLoop_lt : ∀ (vs : List Bool) (bitmap cursor : Nat), bitmap < 2 ^ 16 → cursor < 2 ^ 16 →
    bitmapLoop vs bitmap cursor < 2 ^ 16
  | [], _, _, hb, _ => hb
  | v :: vs, bitmap, cursor, hb, hcur => by
    rw [bitmapLoop]
    apply bitmapLoop_lt vs _ _ _ (Nat.mod_lt _ (by decide))
    split_ifs
    · exact Nat.or_lt_two_pow hb hcur
    · exact hb

/-- The bitmap of a branch's slots reads back, and its bit `i` says whether slot `i` has a child. -/
theorem decode_encode_bitmap (flags : List Bool) (hlen : flags.length ≤ 16) (hsome : true ∈ flags) :
    ∃ bitmap, Bitmap.decode (Bitmap.encode flags).1 (Bitmap.encode flags).2 = .ok bitmap ∧
      ∀ i, bitmap.valueAt i = flags.getD i false := by
  have hbits := testBit_bitmapLoop flags 0 0 (by omega) (by decide)
  have hone : (2 : Nat) ^ 0 % 2 ^ 16 = 1 := by decide
  simp only [hone, Nat.not_lt_zero, if_false, Nat.sub_zero] at hbits
  have hlt : bitmapLoop flags 0 1 < 2 ^ 16 := bitmapLoop_lt flags 0 1 (by decide) (by decide)
  -- the two bytes are the low and the high byte of the `u16`
  have hvalue : (UInt8.ofNat (bitmapLoop flags 0 1 % 256)).toNat +
      256 * (UInt8.ofNat (bitmapLoop flags 0 1 / 256)).toNat = bitmapLoop flags 0 1 := by
    simp only [UInt8.toNat_ofNat', Nat.reducePow]
    omega
  have hne : bitmapLoop flags 0 1 ≠ 0 := by
    obtain ⟨j, hj, hget⟩ := List.mem_iff_getElem.mp hsome
    intro h0
    have hbit := hbits j
    rw [h0, Nat.zero_testBit, List.getD_eq_getElem?_getD, List.getElem?_eq_getElem hj, hget] at hbit
    cases hbit
  refine ⟨⟨bitmapLoop flags 0 1⟩, ?_, fun i => ?_⟩
  · unfold Bitmap.decode Bitmap.encode
    simp only [hvalue]
    rw [if_neg hne]
  · unfold Bitmap.valueAt
    rw [Nat.one_shiftLeft, Nat.and_two_pow, hbits i]
    cases flags.getD i false <;> simp

/-! ## The children -/

section Children

variable {c : CompactCodec} {hashLength : Nat}

theorem ChildReference.encode_eq {r : ChildReference} (hr : r.Valid hashLength) :
    r.encode c = c.encode (UInt32.ofNat r.payload.length) ++ r.payload := by
  cases r with
  | hash h => rfl
  | inline inlineData len =>
    obtain ⟨hdata, hlen⟩ := hr
    simp only [ChildReference.encode, ChildReference.payload, List.length_take]
    rw [Nat.min_eq_left (by omega)]

/-- A child's length tells a hash from an inline node. -/
theorem ChildReference.handle_eq {r : ChildReference} (hr : r.Valid hashLength) :
    r.handle = if r.payload.length = hashLength then .hash r.payload else .inline r.payload := by
  cases r with
  | hash h =>
    have hlen : h.length = hashLength := hr
    simp [ChildReference.handle, ChildReference.payload, hlen]
  | inline inlineData len =>
    obtain ⟨hdata, hlen⟩ := hr
    have hshort : min len inlineData.length ≠ hashLength := by omega
    simp [ChildReference.handle, ChildReference.payload, hshort]

theorem ChildReference.payload_length_lt {r : ChildReference} (hr : r.Valid hashLength) :
    r.payload.length ≤ hashLength := by
  cases r with
  | hash h => exact Nat.le_of_eq hr
  | inline inlineData len =>
    obtain ⟨hdata, hlen⟩ := hr
    simp only [ChildReference.payload, List.length_take]
    omega

/-- The loop over the slots reads back the children the bitmap announces, each as its handle. -/
theorem decodeChildren_encode (hc : c.Lawful) (hL : hashLength < 2 ^ 32) (bitmap : Bitmap) :
    ∀ (children : List (Option ChildReference)) (k : Nat) {data rest : List UInt8} {offset : Nat},
      (∀ j, bitmap.valueAt (k + j) = (children.getD j none).isSome) →
      (∀ r, some r ∈ children → r.Valid hashLength) →
      offset ≤ data.length → data.drop offset = children.flatMap (encodeChild c) ++ rest →
      ∃ plans, decodeChildren c hashLength bitmap (List.range' k children.length) ⟨data, offset⟩ =
          .ok (plans, ⟨data, offset + (children.flatMap (encodeChild c)).length⟩) ∧
        plans.map (Option.map (NodeHandlePlan.build data)) = children.map (Option.map ChildReference.handle)
  | [], _, _, _, _, _, _, _, _ => ⟨[], rfl, rfl⟩
  | none :: children, k, data, rest, offset, hbits, hvalid, hoff, h => by
    -- an empty slot: its bit is clear and it has no bytes
    have hk : bitmap.valueAt k = false := by simpa using hbits 0
    have hbits' : ∀ j, bitmap.valueAt (k + 1 + j) = (children.getD j none).isSome := by
      intro j
      rw [Nat.add_assoc, Nat.add_comm 1 j, hbits (j + 1), List.getD_cons_succ]
    rw [List.flatMap_cons, encodeChild, List.nil_append] at h
    obtain ⟨plans, hdec, hbuild⟩ := decodeChildren_encode hc hL bitmap children (k + 1) hbits'
      (fun r hr => hvalid r (List.mem_cons_of_mem _ hr)) hoff h
    refine ⟨none :: plans, ?_, ?_⟩
    · simp only [List.length_cons, List.range'_succ, decodeChildren, hk, Bool.false_eq_true, if_false, hdec, bind,
        Except.bind, pure, Except.pure, List.flatMap_cons, encodeChild, List.nil_append]
    · simp only [List.map_cons, Option.map_none, hbuild]
  | some r :: children, k, data, rest, offset, hbits, hvalid, hoff, h => by
    -- a child: its bit is set, and its length and bytes follow
    have hk : bitmap.valueAt k = true := by simpa using hbits 0
    have hbits' : ∀ j, bitmap.valueAt (k + 1 + j) = (children.getD j none).isSome := by
      intro j
      rw [Nat.add_assoc, Nat.add_comm 1 j, hbits (j + 1), List.getD_cons_succ]
    have hr := hvalid r List.mem_cons_self
    have hn : r.payload.length < 2 ^ 32 := Nat.lt_of_le_of_lt (ChildReference.payload_length_lt hr) hL
    rw [List.flatMap_cons, encodeChild, ChildReference.encode_eq hr] at h
    have h' : data.drop offset =
        c.encode (UInt32.ofNat r.payload.length) ++ r.payload ++ (children.flatMap (encodeChild c) ++ rest) := by
      rw [h]
      simp only [List.append_assoc]
    obtain ⟨hcount, htake, hslice, hrest, hoff'⟩ := lengthPrefixed_of_drop hc hn hoff h'
    obtain ⟨plans, hdec, hbuild⟩ := decodeChildren_encode hc hL bitmap children (k + 1) hbits'
      (fun r hr => hvalid r (List.mem_cons_of_mem _ hr)) hoff' hrest
    have hlen : offset + ((some r :: children).flatMap (encodeChild c)).length =
        offset + (c.encode (UInt32.ofNat r.payload.length)).length + r.payload.length +
          (children.flatMap (encodeChild c)).length := by
      simp only [List.flatMap_cons, encodeChild, ChildReference.encode_eq hr, List.length_append]
      omega
    refine ⟨some (if r.payload.length = hashLength
        then .hash (offset + (c.encode (UInt32.ofNat r.payload.length)).length,
          offset + (c.encode (UInt32.ofNat r.payload.length)).length + r.payload.length)
        else .inline (offset + (c.encode (UInt32.ofNat r.payload.length)).length,
          offset + (c.encode (UInt32.ofNat r.payload.length)).length + r.payload.length)) :: plans, ?_, ?_⟩
    · rw [hlen]
      simp only [List.length_cons, List.range'_succ, decodeChildren, hk, if_true, hcount, htake, hdec,
        Except.mapError, bind, Except.bind, pure, Except.pure]
    · simp only [List.map_cons, Option.map_some, hbuild, ChildReference.handle_eq hr]
      split_ifs
      · rw [NodeHandlePlan.build, hslice]
      · rw [NodeHandlePlan.build, hslice]

end Children

/-! ## Nodes -/

section Nodes

variable {c : CompactCodec} {hashLength : Nat}

theorem Value.encode_ne_nil (hc : c.Lawful) (hL : 0 < hashLength) {value : Value} (hv : value.Valid hashLength) :
    value.encode c ≠ [] := by
  cases value with
  | inline bytes =>
    simp only [Value.encode, ne_eq, List.append_eq_nil_iff, not_and]
    exact fun h => absurd h (hc.encode_ne_nil _)
  | node hash =>
    intro h
    have hlen : hash.length = hashLength := hv
    rw [Value.encode] at h
    rw [h, List.length_nil] at hlen
    omega

/-- `leaf_node` writes the header of its kind, the key and the value. -/
theorem leafNode_eq (partialKey : List UInt8) (nibbleCount : Nat) (value : Value) :
    leafNode c partialKey nibbleCount value =
      (if value.isNode then NodeHeader.hashedValueLeaf nibbleCount else .leaf nibbleCount).encode ++ partialKey ++
        value.encode c := by
  cases value <;> rfl

/-- After a leaf's header, `decode_plan` reads the key and the value. -/
theorem decodePlan_of_leaf {data : List UInt8} {header : NodeHeader} {nibbleCount offset : Nat}
    (hkind : header = .leaf nibbleCount ∨ header = .hashedValueLeaf nibbleCount)
    (hheader : NodeHeader.decode ⟨data, 0⟩ = .ok (header, ⟨data, offset⟩)) :
    decodePlan c hashLength data =
      (decodePartial data nibbleCount ⟨data, offset⟩).bind fun r =>
        (decodeValue c hashLength header.containsHashOfValue r.2).bind fun v => .ok (.leaf r.1 v.1) := by
  unfold decodePlan
  rcases hkind with rfl | rfl
  all_goals simp only [ByteSliceInput.new, hheader, Except.mapError, bind, Except.bind, pure, Except.pure]

/-- `decode_plan` reads back every leaf `leaf_node` writes, when a hash is at least a byte long. -/
theorem decodePlan_leafNode (hc : c.Lawful) (hL : 0 < hashLength) (key : PackedKey) (value : Value)
    (hv : value.Valid hashLength) :
    (decodePlan c hashLength (leafNode c key.bytes key.nibbleCount value)).map
        (NodePlan.build (leafNode c key.bytes key.nibbleCount value)) =
      .ok (.leaf (key.bytes, numberPadding key.nibbleCount) value) := by
  generalize hdata : leafNode c key.bytes key.nibbleCount value = data
  rw [leafNode_eq] at hdata
  generalize hheader : (if value.isNode then NodeHeader.hashedValueLeaf key.nibbleCount
    else .leaf key.nibbleCount) = header at hdata
  have hkind : header = .leaf key.nibbleCount ∨ header = .hashedValueLeaf key.nibbleCount := by
    cases value <;> simp [Value.isNode, ← hheader]
  have hcontains : header.containsHashOfValue = value.isNode := by
    cases value <;> simp [Value.isNode, ← hheader, NodeHeader.containsHashOfValue]
  -- the header, then the key, then the value, each from where the one before it ended
  have hfull : data.drop 0 = header.encode ++ (key.bytes ++ value.encode c) := by
    rw [← hdata, List.drop_zero, List.append_assoc]
  have hdecode := decode_encode header hfull
  have hkey : data.drop header.encode.length = key.bytes ++ value.encode c := by
    rw [← hdata, List.append_assoc, List.drop_left]
  have hoff : header.encode.length ≤ data.length := by
    rw [← hdata, List.length_append, List.length_append]
    omega
  have hpartial := decodePartial_encode key hoff hkey (by simp [Value.encode_ne_nil hc hL hv])
  have hrest : data.drop (header.encode.length + key.bytes.length) = value.encode c ++ [] := by
    rw [List.append_nil]
    exact drop_add_of_drop hkey
  obtain ⟨plan, hvalue, hbuild⟩ := decodeValue_encode hc hv (add_le_of_drop hoff hkey) hrest
  rw [Nat.zero_add] at hdecode
  rw [decodePlan_of_leaf hkind hdecode, hpartial]
  simp only [Except.bind, hcontains, hvalue, Except.map, NodePlan.build, NibbleSlicePlan.build, hbuild,
    slice_of_drop hkey]

/-- With a hash of no bytes, a leaf with an empty key and a hashed value is its header alone, and `decode_plan`
refuses it: it wants a byte after the header of every leaf. -/
theorem decodePlan_emptyHash_leaf :
    (Value.node []).Valid 0 ∧ leafNode scaleCompact [] 0 (.node []) = [altHashingLeafPrefixMask] ∧
      decodePlan scaleCompact 0 (leafNode scaleCompact [] 0 (.node [])) = .error .badFormat := by
  have hencode : (NodeHeader.hashedValueLeaf 0).encode = [altHashingLeafPrefixMask] := by
    show sizeAndPrefixIterator 0 altHashingLeafPrefixMask 3 = _
    rw [sizeAndPrefixIterator_of_lt (by decide)]
    rfl
  have hbytes : leafNode scaleCompact [] 0 (.node []) = [altHashingLeafPrefixMask] := by
    rw [leafNode_eq]
    show (NodeHeader.hashedValueLeaf 0).encode ++ [] ++ [] = _
    rw [hencode]
    rfl
  have hheader := decode_encode (.hashedValueLeaf 0)
    (show [altHashingLeafPrefixMask].drop 0 = (NodeHeader.hashedValueLeaf 0).encode ++ [] by rw [hencode]; rfl)
  rw [hencode] at hheader
  refine ⟨rfl, hbytes, ?_⟩
  rw [hbytes, decodePlan_of_leaf (Or.inr rfl) hheader]
  rfl

/-- `branch_node_nibbled` writes the header of its kind, the key, the bitmap, the value and the children. -/
theorem branchNodeNibbled_eq (partialKey : List UInt8) (nibbleCount : Nat) (children : List (Option ChildReference))
    (value : Option Value) :
    branchNodeNibbled c partialKey nibbleCount children value =
      (match value with
        | none => NodeHeader.branch false nibbleCount
        | some v => if v.isNode then .hashedValueBranch nibbleCount else .branch true nibbleCount).encode ++
        partialKey ++ [(Bitmap.encode (children.map Option.isSome)).1, (Bitmap.encode (children.map Option.isSome)).2] ++
        (value.map (Value.encode c)).getD [] ++ children.flatMap (encodeChild c) := by
  cases value with
  | none => rfl
  | some v => cases v <;> rfl

/-- After a branch's header, `decode_plan` reads the key, the bitmap, the value and the children. -/
theorem decodePlan_of_branch {data : List UInt8} {header : NodeHeader} {hasValue : Bool} {nibbleCount offset : Nat}
    (hkind : header = .branch hasValue nibbleCount ∨ header = .hashedValueBranch nibbleCount ∧ hasValue = true)
    (hheader : NodeHeader.decode ⟨data, 0⟩ = .ok (header, ⟨data, offset⟩)) :
    decodePlan c hashLength data =
      (decodePartial data nibbleCount ⟨data, offset⟩).bind fun r =>
        ((r.2.take bitmapLength).mapError Error.decode).bind fun b =>
          ((Bitmap.decode (data.getD b.1.1 0) (data.getD (b.1.1 + 1) 0)).mapError Error.decode).bind fun bitmap =>
            (decodeBranchValue c hashLength hasValue header.containsHashOfValue b.2).bind fun v =>
              (decodeChildren c hashLength bitmap (List.range nibbleLength) v.2).bind fun ch =>
                .ok (.nibbledBranch r.1 v.1 ch.1) := by
  unfold decodePlan
  rcases hkind with rfl | ⟨rfl, rfl⟩
  all_goals simp only [ByteSliceInput.new, hheader, Except.mapError, bind, Except.bind, pure, Except.pure]

/-- `decode_plan` reads back every branch `branch_node_nibbled` writes with sixteen slots and a child. -/
theorem decodePlan_branchNodeNibbled (hc : c.Lawful) (hL : hashLength < 2 ^ 32) (key : PackedKey)
    (children : List (Option ChildReference)) (value : Option Value) (hlen : children.length = nibbleLength)
    (hsome : ∃ r, some r ∈ children) (hchildren : ∀ r, some r ∈ children → r.Valid hashLength)
    (hv : ∀ v, value = some v → v.Valid hashLength) :
    (decodePlan c hashLength (branchNodeNibbled c key.bytes key.nibbleCount children value)).map
        (NodePlan.build (branchNodeNibbled c key.bytes key.nibbleCount children value)) =
      .ok (.nibbledBranch (key.bytes, numberPadding key.nibbleCount) value
        (children.map (Option.map ChildReference.handle))) := by
  generalize hdata : branchNodeNibbled c key.bytes key.nibbleCount children value = data
  rw [branchNodeNibbled_eq] at hdata
  generalize hheader : (match value with
    | none => NodeHeader.branch false key.nibbleCount
    | some v => if v.isNode then .hashedValueBranch key.nibbleCount else .branch true key.nibbleCount) = header at hdata
  have hkind : header = .branch value.isSome key.nibbleCount ∨
      header = .hashedValueBranch key.nibbleCount ∧ value.isSome = true := by
    rcases value with _ | ⟨_ | _⟩ <;> simp [Value.isNode, ← hheader]
  have hcontains : header.containsHashOfValue = (value.map Value.isNode).getD false := by
    rcases value with _ | ⟨_ | _⟩ <;> simp [Value.isNode, ← hheader, NodeHeader.containsHashOfValue]
  generalize hbitmap : Bitmap.encode (children.map Option.isSome) = bytes at hdata
  generalize hvalueBytes : (value.map (Value.encode c)).getD [] = valueBytes at hdata
  -- the header, the key, the two bytes of the bitmap, the value and the children, one after the other
  have hfull : data.drop 0 =
      header.encode ++ (key.bytes ++ ([bytes.1, bytes.2] ++ valueBytes ++ children.flatMap (encodeChild c))) := by
    rw [← hdata, List.drop_zero]
    simp only [List.append_assoc]
  have hdecode := decode_encode header hfull
  have hkey : data.drop header.encode.length =
      key.bytes ++ ([bytes.1, bytes.2] ++ valueBytes ++ children.flatMap (encodeChild c)) := by
    rw [← hdata]
    simp only [List.append_assoc, List.drop_left]
  have hoff : header.encode.length ≤ data.length := by
    rw [← hdata]
    simp only [List.length_append]
    omega
  have hpartial := decodePartial_encode key hoff hkey (by simp)
  have hbytes := drop_add_of_drop hkey
  have hoff₁ := add_le_of_drop hoff hkey
  have hbytes' : data.drop (header.encode.length + key.bytes.length) =
      [bytes.1, bytes.2] ++ (valueBytes ++ children.flatMap (encodeChild c)) := by
    rw [hbytes, List.append_assoc]
  have htake : ByteSliceInput.take ⟨data, header.encode.length + key.bytes.length⟩ bitmapLength =
      .ok ((header.encode.length + key.bytes.length, header.encode.length + key.bytes.length + 2),
        ⟨data, header.encode.length + key.bytes.length + 2⟩) :=
    take_of_drop hoff₁ hbytes'
  obtain ⟨-, hb₀, hb₁⟩ := drop_eq_cons hbytes'
  obtain ⟨-, hb₁', hafter⟩ := drop_eq_cons hb₁
  obtain ⟨bitmap, hdecBitmap, hbits⟩ := decode_encode_bitmap (children.map Option.isSome)
    (by rw [List.length_map, hlen]; decide)
    (by obtain ⟨r, hr⟩ := hsome; exact List.mem_map.mpr ⟨some r, hr, rfl⟩)
  rw [hbitmap] at hdecBitmap
  have hoff₂ : header.encode.length + key.bytes.length + 2 ≤ data.length := add_le_of_drop hoff₁ hbytes'
  have hafter' : data.drop (header.encode.length + key.bytes.length + 2) =
      (value.map (Value.encode c)).getD [] ++ (children.flatMap (encodeChild c) ++ []) := by
    rw [List.append_nil, hvalueBytes]
    exact hafter
  obtain ⟨valuePlan, hvalue, hvalueBuild⟩ := decodeBranchValue_encode hc hv hoff₂ hafter'
  have hbits' : ∀ j, bitmap.valueAt (0 + j) = (children.getD j none).isSome := by
    intro j
    rw [Nat.zero_add, hbits j, List.getD_eq_getElem?_getD, List.getD_eq_getElem?_getD, List.getElem?_map]
    cases children[j]? <;> rfl
  obtain ⟨plans, hchildrenDec, hchildrenBuild⟩ := decodeChildren_encode hc hL bitmap children 0 hbits' hchildren
    (add_le_of_drop hoff₂ hafter') (drop_add_of_drop hafter')
  have hrange : List.range nibbleLength = List.range' 0 children.length := by
    rw [hlen, List.range_eq_range']
  rw [Nat.zero_add] at hdecode
  rw [decodePlan_of_branch hkind hdecode, hpartial]
  simp only [Except.bind, Except.mapError, htake, hb₀, hb₁', hdecBitmap, hcontains,
    hvalue, hrange, hchildrenDec, Except.map, NodePlan.build, NibbleSlicePlan.build, hvalueBuild, hchildrenBuild,
    slice_of_drop hkey]

/-- The node codec reads back what it writes: the header decoder inverts the encoder at any offset, whatever follows,
and accepts only encodings of what it returns; `decode_plan` reads back every well-formed leaf and branch, for a hash of
at least a byte whose length fits a `u32` prefix. -/
theorem nodeCodec_decode_encode (hc : c.Lawful) (hL : 0 < hashLength) (hL' : hashLength < 2 ^ 32) :
    (∀ (header : NodeHeader) (data rest : List UInt8) (offset : Nat), data.drop offset = header.encode ++ rest →
      NodeHeader.decode ⟨data, offset⟩ = .ok (header, ⟨data, offset + header.encode.length⟩)) ∧
    (∀ (input input' : ByteSliceInput) (header : NodeHeader), NodeHeader.decode input = .ok (header, input') →
      input'.data = input.data ∧ input.data.drop input.offset = header.encode ++ input.data.drop input'.offset) ∧
    (∀ (key : PackedKey) (value : Value), value.Valid hashLength →
      (decodePlan c hashLength (leafNode c key.bytes key.nibbleCount value)).map
          (NodePlan.build (leafNode c key.bytes key.nibbleCount value)) =
        .ok (.leaf (key.bytes, numberPadding key.nibbleCount) value)) ∧
    (∀ (key : PackedKey) (children : List (Option ChildReference)) (value : Option Value),
      children.length = nibbleLength → (∃ r, some r ∈ children) →
      (∀ r, some r ∈ children → r.Valid hashLength) → (∀ v, value = some v → v.Valid hashLength) →
      (decodePlan c hashLength (branchNodeNibbled c key.bytes key.nibbleCount children value)).map
          (NodePlan.build (branchNodeNibbled c key.bytes key.nibbleCount children value)) =
        .ok (.nibbledBranch (key.bytes, numberPadding key.nibbleCount) value
          (children.map (Option.map ChildReference.handle)))) :=
  ⟨fun header _ _ _ h => decode_encode header h, fun _ _ _ h => encode_of_decode h,
    fun key value hv => decodePlan_leafNode hc hL key value hv,
    fun key children value hlen hsome hchildren hv =>
      decodePlan_branchNodeNibbled hc hL' key children value hlen hsome hchildren hv⟩

/-- A leaf with three nibbles and an inline value, read back with the SCALE codec and a 32-byte hash. -/
theorem nodeCodec_decode_encode_scale :
    scaleCompact.Lawful ∧ 0 < 32 ∧ 32 < 2 ^ 32 ∧
      (decodePlan scaleCompact 32 (leafNode scaleCompact [0x01, 0x23] 3 (.inline [7]))).map
          (NodePlan.build (leafNode scaleCompact [0x01, 0x23] 3 (.inline [7]))) =
        .ok (.leaf ([0x01, 0x23], numberPadding 3) (.inline [7])) :=
  ⟨scaleCompact_lawful, by decide, by decide,
    (@nodeCodec_decode_encode scaleCompact 32 scaleCompact_lawful (by decide) (by decide)).2.2.1
      ⟨[0x01, 0x23], 3, by decide, fun _ => by decide⟩ (.inline [7]) (show [7].length < 2 ^ 32 by decide)⟩

end Nodes

end CoreChain.Trie

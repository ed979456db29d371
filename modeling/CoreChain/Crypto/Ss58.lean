import Mathlib

/-!
# SS58 addresses

`Ss58Codec::to_ss58check_with_version` and `from_ss58check_with_version` (`sp_core::crypto`). An address is the
base-58 text of a prefix, the key bytes and two bytes of `ss58hash` of both. The prefix is one byte for an identifier
below 64, and two bytes `01aaaaaa bbcccccc` for one of 14 bits `cccccc aaaaaabb`.

`bs58` is any pair of inverse maps (`Base58`), and `ss58hash` any function into 64 bytes (`Codec`). Decoding an
encoding gives the key and the format back (`ss58check_round_trip`). The decoder also reads the two-byte prefix of an
identifier below 64, which the encoder writes in one byte: an address is the encoding of what it decodes to exactly
when its prefix is the short one for such identifiers (`two_byte_prefix_below_64_accepted`).
-/

namespace CoreChain.Ss58

/-- `PublicError`, the variants `from_ss58check_with_version` returns. -/
inductive PublicError
  | badBase58
  | badLength
  | invalidPrefix
  | formatNotAllowed
  | invalidChecksum
  deriving DecidableEq, Repr

/-- `bs58` on texts `S`: `decode` and `encode` are inverse to each other. -/
structure Base58 (S : Type) where
  encode : List UInt8 → S
  decode : S → Option (List UInt8)
  decode_encode : ∀ v, decode (encode v) = some v
  encode_decode : ∀ s v, decode s = some v → encode v = s

/-- An `Ss58Codec` key type: `LEN`, `format_is_allowed`, and `ss58hash`, a Blake2b of 64 bytes. A format is its `u16`
(`From<u16>` and `u16::from` are inverse). -/
structure Codec where
  len : Nat
  formatIsAllowed : UInt16 → Bool
  ss58hash : List UInt8 → List UInt8
  length_ss58hash : ∀ data, (ss58hash data).length = 64

/-- A key of the type: its `LEN` bytes. -/
abbrev Codec.Key (c : Codec) : Type :=
  {bytes : List UInt8 // bytes.length = c.len}

/-- `ByteArray::from_slice`: the bytes, if there are `LEN` of them. -/
def Codec.fromSlice (c : Codec) (data : List UInt8) : Option c.Key :=
  if h : data.length = c.len then some ⟨data, h⟩ else none

theorem Codec.fromSlice_val (c : Codec) (key : c.Key) : c.fromSlice key.val = some key := by
  simp [Codec.fromSlice, key.property]

theorem Codec.val_of_fromSlice (c : Codec) {data : List UInt8} {key : c.Key} (h : c.fromSlice data = some key) :
    key.val = data := by
  unfold Codec.fromSlice at h
  split at h
  · cases h
    rfl
  · cases h

theorem take_add_split {α : Type} (data : List α) (n m : Nat) :
    data.take (m + n) = data.take n ++ (data.drop n).take m := by
  rw [Nat.add_comm, List.take_add]

/-! ## The prefix -/

/-- The two bytes of the long prefix: the upper six bits of the lower byte, then its lower two bits above the upper
byte. -/
def encodeIdent (ident : UInt16) : UInt8 × UInt8 :=
  let first := (ident &&& 0b11111100).toUInt8 >>> 2
  let second := (ident >>> 8).toUInt8 ||| ((ident &&& 0b11).toUInt8 <<< 6)
  (first ||| 0b01000000, second)

/-- The prefix of `to_ss58check_with_version`; `none` is its `unreachable!`. -/
def identPrefix (ident : UInt16) : Option (List UInt8) :=
  if ident ≤ 63 then some [ident.toUInt8]
  else if ident ≤ 16383 then some [(encodeIdent ident).1, (encodeIdent ident).2]
  else none

/-- The identifier of a long prefix: `d[0] d[1]` are `01aaaaaa bbcccccc`, the `u16` is `00cccccc aaaaaabb`. -/
def decodeIdent (d₀ d₁ : UInt8) : UInt16 :=
  let lower := (d₀ <<< 2) ||| (d₁ >>> 6)
  let upper := d₁ &&& 0b00111111
  lower.toUInt16 ||| (upper.toUInt16 <<< 8)

/-- The prefix `from_ss58check_with_version` reads: its length and the identifier. -/
def readPrefix (d₀ d₁ : UInt8) : Except PublicError (Nat × UInt16) :=
  if d₀ ≤ 63 then .ok (1, d₀.toUInt16)
  else if d₀ ≤ 127 then .ok (2, decodeIdent d₀ d₁)
  else .error .invalidPrefix

/-! ### Its bits -/

theorem land_252_shiftRight (x : Nat) : (x &&& 252) >>> 2 = x / 4 % 64 := by
  have hmask : ∀ k, 2 ≤ k → k < 8 → (252 : Nat).testBit k = true := by decide
  apply Nat.eq_of_testBit_eq
  intro j
  rw [Nat.testBit_shiftRight, Nat.testBit_and, show x / 4 % 64 = (x >>> 2) % 2 ^ 6 by simp [Nat.shiftRight_eq_div_pow],
    Nat.testBit_mod_two_pow, Nat.testBit_shiftRight]
  by_cases hj : j < 6
  · simp [hmask (2 + j) (by omega) (by omega), hj]
  · -- above the mask
    have hlt : (252 : Nat) < 2 ^ (2 + j) :=
      Nat.lt_of_lt_of_le (by decide : (252 : Nat) < 2 ^ 8) (Nat.pow_le_pow_right (by decide) (by omega))
    simp [Nat.testBit_lt_two_pow hlt, hj]

theorem toNat_encodeIdent_fst (ident : UInt16) : (encodeIdent ident).1.toNat = ident.toNat % 256 / 4 + 64 := by
  have hlow := land_252_shiftRight ident.toNat
  have hle : ident.toNat &&& 252 ≤ 252 := Nat.and_le_right
  have hor := @Nat.two_pow_add_eq_or_of_lt 6 (ident.toNat / 4 % 64) (by omega) 1
  simp only [encodeIdent, UInt8.toNat_or, UInt8.toNat_shiftRight, UInt16.toNat_toUInt8, UInt16.toNat_and]
  simp only [UInt16.reduceToNat, UInt8.reduceToNat, Nat.reducePow, Nat.reduceMod, Nat.mul_one] at hor ⊢
  rw [Nat.mod_eq_of_lt (by omega), hlow, Nat.lor_comm, ← hor]
  omega

theorem toNat_encodeIdent_snd (ident : UInt16) (h : ident.toNat < 16384) :
    (encodeIdent ident).2.toNat = ident.toNat % 4 * 64 + ident.toNat / 256 := by
  have hlow : ident.toNat &&& 3 = ident.toNat % 4 := Nat.and_two_pow_sub_one_eq_mod _ 2
  have hor := @Nat.two_pow_add_eq_or_of_lt 6 (ident.toNat / 256) (by omega) (ident.toNat % 4)
  simp only [encodeIdent, UInt8.toNat_or, UInt8.toNat_shiftLeft, UInt16.toNat_toUInt8, UInt16.toNat_and,
    UInt16.toNat_shiftRight]
  simp only [UInt16.reduceToNat, UInt8.reduceToNat, Nat.reducePow, Nat.reduceMod] at hor ⊢
  rw [hlow, Nat.shiftLeft_eq, Nat.shiftRight_eq_div_pow]
  simp only [Nat.reducePow]
  rw [show ident.toNat / 256 % 256 = ident.toNat / 256 by omega,
    show ident.toNat % 4 % 256 * 64 % 256 = 64 * (ident.toNat % 4) by omega, Nat.lor_comm, ← hor]
  omega

theorem toNat_decodeIdent (d₀ d₁ : UInt8) :
    (decodeIdent d₀ d₁).toNat = d₀.toNat % 64 * 4 + d₁.toNat / 64 + d₁.toNat % 64 * 256 := by
  have h₀ := d₀.toNat_lt
  have h₁ := d₁.toNat_lt
  have hupper : d₁.toNat &&& 63 = d₁.toNat % 64 := Nat.and_two_pow_sub_one_eq_mod _ 6
  have hlower := @Nat.two_pow_add_eq_or_of_lt 2 (d₁.toNat / 64) (by omega) (d₀.toNat % 64)
  have hor := @Nat.two_pow_add_eq_or_of_lt 8 (4 * (d₀.toNat % 64) + d₁.toNat / 64) (by omega) (d₁.toNat % 64)
  simp only [decodeIdent, UInt16.toNat_or, UInt16.toNat_shiftLeft, UInt8.toNat_toUInt16, UInt8.toNat_or,
    UInt8.toNat_shiftLeft, UInt8.toNat_shiftRight, UInt8.toNat_and]
  simp only [UInt16.reduceToNat, UInt8.reduceToNat, Nat.reducePow, Nat.reduceMod] at hlower hor ⊢
  rw [hupper, Nat.shiftLeft_eq, Nat.shiftLeft_eq, Nat.shiftRight_eq_div_pow]
  simp only [Nat.reducePow]
  rw [show d₀.toNat * 4 % 256 = 4 * (d₀.toNat % 64) by omega, ← hlower,
    show d₁.toNat % 64 * 256 % 65536 = 256 * (d₁.toNat % 64) by omega, Nat.lor_comm, ← hor]
  omega

theorem toNat_decodeIdent_lt (d₀ d₁ : UInt8) : (decodeIdent d₀ d₁).toNat < 16384 := by
  have := d₁.toNat_lt
  rw [toNat_decodeIdent]
  omega

theorem identPrefix_short {ident : UInt16} (h : ident.toNat ≤ 63) : identPrefix ident = some [ident.toUInt8] := by
  simp [identPrefix, UInt16.le_iff_toNat_le, h]

theorem identPrefix_long {ident : UInt16} (h₁ : 64 ≤ ident.toNat) (h₂ : ident.toNat < 16384) :
    identPrefix ident = some [(encodeIdent ident).1, (encodeIdent ident).2] := by
  simp only [identPrefix, UInt16.le_iff_toNat_le, UInt16.reduceToNat]
  rw [if_neg (by omega), if_pos (by omega)]

theorem readPrefix_short {d₀ : UInt8} (h : d₀.toNat ≤ 63) (d₁ : UInt8) : readPrefix d₀ d₁ = .ok (1, d₀.toUInt16) := by
  simp [readPrefix, UInt8.le_iff_toNat_le, h]

theorem readPrefix_long {d₀ : UInt8} (h₁ : 64 ≤ d₀.toNat) (h₂ : d₀.toNat ≤ 127) (d₁ : UInt8) :
    readPrefix d₀ d₁ = .ok (2, decodeIdent d₀ d₁) := by
  simp only [readPrefix, UInt8.le_iff_toNat_le, UInt8.reduceToNat]
  rw [if_neg (by omega), if_pos h₂]

/-- The long prefix reads back as the identifier it was written for. -/
theorem decodeIdent_encodeIdent {ident : UInt16} (h₁ : 64 ≤ ident.toNat) (h₂ : ident.toNat < 16384) :
    decodeIdent (encodeIdent ident).1 (encodeIdent ident).2 = ident := by
  apply UInt16.toNat_inj.1
  rw [toNat_decodeIdent, toNat_encodeIdent_fst, toNat_encodeIdent_snd ident h₂]
  have e₁ : (ident.toNat % 256 / 4 + 64) % 64 = ident.toNat % 256 / 4 := by omega
  have e₂ : (ident.toNat % 4 * 64 + ident.toNat / 256) / 64 = ident.toNat % 4 := by omega
  have e₃ : (ident.toNat % 4 * 64 + ident.toNat / 256) % 64 = ident.toNat / 256 := by omega
  rw [e₁, e₂, e₃]
  omega

/-- A long prefix of an identifier from 64 on is the one written for it. -/
theorem encodeIdent_decodeIdent {d₀ d₁ : UInt8} (h₁ : 64 ≤ d₀.toNat) (h₂ : d₀.toNat ≤ 127)
    (h : 64 ≤ (decodeIdent d₀ d₁).toNat) : encodeIdent (decodeIdent d₀ d₁) = (d₀, d₁) := by
  have hd₁ := d₁.toNat_lt
  have hfst := toNat_encodeIdent_fst (decodeIdent d₀ d₁)
  have hsnd := toNat_encodeIdent_snd (decodeIdent d₀ d₁) (toNat_decodeIdent_lt d₀ d₁)
  rw [toNat_decodeIdent] at hfst hsnd h
  -- the low byte holds `d[0]`'s six bits and the top two of `d[1]`, the high byte the rest of `d[1]`
  have hlow : (d₀.toNat % 64 * 4 + d₁.toNat / 64 + d₁.toNat % 64 * 256) % 256 = d₀.toNat % 64 * 4 + d₁.toNat / 64 := by
    omega
  have hhigh : (d₀.toNat % 64 * 4 + d₁.toNat / 64 + d₁.toNat % 64 * 256) / 256 = d₁.toNat % 64 := by omega
  have hbits : (d₀.toNat % 64 * 4 + d₁.toNat / 64 + d₁.toNat % 64 * 256) % 4 = d₁.toNat / 64 := by omega
  refine Prod.ext (UInt8.toNat_inj.1 ?_) (UInt8.toNat_inj.1 ?_)
  · have hq : (d₀.toNat % 64 * 4 + d₁.toNat / 64) / 4 = d₀.toNat % 64 := by omega
    show _ = d₀.toNat
    rw [hfst, hlow, hq]
    omega
  · show _ = d₁.toNat
    rw [hsnd, hhigh, hbits]
    omega

/-- What `from_ss58check_with_version` reads from the prefix `to_ss58check_with_version` writes. -/
theorem readPrefix_of_identPrefix {ident : UInt16} (h : ident.toNat < 16384) {p : List UInt8}
    (hp : identPrefix ident = some p) {d₀ d₁ : UInt8} {rest tail : List UInt8}
    (hdata : p ++ tail = d₀ :: d₁ :: rest) : readPrefix d₀ d₁ = .ok (p.length, ident) := by
  by_cases hshort : ident.toNat ≤ 63
  · rw [identPrefix_short hshort, Option.some.injEq] at hp
    subst hp
    obtain ⟨rfl, -⟩ := List.cons.inj hdata
    rw [readPrefix_short (by simp; omega)]
    congr
    apply UInt16.toNat_inj.1
    simp
    omega
  · rw [identPrefix_long (by omega) h, Option.some.injEq] at hp
    subst hp
    simp only [List.cons_append, List.nil_append, List.cons.injEq] at hdata
    obtain ⟨rfl, rfl, -⟩ := hdata
    have hfst := toNat_encodeIdent_fst ident
    rw [readPrefix_long (by omega) (by omega), decodeIdent_encodeIdent (by omega) h]
    rfl

/-! ## The codec -/

variable {S : Type} (B : Base58 S) (c : Codec)

/-- `Ss58Codec::to_ss58check_with_version`. -/
def toSs58checkWithVersion (key : c.Key) (version : UInt16) : Option S := do
  -- only 14 bits of the identifier are written
  let ident := version &&& 0b0011111111111111
  let v ← identPrefix ident
  let v := v ++ key.val
  let r := c.ss58hash v
  pure (B.encode (v ++ r.take 2))

/-- `Ss58Codec::from_ss58check_with_version`. -/
def fromSs58checkWithVersion (s : S) : Except PublicError (c.Key × UInt16) := do
  let data ← (B.decode s).elim (.error .badBase58) .ok
  match data with
  | d₀ :: d₁ :: _ =>
    let (prefixLen, ident) ← readPrefix d₀ d₁
    if data.length ≠ prefixLen + c.len + 2 then throw .badLength
    if !c.formatIsAllowed ident then throw .formatNotAllowed
    let hash := c.ss58hash (data.take (c.len + prefixLen))
    let checksum := hash.take 2
    if (data.drop (c.len + prefixLen)).take 2 ≠ checksum then throw .invalidChecksum
    match c.fromSlice ((data.drop prefixLen).take c.len) with
    | some result => pure (result, ident)
    | none => throw .badLength
  | _ => throw .badLength

/-! ## Encoding and decoding -/

theorem exists_eq_cons_cons {α : Type} {l : List α} (h : 2 ≤ l.length) : ∃ a b t, l = a :: b :: t := by
  match l with
  | a :: b :: t => exact ⟨a, b, t, rfl⟩
  | [] => simp at h
  | [_] => simp at h

theorem length_checksum (data : List UInt8) : ((c.ss58hash data).take 2).length = 2 := by
  simp [c.length_ss58hash]

theorem length_identPrefix {ident : UInt16} {p : List UInt8} (hp : identPrefix ident = some p) :
    1 ≤ p.length ∧ p.length ≤ 2 := by
  unfold identPrefix at hp
  split at hp
  · cases hp
    simp
  · split at hp <;> cases hp
    simp

/-- `to_ss58check_with_version` of an identifier of 14 bits: its prefix, the key and the checksum. -/
theorem toSs58check_eq (key : c.Key) {v : UInt16} (hv : v.toNat < 16384) {p : List UInt8}
    (hp : identPrefix v = some p) :
    toSs58checkWithVersion B c key v = some (B.encode (p ++ key.val ++ (c.ss58hash (p ++ key.val)).take 2)) := by
  have hmask : v &&& 0b0011111111111111 = v := by
    apply UInt16.toNat_inj.1
    rw [UInt16.toNat_and, show (0b0011111111111111 : UInt16).toNat = 2 ^ 14 - 1 from rfl,
      Nat.and_two_pow_sub_one_eq_mod]
    omega
  simp only [toSs58checkWithVersion, hmask, hp]
  rfl

/-- Decoding the bytes of a prefix, a key and its checksum gives the key and the identifier of the prefix. -/
theorem fromSs58check_encode (key : c.Key) {ident : UInt16} (hident : ident.toNat < 16384) {p : List UInt8}
    (hp : identPrefix ident = some p) (hallowed : c.formatIsAllowed ident = true) :
    fromSs58checkWithVersion B c (B.encode (p ++ key.val ++ (c.ss58hash (p ++ key.val)).take 2)) = .ok (key, ident) := by
  have hcs := length_checksum c (p ++ key.val)
  have hplen := length_identPrefix hp
  have hkey := key.property
  obtain ⟨d₀, d₁, rest, hdata⟩ := @exists_eq_cons_cons _ (p ++ key.val ++ (c.ss58hash (p ++ key.val)).take 2)
    (by simp only [List.length_append, hcs]; omega)
  have hread := readPrefix_of_identPrefix hident hp (by rw [← List.append_assoc]; exact hdata)
  unfold fromSs58checkWithVersion
  simp only [B.decode_encode, Option.elim]
  rw [hdata]
  simp only [hread, bind, Except.bind]
  rw [← hdata]
  -- the three parts of the bytes, by their lengths
  have hlen : (p ++ key.val ++ (c.ss58hash (p ++ key.val)).take 2).length = p.length + c.len + 2 := by
    simp only [List.length_append, hcs, hkey]
  have htake : (p ++ key.val ++ (c.ss58hash (p ++ key.val)).take 2).take (c.len + p.length) = p ++ key.val :=
    List.take_left' (by simp only [List.length_append, hkey]; omega)
  have hdrop : (p ++ key.val ++ (c.ss58hash (p ++ key.val)).take 2).drop (c.len + p.length) =
      (c.ss58hash (p ++ key.val)).take 2 :=
    List.drop_left' (by simp only [List.length_append, hkey]; omega)
  have hslice : ((p ++ key.val ++ (c.ss58hash (p ++ key.val)).take 2).drop p.length).take c.len = key.val := by
    rw [List.append_assoc, List.drop_left' rfl, List.take_left' hkey]
  simp only [hlen, htake, hdrop, hslice, c.fromSlice_val, hallowed, List.take_of_length_le (Nat.le_of_eq hcs),
    ne_eq, not_true_eq_false, if_false, Bool.not_true, Bool.false_eq_true]
  rfl

theorem readPrefix_ok {d₀ d₁ : UInt8} {n : Nat} {ident : UInt16} (h : readPrefix d₀ d₁ = .ok (n, ident)) :
    (n = 1 ∧ d₀.toNat ≤ 63 ∧ ident = d₀.toUInt16) ∨
      (n = 2 ∧ 64 ≤ d₀.toNat ∧ d₀.toNat ≤ 127 ∧ ident = decodeIdent d₀ d₁) := by
  unfold readPrefix at h
  simp only [UInt8.le_iff_toNat_le, UInt8.reduceToNat] at h
  split at h
  · cases h
    exact Or.inl ⟨rfl, by omega, rfl⟩
  · split at h
    · cases h
      exact Or.inr ⟨rfl, by omega, by omega, rfl⟩
    · cases h

/-- What `from_ss58check_with_version` accepts: a prefix it reads as the identifier, the key, and the checksum of
both. -/
theorem fromSs58check_sound {s : S} {key : c.Key} {ident : UInt16}
    (h : fromSs58checkWithVersion B c s = .ok (key, ident)) :
    ∃ p, B.decode s = some (p ++ key.val ++ (c.ss58hash (p ++ key.val)).take 2) ∧ c.formatIsAllowed ident = true ∧
      ∃ d₀ d₁ rest, p ++ key.val ++ (c.ss58hash (p ++ key.val)).take 2 = d₀ :: d₁ :: rest ∧
        readPrefix d₀ d₁ = .ok (p.length, ident) := by
  unfold fromSs58checkWithVersion at h
  cases hdec : B.decode s with
  | none =>
    simp only [hdec, Option.elim, bind, Except.bind] at h
    cases h
  | some data =>
    simp only [hdec, Option.elim, bind, Except.bind] at h
    rcases data with _ | ⟨d₀, _ | ⟨d₁, rest⟩⟩
    · cases h
    · cases h
    · cases hr : readPrefix d₀ d₁ with
      | error e => simp [hr] at h
      | ok r =>
        obtain ⟨n, ident'⟩ := r
        simp only [hr] at h
        split_ifs at h with hlen hallow hcheck
        cases hf : c.fromSlice (List.take c.len (List.drop n (d₀ :: d₁ :: rest))) with
        | none =>
          rw [hf] at h
          cases h
        | some r =>
          rw [hf] at h
          cases h
          have hkey : key.val = (List.drop n (d₀ :: d₁ :: rest)).take c.len := c.val_of_fromSlice hf
          have hbytes : d₀ :: d₁ :: rest = (d₀ :: d₁ :: rest).take n ++ key.val ++
              (c.ss58hash ((d₀ :: d₁ :: rest).take n ++ key.val)).take 2 := by
            rw [hkey, ← take_add_split, ← not_not.1 hcheck,
              List.take_of_length_le (show (List.drop (c.len + n) (d₀ :: d₁ :: rest)).length ≤ 2 by
                rw [List.length_drop, not_not.1 hlen]; omega),
              List.take_append_drop]
          have hn : ((d₀ :: d₁ :: rest).take n).length = n := by
            rw [List.length_take]
            rcases readPrefix_ok hr with ⟨rfl, -⟩ | ⟨rfl, -⟩ <;> simp
          refine ⟨(d₀ :: d₁ :: rest).take n, by rw [← hbytes], by simpa using hallow, d₀, d₁, rest, hbytes.symm, ?_⟩
          rw [hn, hr]

theorem identPrefix_isSome {v : UInt16} (hv : v.toNat < 16384) : ∃ p, identPrefix v = some p := by
  by_cases h : v.toNat ≤ 63
  · exact ⟨_, identPrefix_short h⟩
  · exact ⟨_, identPrefix_long (by omega) hv⟩

/-- Decoding undoes encoding; and an accepted address is the encoding of what it decodes to exactly when its prefix
is the one the encoder writes: from 64 on the long one, below 64 the short one, of `LEN + 3` bytes in all. -/
theorem ss58check_round_trip :
    (∀ (key : c.Key) (v : UInt16), v.toNat < 2 ^ 14 → c.formatIsAllowed v = true →
      ∃ s, toSs58checkWithVersion B c key v = some s ∧ fromSs58checkWithVersion B c s = .ok (key, v)) ∧
    ∀ (s : S) (key : c.Key) (v : UInt16), fromSs58checkWithVersion B c s = .ok (key, v) →
      (toSs58checkWithVersion B c key v = some s ↔
        64 ≤ v.toNat ∨ (B.decode s).map List.length = some (c.len + 3)) := by
  constructor
  · intro key v hv hallowed
    obtain ⟨p, hp⟩ := identPrefix_isSome hv
    exact ⟨_, toSs58check_eq B c key hv hp, fromSs58check_encode B c key hv hp hallowed⟩
  · intro s key v h
    obtain ⟨p, hdec, -, d₀, d₁, rest, hdata, hread⟩ := fromSs58check_sound B c h
    have hkey := key.property
    have hcs := length_checksum c (p ++ key.val)
    have hs : B.encode (p ++ key.val ++ (c.ss58hash (p ++ key.val)).take 2) = s := B.encode_decode s _ hdec
    have hlen : (B.decode s).map List.length = some (p.length + c.len + 2) := by
      rw [hdec, Option.map_some, List.length_append, List.length_append, hkey, hcs]
    rcases readPrefix_ok hread with ⟨hn, hd₀, rfl⟩ | ⟨hn, hd₀, hd₀', rfl⟩
    · -- the short prefix: it is the encoder's
      obtain ⟨x, rfl⟩ := List.length_eq_one_iff.1 hn
      obtain ⟨rfl, -⟩ := List.cons.inj hdata
      have hp : identPrefix x.toUInt16 = some [x] := by
        rw [identPrefix_short (by simpa using hd₀), UInt8.toUInt8_toUInt16]
      rw [toSs58check_eq B c key (by simp; omega) hp, hs, hlen]
      simp only [List.length_singleton, Option.some.injEq, true_iff]
      omega
    · obtain ⟨x, y, rfl⟩ := List.length_eq_two.1 hn
      simp only [List.cons_append, List.nil_append, List.cons.injEq] at hdata
      obtain ⟨rfl, rfl, -⟩ := hdata
      by_cases hv : 64 ≤ (decodeIdent x y).toNat
      · -- the long prefix of an identifier from 64 on: it is the encoder's
        have hp : identPrefix (decodeIdent x y) = some [x, y] := by
          rw [identPrefix_long hv (toNat_decodeIdent_lt x y), encodeIdent_decodeIdent hd₀ hd₀' hv]
        rw [toSs58check_eq B c key (toNat_decodeIdent_lt x y) hp, hs]
        simp [hv]
      · -- the long prefix of an identifier below 64: the encoder writes the short one, a byte shorter
        have hp := identPrefix_short (show (decodeIdent x y).toNat ≤ 63 by omega)
        rw [toSs58check_eq B c key (toNat_decodeIdent_lt x y) hp, hlen]
        refine iff_of_false (fun heq => ?_) (by simp; omega)
        have := congrArg (fun t => (B.decode t).map List.length) (Option.some.inj heq)
        simp only [B.decode_encode, hlen, Option.map_some, List.length_append, hkey, length_checksum] at this
        simp at this

/-- `bs58` read as the bytes themselves. -/
def bytesBase58 : Base58 (List UInt8) :=
  ⟨id, some, fun _ => rfl, fun _ _ h => (Option.some.inj h).symm⟩

/-- A key of one byte, a hash of zeros, and the default `format_is_allowed`, which refuses the reserved 46 and 47. -/
def oneByteCodec : Codec :=
  ⟨1, fun f => !(f == 46 || f == 47), fun _ => List.replicate 64 0, fun _ => List.length_replicate⟩

/-- Key `7` in format `0` decodes back from its encoding; and the address with the long prefix, which decodes to the
same, is not the encoding. -/
theorem ss58check_round_trip_oneByte :
    (∃ s, toSs58checkWithVersion bytesBase58 oneByteCodec ⟨[7], rfl⟩ 0 = some s ∧
      fromSs58checkWithVersion bytesBase58 oneByteCodec s = .ok (⟨[7], rfl⟩, 0)) ∧
    (toSs58checkWithVersion bytesBase58 oneByteCodec ⟨[7], rfl⟩ 0 = some [64, 0, 7, 0, 0] ↔
      64 ≤ (0 : UInt16).toNat ∨ (bytesBase58.decode [64, 0, 7, 0, 0]).map List.length = some (oneByteCodec.len + 3)) :=
  ⟨(ss58check_round_trip bytesBase58 oneByteCodec).1 ⟨[7], rfl⟩ 0 (by decide) (by decide),
    (ss58check_round_trip bytesBase58 oneByteCodec).2 [64, 0, 7, 0, 0] ⟨[7], rfl⟩ 0 rfl⟩

/-- The long prefix `01000000 00000000` reads as identifier 0, which the encoder writes as the single byte `0`: two
addresses decode to the same key and format. -/
theorem two_byte_prefix_below_64_accepted :
    fromSs58checkWithVersion bytesBase58 oneByteCodec [64, 0, 7, 0, 0] = .ok (⟨[7], rfl⟩, 0) ∧
    fromSs58checkWithVersion bytesBase58 oneByteCodec [0, 7, 0, 0] = .ok (⟨[7], rfl⟩, 0) ∧
    toSs58checkWithVersion bytesBase58 oneByteCodec ⟨[7], rfl⟩ 0 = some [0, 7, 0, 0] :=
  ⟨rfl, rfl, rfl⟩

end CoreChain.Ss58

import Mathlib

/-!
# Length prefixes: SCALE compact integers

A `CompactCodec` writes a 32-bit number as a byte prefix and reads one back off the front of a byte string.
`CompactCodec.Lawful` is what a list encoding needs of it: decoding gives back what was encoded with the bytes
after it, only the canonical encoding is accepted, and nothing decodes from no bytes.

`scaleCompact` is the SCALE compact encoding of a `u32`: the two low bits of the first byte give the mode, one,
two or four bytes holding the number shifted left by two, or a marker byte `0b11` and the four bytes of the number;
the decoder rejects a number in a longer mode than it needs. It is lawful (`scaleCompact_lawful`).
-/

namespace CoreChain

/-! ## Little-endian bytes -/

/-- The `w` bytes of `n`, least significant first. -/
def leBytes : Nat → Nat → List UInt8
  | 0, _ => []
  | w + 1, n => UInt8.ofNat n :: leBytes w (n / 256)

/-- The number in the first `w` bytes, least significant first, and the bytes after them. -/
def leRead : Nat → List UInt8 → Option (Nat × List UInt8)
  | 0, bs => some (0, bs)
  | _ + 1, [] => none
  | w + 1, b :: bs => (leRead w bs).map fun r => (b.toNat + 256 * r.1, r.2)

@[simp] theorem length_leBytes : ∀ w n, (leBytes w n).length = w
  | 0, _ => rfl
  | w + 1, n => by simp [leBytes, length_leBytes w]

theorem leRead_leBytes : ∀ (w n : Nat) (rest : List UInt8), n < 256 ^ w →
    leRead w (leBytes w n ++ rest) = some (n, rest)
  | 0, n, rest, h => by
    have hn : n = 0 := by simpa using h
    simp [leBytes, leRead, hn]
  | w + 1, n, rest, h => by
    have hlt : n / 256 < 256 ^ w := by
      rw [Nat.pow_succ] at h
      omega
    simp only [leBytes, List.cons_append, leRead, leRead_leBytes w (n / 256) rest hlt, Option.map_some,
      UInt8.toNat_ofNat', Option.some.injEq, Prod.mk.injEq, and_true]
    omega

theorem leRead_eq_some : ∀ (w : Nat) (bs : List UInt8) (x : Nat) (rest : List UInt8),
    leRead w bs = some (x, rest) → x < 256 ^ w ∧ bs = leBytes w x ++ rest
  | 0, bs, x, rest, h => by
    simp only [leRead, Option.some.injEq, Prod.mk.injEq] at h
    obtain ⟨rfl, rfl⟩ := h
    simp [leBytes]
  | _ + 1, [], _, _, h => by simp [leRead] at h
  | w + 1, b :: bs, x, rest, h => by
    simp only [leRead, Option.map_eq_some_iff, Prod.exists, Prod.mk.injEq] at h
    obtain ⟨y, rest', hy, rfl, rfl⟩ := h
    obtain ⟨hlt, rfl⟩ := leRead_eq_some w bs y rest' hy
    have hb := UInt8.toNat_lt b
    refine ⟨by rw [Nat.pow_succ]; omega, ?_⟩
    have hdiv : (b.toNat + 256 * y) / 256 = y := by omega
    have hmod : UInt8.ofNat (b.toNat + 256 * y) = b := by
      apply UInt8.toNat_inj.mp
      simp only [UInt8.toNat_ofNat']
      omega
    simp [leBytes, hdiv, hmod]

/-! ## Codecs -/

/-- A codec for a `u32` length prefix: `decode` reads a number off the front and returns the bytes after it. -/
structure CompactCodec where
  encode : UInt32 → List UInt8
  decode : List UInt8 → Option (UInt32 × List UInt8)

/-- What a list encoding relies on. -/
structure CompactCodec.Lawful (c : CompactCodec) : Prop where
  decode_encode : ∀ n rest, c.decode (c.encode n ++ rest) = some (n, rest)
  decode_canonical : ∀ bs n rest, c.decode bs = some (n, rest) → bs = c.encode n ++ rest
  decode_nil : c.decode [] = none

theorem CompactCodec.Lawful.encode_ne_nil {c : CompactCodec} (hc : c.Lawful) (n : UInt32) : c.encode n ≠ [] := by
  intro h
  have hdec := hc.decode_encode n []
  rw [h, List.nil_append, hc.decode_nil] at hdec
  cases hdec

/-! ## SCALE compact -/

/-- `Compact::<u32>::encode`. -/
def compactEncode (n : UInt32) : List UInt8 :=
  if n.toNat < 2 ^ 6 then leBytes 1 (4 * n.toNat)
  else if n.toNat < 2 ^ 14 then leBytes 2 (4 * n.toNat + 1)
  else if n.toNat < 2 ^ 30 then leBytes 4 (4 * n.toNat + 2)
  else 3 :: leBytes 4 n.toNat

/-- `Compact::<u32>::decode`: the mode is the two low bits of the first byte, which is also the low byte of the
shifted number in the one-, two- and four-byte modes. -/
def compactDecode : List UInt8 → Option (UInt32 × List UInt8)
  | [] => none
  | b :: bs =>
    match b.toNat % 4 with
    | 0 => some (UInt32.ofNat (b.toNat / 4), bs)
    | 1 => (leRead 2 (b :: bs)).bind fun r =>
      if 2 ^ 6 ≤ r.1 / 4 then some (UInt32.ofNat (r.1 / 4), r.2) else none
    | 2 => (leRead 4 (b :: bs)).bind fun r =>
      if 2 ^ 14 ≤ r.1 / 4 then some (UInt32.ofNat (r.1 / 4), r.2) else none
    | _ =>
      if b.toNat / 4 = 0 then
        (leRead 4 bs).bind fun r => if 2 ^ 30 ≤ r.1 then some (UInt32.ofNat r.1, r.2) else none
      else none

/-- The SCALE compact codec of `u32`. -/
def scaleCompact : CompactCodec :=
  ⟨compactEncode, compactDecode⟩

/-- The first byte of a shifted number written in `w + 1` bytes, with the other bytes. -/
theorem leBytes_succ (w n : Nat) : leBytes (w + 1) n = UInt8.ofNat n :: leBytes w (n / 256) :=
  rfl

theorem toNat_ofNat_mod_four (n : Nat) : (UInt8.ofNat n).toNat % 4 = n % 4 := by
  simp only [UInt8.toNat_ofNat']
  omega

theorem compactDecode_compactEncode (n : UInt32) (rest : List UInt8) :
    compactDecode (compactEncode n ++ rest) = some (n, rest) := by
  have hn := n.toNat_lt
  have hof : ∀ x, x = n.toNat → UInt32.ofNat x = n := by
    rintro x rfl
    exact UInt32.ofNat_toNat
  unfold compactEncode
  split_ifs with h1 h2 h3
  · have hb : (UInt8.ofNat (4 * n.toNat)).toNat = 4 * n.toNat := by
      simp only [UInt8.toNat_ofNat']
      omega
    simp only [leBytes, List.cons_append, List.nil_append, compactDecode, hb]
    rw [show 4 * n.toNat % 4 = 0 by omega]
    simp only [Option.some.injEq, Prod.mk.injEq, and_true]
    exact hof _ (by omega)
  · have hr := leRead_leBytes 2 (4 * n.toNat + 1) rest (by omega)
    rw [leBytes_succ, List.cons_append] at hr ⊢
    simp only [compactDecode, toNat_ofNat_mod_four, show (4 * n.toNat + 1) % 4 = 1 by omega, hr,
      Option.bind_some, show (4 * n.toNat + 1) / 4 = n.toNat by omega]
    rw [if_pos (by omega), hof _ rfl]
  · have hr := leRead_leBytes 4 (4 * n.toNat + 2) rest (by omega)
    rw [leBytes_succ, List.cons_append] at hr ⊢
    simp only [compactDecode, toNat_ofNat_mod_four, show (4 * n.toNat + 2) % 4 = 2 by omega, hr,
      Option.bind_some, show (4 * n.toNat + 2) / 4 = n.toNat by omega]
    rw [if_pos (by omega), hof _ rfl]
  · have hr := leRead_leBytes 4 n.toNat rest (by omega)
    simp only [List.cons_append, compactDecode, hr, Option.bind_some]
    rw [if_pos (by decide), if_pos (by omega), hof _ rfl]
    rfl

theorem ofNat_eq_of_toNat {b : UInt8} {x : Nat} (h : x = b.toNat) : UInt8.ofNat x = b := by
  subst h
  exact UInt8.ofNat_toNat

/-- The number read in a shifted-number mode is the number the encoder shifts: its low byte is the first byte. -/
theorem leRead_shifted {w : Nat} {b : UInt8} {bs rest : List UInt8} {x : Nat}
    (h : leRead (w + 1) (b :: bs) = some (x, rest)) :
    x < 256 ^ (w + 1) ∧ x % 4 = b.toNat % 4 ∧ b :: bs = leBytes (w + 1) x ++ rest := by
  obtain ⟨hlt, hbs⟩ := leRead_eq_some (w + 1) (b :: bs) x rest h
  refine ⟨hlt, ?_, hbs⟩
  rw [leBytes_succ, List.cons_append, List.cons.injEq] at hbs
  rw [hbs.1, UInt8.toNat_ofNat']
  omega

/-- A mode of `compactDecode` that reads a number returns it only from the smallest number that needs the mode. -/
theorem bind_guard_eq_some (v : Nat → Nat) {read : Option (Nat × List UInt8)} {lo : Nat} {n : UInt32}
    {rest : List UInt8}
    (h : read.bind (fun r => if lo ≤ v r.1 then some (UInt32.ofNat (v r.1), r.2) else none) = some (n, rest)) :
    ∃ x, read = some (x, rest) ∧ lo ≤ v x ∧ n = UInt32.ofNat (v x) := by
  obtain ⟨⟨x, r⟩, hx, hf⟩ := Option.bind_eq_some_iff.mp h
  have hlo : lo ≤ v x := by
    by_contra hc
    simp only [if_neg hc, reduceCtorEq] at hf
  simp only [if_pos hlo, Option.some.injEq, Prod.mk.injEq] at hf
  obtain ⟨rfl, rfl⟩ := hf
  exact ⟨x, hx, hlo, rfl⟩

theorem compactDecode_canonical (bs : List UInt8) (n : UInt32) (rest : List UInt8)
    (h : compactDecode bs = some (n, rest)) : bs = compactEncode n ++ rest := by
  match bs with
  | [] => simp [compactDecode] at h
  | b :: bs =>
    have hb := UInt8.toNat_lt b
    simp only [compactDecode] at h
    split at h
    · rename_i hm
      simp only [Option.some.injEq, Prod.mk.injEq] at h
      obtain ⟨rfl, rfl⟩ := h
      have hv : (UInt32.ofNat (b.toNat / 4)).toNat = b.toNat / 4 := by
        simp only [UInt32.toNat_ofNat']
        omega
      have hb0 : UInt8.ofNat (4 * (b.toNat / 4)) = b := ofNat_eq_of_toNat (by omega)
      rw [compactEncode, if_pos (by omega), hv, leBytes_succ, hb0]
      rfl
    · rename_i hm
      obtain ⟨x, hx, hlo, rfl⟩ := bind_guard_eq_some (· / 4) h
      obtain ⟨hlt, hmod, hbs⟩ := leRead_shifted hx
      have hv : (UInt32.ofNat (x / 4)).toNat = x / 4 := by
        simp only [UInt32.toNat_ofNat']
        omega
      rw [compactEncode, if_neg (by omega), if_pos (by omega), hv, show 4 * (x / 4) + 1 = x by omega]
      exact hbs
    · rename_i hm
      obtain ⟨x, hx, hlo, rfl⟩ := bind_guard_eq_some (· / 4) h
      obtain ⟨hlt, hmod, hbs⟩ := leRead_shifted hx
      have hv : (UInt32.ofNat (x / 4)).toNat = x / 4 := by
        simp only [UInt32.toNat_ofNat']
        omega
      rw [compactEncode, if_neg (by omega), if_neg (by omega), if_pos (by omega), hv,
        show 4 * (x / 4) + 2 = x by omega]
      exact hbs
    · rename_i h0 h1 h2
      split_ifs at h with hz
      obtain ⟨x, hx, hlo, rfl⟩ := bind_guard_eq_some id h
      dsimp only [id] at hlo ⊢
      obtain ⟨hlt, hbs⟩ := leRead_eq_some 4 bs x rest hx
      have hv : (UInt32.ofNat x).toNat = x := by
        simp only [UInt32.toNat_ofNat']
        omega
      have hb3 : b = 3 := by
        apply UInt8.toNat_inj.mp
        have : b.toNat % 4 ≠ 0 := h0
        have : b.toNat % 4 ≠ 1 := h1
        have : b.toNat % 4 ≠ 2 := h2
        simp only [UInt8.toNat_ofNat]
        omega
      rw [compactEncode, if_neg (by omega), if_neg (by omega), if_neg (by omega), hv, hb3, hbs]
      rfl

theorem scaleCompact_lawful : scaleCompact.Lawful where
  decode_encode := compactDecode_compactEncode
  decode_canonical := compactDecode_canonical
  decode_nil := rfl

end CoreChain

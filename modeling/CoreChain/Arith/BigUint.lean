import CoreChain.Lib.Limbs
import CoreChain.Arith.Rational

/-!
# Big unsigned integers

`BigUint` of `sp_arithmetic` (`biguint.rs`): a vector of 32-bit limbs, most significant first, in base
`B = 2 ^ 32`. The limb loops index it from the least significant end (`get`, `set`, `checked_get`); a `Double` is a
`u64`, and every `Double` the loops form fits one (at most `B ^ 2 - 1`), so it is a number here.

Each carry loop keeps one equation between the value written so far, its carry and the low parts of the operands
(`addLoop_spec`, `subLoop_spec`, `mulInner_spec`, `mulOuter_spec`); at the end of the loop the low parts are the
whole operands. `cmp` skips leading zero limbs, then compares lengths, then limbs (`cmp_eq_compare`).

`Rational128`'s `Ord` and `PartialEq` cross-multiply through `to_big_uint` and `BigUint::mul`.
-/

namespace CoreChain.Arith

open Limbs

/-- `Single`, a limb. -/
abbrev Single := Fin (2 ^ 32)

/-- `x as Single`: the low 32 bits. -/
def asSingle (x : Nat) : Single :=
  ⟨x % 2 ^ 32, Nat.mod_lt _ (by decide)⟩

/-- `biguint::split`: the high and the low limb of a `Double`. -/
def splitDouble (a : Fin (2 ^ 64)) : Single × Single :=
  (asSingle (a.val / 2 ^ 32), asSingle a.val)

/-- `BigUint`: limbs, most significant first. -/
structure BigUint where
  digits : List Single
  deriving DecidableEq, Repr

namespace BigUint

/-- The number the limbs stand for. -/
def value (self : BigUint) : Nat :=
  Limbs.value self.digits

/-- `with_capacity`: `size` zero limbs, at least one. -/
def withCapacity (size : Nat) : BigUint :=
  ⟨List.replicate (max size 1) 0⟩

/-- `Zero::zero`: one zero limb. -/
def zero : BigUint :=
  ⟨[0]⟩

/-- `from_limbs`. -/
def fromLimbs (limbs : List Single) : BigUint :=
  if limbs ≠ [] then ⟨limbs⟩ else zero

/-- `len`. -/
def len (self : BigUint) : Nat :=
  self.digits.length

/-- `get`: the limb of weight `B ^ index` (the source indexes the vector directly and panics past the end). -/
def get (self : BigUint) (index : Nat) : Single :=
  self.digits.getD (self.len - 1 - index) 0

/-- `checked_get`: `len - 1` and then `- index` with `checked_sub`, then `Vec::get`. -/
def checkedGet (self : BigUint) (index : Nat) : Option Single := do
  let i ← if 1 ≤ self.len then some (self.len - 1) else none
  let j ← if index ≤ i then some (i - index) else none
  self.digits[j]?

/-- `set`: the limb of weight `B ^ index`. -/
def set (self : BigUint) (index : Nat) (value : Single) : BigUint :=
  ⟨self.digits.set (self.len - 1 - index) value⟩

/-- `msb`. -/
def msb (self : BigUint) : Single :=
  self.digits.getD 0 0

/-- `lstrip`: drop the leading zero limbs, keeping at least one. -/
def lstrip (self : BigUint) : BigUint :=
  if self.len = 0 then self
  else
    let index := (self.digits.findIdx? (· ≠ 0)).getD (self.len - 1)
    if 0 < index then ⟨self.digits.drop index⟩ else self

/-- `lpad`: zero limbs in front up to `size`. -/
def lpad (self : BigUint) (size : Nat) : BigUint :=
  if size ≤ self.len then self else ⟨List.replicate (size - self.len) 0 ++ self.digits⟩

/-! ## Addition, subtraction, multiplication -/

/-- The body of `add`'s loop at limb `j`, with the carry `k`; `B` is `2 ^ 32`. -/
def addStep (self other : BigUint) (acc : BigUint × Nat) (j : Nat) : BigUint × Nat :=
  let u := ((self.checkedGet j).getD 0).val
  let v := ((other.checkedGet j).getD 0).val
  let s := u + v + acc.2
  (acc.1.set j (asSingle (s % 2 ^ 32)), s / 2 ^ 32)

/-- `add`: limb by limb with a carry, into `n + 1` limbs. -/
def add (self other : BigUint) : BigUint :=
  let n := max self.len other.len
  let acc := (List.range n).foldl (addStep self other) (withCapacity (n + 1), 0)
  acc.1.set n (asSingle acc.2)

/-- The body of `sub`'s loop at limb `j`, with the borrow `k`: `u - v - k` where both `checked_sub`s succeed,
`u + B - v - k` with a borrow otherwise. -/
def subStep (self other : BigUint) (acc : BigUint × Nat) (j : Nat) : BigUint × Nat :=
  let u := ((self.checkedGet j).getD 0).val
  let v := ((other.checkedGet j).getD 0).val
  if v ≤ u ∧ acc.2 ≤ u - v then (acc.1.set j (asSingle (u - v - acc.2)), 0)
  else (acc.1.set j (asSingle (u + 2 ^ 32 - v - acc.2)), 1)

/-- `sub`: `Ok` without a final borrow, `Err` with the wrapped difference otherwise. -/
def sub (self other : BigUint) : Except BigUint BigUint :=
  let n := max self.len other.len
  let acc := (List.range n).foldl (subStep self other) (withCapacity n, 0)
  if acc.2 = 0 then .ok acc.1 else .error acc.1

/-- The inner loop of `mul` at limb `i` of `other`, for limb `j` of `self`, with the carry `k`. -/
def mulInner (self other : BigUint) (j : Nat) (acc : BigUint × Single) (i : Nat) : BigUint × Single :=
  let t := (self.get j).val * (other.get i).val + (acc.1.get (i + j)).val + acc.2.val
  (acc.1.set (i + j) (asSingle (t % 2 ^ 32)), asSingle (t / 2 ^ 32))

/-- The outer loop of `mul` at limb `j` of `self`: skipped for a zero limb, otherwise the inner loop and the final
carry at `j + m`. -/
def mulOuter (self other : BigUint) (w : BigUint) (j : Nat) : BigUint :=
  if self.get j = 0 then w
  else
    let acc := (List.range other.len).foldl (mulInner self other j) (w, 0)
    acc.1.set (j + other.len) acc.2

/-- `mul`: schoolbook multiplication into `m + n` limbs. -/
def mul (self other : BigUint) : BigUint :=
  (List.range self.len).foldl (mulOuter self other) (withCapacity (other.len + self.len))

/-! ## Order -/

/-- `Ord for BigUint`: skip the leading zero limbs; all zero is the least; then the longer is larger, and limbs of
one length compare lexicographically. -/
def cmp (self other : BigUint) : Ordering :=
  match self.digits.findIdx? (· ≠ 0), other.digits.findIdx? (· ≠ 0) with
  | none, none => .eq
  | some _, none => .gt
  | none, some _ => .lt
  | some lhsIdx, some rhsIdx =>
    let lhs := self.digits.drop lhsIdx
    let rhs := other.digits.drop rhsIdx
    match compare lhs.length rhs.length with
    | .eq => compare lhs rhs
    | lenCmp => lenCmp

/-- `PartialEq for BigUint`. -/
def eq (self other : BigUint) : Bool :=
  self.cmp other == .eq

end BigUint

/-! ## Limbs by weight -/

namespace BigUint

theorem val_asSingle {x : Nat} (h : x < 2 ^ 32) : (asSingle x).val = x :=
  Nat.mod_eq_of_lt h

theorem val_checkedGet_getD (x : BigUint) (j : Nat) : ((x.checkedGet j).getD 0).val = digit x.digits j := by
  unfold checkedGet digit len
  by_cases hj : j < x.digits.length
  · rw [dif_pos hj, if_pos (by omega)]
    simp only [Option.bind_eq_bind, Option.bind_some]
    rw [if_pos (by omega), List.getElem?_eq_getElem (by omega)]
    rfl
  · rw [dif_neg hj]
    by_cases h1 : 1 ≤ x.digits.length
    · simp only [Option.bind_eq_bind, if_pos h1, Option.bind_some]
      rw [if_neg (by omega)]
      rfl
    · simp only [Option.bind_eq_bind, if_neg h1, Option.bind_none]
      rfl

theorem val_get {x : BigUint} {j : Nat} (hj : j < x.len) : (x.get j).val = digit x.digits j := by
  unfold get digit len at *
  rw [dif_pos hj, List.getD_eq_getElem?_getD, List.getElem?_eq_getElem (by omega)]
  rfl

@[simp] theorem digits_set (x : BigUint) (j : Nat) (v : Single) : (x.set j v).digits = setDigit x.digits j v := rfl

@[simp] theorem len_set (x : BigUint) (j : Nat) (v : Single) : (x.set j v).len = x.len :=
  List.length_set

@[simp] theorem len_withCapacity (size : Nat) : (withCapacity size).len = max size 1 :=
  List.length_replicate

@[simp] theorem digit_withCapacity (size i : Nat) : digit (withCapacity size).digits i = 0 :=
  digit_replicate_zero _ _

@[simp] theorem value_withCapacity (size : Nat) : (withCapacity size).value = 0 :=
  value_replicate_zero _

theorem low_of_len_le {x : BigUint} {n : Nat} (h : x.len ≤ n) : low x.digits n = x.value :=
  low_of_length_le h

/-! ## `add` -/

/-- What `add`'s loop keeps after `j` limbs, writing into `n + 1` limbs: the limbs from `j` up are still zero, the
carry is a bit, and the value written plus the carry at weight `B ^ j` is the sum of the low parts. -/
def AddInv (self other : BigUint) (n j : Nat) (acc : BigUint × Nat) : Prop :=
  acc.1.len = n + 1 ∧ (∀ i, j ≤ i → digit acc.1.digits i = 0) ∧ acc.2 ≤ 1 ∧
    acc.1.value + acc.2 * (2 ^ 32) ^ j = low self.digits j + low other.digits j

theorem addStep_inv (self other : BigUint) {n j : Nat} (hj : j < n) {acc : BigUint × Nat}
    (h : AddInv self other n j acc) : AddInv self other n (j + 1) (addStep self other acc j) := by
  obtain ⟨hlen, hzero, hk, hval⟩ := h
  have hu := digit_lt self.digits j (Nat.two_pow_pos 32)
  have hv := digit_lt other.digits j (Nat.two_pow_pos 32)
  have hjw : j < acc.1.digits.length := by unfold len at hlen; omega
  -- the sum of two limbs and a carry bit, split into a limb and a carry bit
  have hsum := value_setDigit_carry hjw (v := asSingle ((digit self.digits j + digit other.digits j + acc.2) % 2 ^ 32))
    (c := (digit self.digits j + digit other.digits j + acc.2) / 2 ^ 32)
    (x := digit self.digits j + digit other.digits j + acc.2)
    (by rw [val_asSingle (Nat.mod_lt _ (Nat.two_pow_pos 32)), hzero j (Nat.le_refl j), Nat.zero_add, Nat.mod_add_div'])
  refine ⟨?_, fun i hi => ?_, ?_, ?_⟩
  · simp only [addStep, len_set, hlen]
  · simp only [addStep, digits_set, val_checkedGet_getD]
    rw [digit_setDigit hjw, if_neg (by omega)]
    exact hzero i (by omega)
  · simp only [addStep, val_checkedGet_getD]
    omega
  · unfold value at hval ⊢
    simp only [addStep, digits_set, val_checkedGet_getD]
    rw [hsum, low_succ, low_succ, Nat.add_mul, Nat.add_mul]
    omega

theorem value_add (self other : BigUint) : (self.add other).value = self.value + other.value := by
  unfold add
  dsimp only
  generalize hn : max self.len other.len = n
  have hinv : AddInv self other n n
      ((List.range n).foldl (addStep self other) (withCapacity (n + 1), 0)) :=
    foldl_range_invariant ⟨by simp, fun i _ => by simp, Nat.zero_le _, by simp⟩
      (fun j acc hj h => addStep_inv self other hj h)
  generalize (List.range n).foldl (addStep self other) (withCapacity (n + 1), 0) = acc at hinv
  obtain ⟨hlen, hzero, hk, hval⟩ := hinv
  -- the last carry goes into limb `n`, still zero
  have hset := value_setDigit (L := acc.1.digits) (j := n) (by unfold len at hlen; omega) (asSingle acc.2)
  rw [hzero n (Nat.le_refl n), val_asSingle (by omega), Nat.zero_mul, Nat.add_zero] at hset
  rw [low_of_len_le (by omega), low_of_len_le (by omega)] at hval
  unfold value at hval ⊢
  rw [digits_set, hset, hval]

/-! ## `sub` -/

/-- What `sub`'s loop keeps after `j` limbs, writing into `n` limbs: the limbs from `j` up are still zero, the borrow
is a bit, and the value written plus the low part of `other` is the low part of `self` plus the borrow at weight
`B ^ j`. -/
def SubInv (self other : BigUint) (n j : Nat) (acc : BigUint × Nat) : Prop :=
  acc.1.len = max n 1 ∧ (∀ i, j ≤ i → digit acc.1.digits i = 0) ∧ acc.2 ≤ 1 ∧
    acc.1.value + low other.digits j = low self.digits j + acc.2 * (2 ^ 32) ^ j

theorem subStep_inv (self other : BigUint) {n j : Nat} (hj : j < n) {acc : BigUint × Nat}
    (h : SubInv self other n j acc) : SubInv self other n (j + 1) (subStep self other acc j) := by
  obtain ⟨hlen, hzero, hk, hval⟩ := h
  have hu := digit_lt self.digits j (Nat.two_pow_pos 32)
  have hv := digit_lt other.digits j (Nat.two_pow_pos 32)
  have hjw : j < acc.1.digits.length := by unfold len at hlen; omega
  have hpow : (2 ^ 32) ^ (j + 1) = 2 ^ 32 * (2 ^ 32) ^ j := by rw [Nat.pow_succ, Nat.mul_comm]
  unfold value at hval
  unfold SubInv subStep value
  simp only [val_checkedGet_getD]
  split
  · -- no borrow: `u - v - k` is a limb
    rename_i hle
    have hset := value_setDigit hjw (asSingle (digit self.digits j - digit other.digits j - acc.2))
    rw [hzero j (Nat.le_refl j), val_asSingle (by omega), Nat.zero_mul, Nat.add_zero] at hset
    have hmul : (digit self.digits j - digit other.digits j - acc.2) * (2 ^ 32) ^ j +
        digit other.digits j * (2 ^ 32) ^ j + acc.2 * (2 ^ 32) ^ j = digit self.digits j * (2 ^ 32) ^ j := by
      rw [← Nat.add_mul, ← Nat.add_mul]
      congr 1
      omega
    refine ⟨by simp only [len_set, hlen], fun i hi => ?_, Nat.zero_le _, ?_⟩
    · rw [digits_set, digit_setDigit hjw, if_neg (by omega)]
      exact hzero i (by omega)
    · rw [digits_set, hset, low_succ, low_succ]
      omega
  · -- a borrow: `u + B - v - k` is a limb
    rename_i hlt
    have hset := value_setDigit hjw (asSingle (digit self.digits j + 2 ^ 32 - digit other.digits j - acc.2))
    rw [hzero j (Nat.le_refl j), val_asSingle (by omega), Nat.zero_mul, Nat.add_zero] at hset
    have hmul : (digit self.digits j + 2 ^ 32 - digit other.digits j - acc.2) * (2 ^ 32) ^ j +
        digit other.digits j * (2 ^ 32) ^ j + acc.2 * (2 ^ 32) ^ j =
          digit self.digits j * (2 ^ 32) ^ j + 2 ^ 32 * (2 ^ 32) ^ j := by
      rw [← Nat.add_mul, ← Nat.add_mul, ← Nat.add_mul]
      congr 1
      omega
    refine ⟨by simp only [len_set, hlen], fun i hi => ?_, Nat.le_refl _, ?_⟩
    · rw [digits_set, digit_setDigit hjw, if_neg (by omega)]
      exact hzero i (by omega)
    · rw [digits_set, hset, low_succ, low_succ, hpow]
      omega

/-- `sub` is `Ok` with the difference exactly when `other` is at most `self`, and otherwise `Err` with the
difference wrapped at `B ^ n`, `n` the longer length. -/
theorem value_sub (self other : BigUint) :
    match self.sub other with
    | .ok w => other.value ≤ self.value ∧ w.value = self.value - other.value
    | .error w => self.value < other.value ∧
        w.value = (2 ^ 32) ^ max self.len other.len + self.value - other.value := by
  unfold sub
  dsimp only
  generalize hn : max self.len other.len = n
  have hinv : SubInv self other n n ((List.range n).foldl (subStep self other) (withCapacity n, 0)) :=
    foldl_range_invariant ⟨by simp, fun i _ => by simp, Nat.zero_le _, by simp⟩
      (fun j acc hj h => subStep_inv self other hj h)
  -- with no limb there is no borrow
  have hk0 : n = 0 → ((List.range n).foldl (subStep self other) (withCapacity n, 0)).2 = 0 := by
    intro h
    subst h
    rfl
  generalize (List.range n).foldl (subStep self other) (withCapacity n, 0) = acc at hinv hk0
  obtain ⟨hlen, hzero, hk, hval⟩ := hinv
  rw [low_of_len_le (by omega), low_of_len_le (by omega)] at hval
  split
  · rename_i w hw
    split at hw
    · rename_i hk'
      cases hw
      rw [hk', Nat.zero_mul, Nat.add_zero] at hval
      omega
    · cases hw
  · rename_i w hw
    split at hw
    · cases hw
    · rename_i hk'
      cases hw
      have hn1 : 1 ≤ n := by
        rcases Nat.eq_zero_or_pos n with h | h
        · exact absurd (hk0 h) hk'
        · exact h
      have hk1 : acc.2 = 1 := by omega
      -- the wrapped difference is a vector of `n` limbs
      have hlt := Limbs.value_lt acc.1.digits
      unfold len at hlen
      rw [hlen, Nat.max_eq_left hn1] at hlt
      rw [hk1, Nat.one_mul] at hval
      unfold value at hval ⊢
      omega

/-! ## `mul` -/

/-- What the inner loop of `mul` keeps after `i` limbs of `other`, for limb `j` of `self`, from `w`: the limbs from `i +
j` up are `w`'s, and the value written plus the carry at weight `B ^ (i + j)` is `w` plus limb `j` of `self` times the
low part of `other`, at weight `B ^ j`. -/
def MulInnerInv (self other : BigUint) (j : Nat) (w : BigUint) (i : Nat) (acc : BigUint × Single) : Prop :=
  acc.1.len = w.len ∧ (∀ p, i + j ≤ p → digit acc.1.digits p = digit w.digits p) ∧
    acc.1.value + acc.2.val * (2 ^ 32) ^ (i + j) =
      w.value + digit self.digits j * low other.digits i * (2 ^ 32) ^ j

/-- A limb product plus two limbs fits a `Double`, and its carry a limb. -/
theorem limb_mul_add_add_lt {a b c k : Nat} (ha : a < 2 ^ 32) (hb : b < 2 ^ 32) (hc : c < 2 ^ 32)
    (hk : k < 2 ^ 32) : (a * b + c + k) / 2 ^ 32 < 2 ^ 32 := by
  have hab : a * b ≤ (2 ^ 32 - 1) * (2 ^ 32 - 1) := Nat.mul_le_mul (by omega) (by omega)
  exact Nat.div_lt_of_lt_mul (by omega)

theorem mulInner_inv (self other : BigUint) {j i : Nat} {w : BigUint} (hj : j < self.len) (hi : i < other.len)
    (hw : i + j < w.len) {acc : BigUint × Single} (h : MulInnerInv self other j w i acc) :
    MulInnerInv self other j w (i + 1) (mulInner self other j acc i) := by
  obtain ⟨hlen, hsame, hval⟩ := h
  have hpos : i + j < acc.1.len := by omega
  have hw' : i + j < acc.1.digits.length := hpos
  have ha := digit_lt self.digits j (Nat.two_pow_pos 32)
  have hb := digit_lt other.digits i (Nat.two_pow_pos 32)
  have hc := digit_lt acc.1.digits (i + j) (Nat.two_pow_pos 32)
  have hcarry := limb_mul_add_add_lt ha hb hc acc.2.isLt
  -- limb `i + j` takes the product, the old limb and the carry; the new carry goes one weight up
  have hsum := value_setDigit_carry hw'
    (v := asSingle ((digit self.digits j * digit other.digits i + digit acc.1.digits (i + j) + acc.2.val) % 2 ^ 32))
    (c := (digit self.digits j * digit other.digits i + digit acc.1.digits (i + j) + acc.2.val) / 2 ^ 32)
    (x := digit self.digits j * digit other.digits i + acc.2.val)
    (by rw [val_asSingle (Nat.mod_lt _ (Nat.two_pow_pos 32)), Nat.mod_add_div']; omega)
  unfold MulInnerInv mulInner
  rw [val_get hj, val_get hi, val_get hpos, val_asSingle hcarry]
  refine ⟨by simp only [len_set, hlen], fun p hp => ?_, ?_⟩
  · rw [digits_set, digit_setDigit hw', if_neg (by omega)]
    exact hsame p (by omega)
  · unfold value at hval hsum ⊢
    rw [digits_set, show i + 1 + j = i + j + 1 by omega, hsum, low_succ]
    have hexp : digit self.digits j * (low other.digits i + digit other.digits i * (2 ^ 32) ^ i) * (2 ^ 32) ^ j =
        digit self.digits j * low other.digits i * (2 ^ 32) ^ j +
          digit self.digits j * digit other.digits i * (2 ^ 32) ^ (i + j) := by
      rw [Nat.pow_add]
      ring
    rw [hexp, Nat.add_mul]
    omega

/-- What `mul`'s outer loop keeps after `j` limbs of `self`, writing into `m + n` limbs: the limbs from `j + m` up are
still zero, and the value written is the low part of `self` times `other`. -/
def MulOuterInv (self other : BigUint) (j : Nat) (w : BigUint) : Prop :=
  w.len = max (other.len + self.len) 1 ∧ (∀ p, j + other.len ≤ p → digit w.digits p = 0) ∧
    w.value = low self.digits j * other.value

theorem mulOuter_inv (self other : BigUint) {j : Nat} (hj : j < self.len) {w : BigUint}
    (h : MulOuterInv self other j w) : MulOuterInv self other (j + 1) (mulOuter self other w j) := by
  obtain ⟨hlen, hzero, hval⟩ := h
  unfold mulOuter
  split
  · -- a zero limb adds nothing
    rename_i h0
    have hd : digit self.digits j = 0 := by rw [← val_get hj, h0]; rfl
    refine ⟨hlen, fun p hp => hzero p (by omega), ?_⟩
    rw [low_succ, hd, Nat.zero_mul, Nat.add_zero]
    exact hval
  · have hfits : ∀ i, i < other.len → i + j < w.len := by
      intro i hi
      rw [hlen]
      omega
    have hinner : MulInnerInv self other j w other.len
        ((List.range other.len).foldl (mulInner self other j) (w, 0)) :=
      foldl_range_invariant ⟨rfl, fun p _ => rfl, by simp⟩
        (fun i acc hi h => mulInner_inv self other hj hi (hfits i hi) h)
    generalize (List.range other.len).foldl (mulInner self other j) (w, 0) = acc at hinner
    obtain ⟨hlen', hsame, hval'⟩ := hinner
    have hjm : j + other.len < acc.1.digits.length := by unfold len at hlen' hlen hj ⊢; omega
    -- the last carry goes into limb `j + m`, still zero
    have hset := value_setDigit hjm acc.2
    rw [hsame (j + other.len) (by omega), hzero (j + other.len) (Nat.le_refl _), Nat.zero_mul,
      Nat.add_zero] at hset
    refine ⟨by simp only [len_set, hlen', hlen], fun p hp => ?_, ?_⟩
    · rw [digits_set, digit_setDigit hjm, if_neg (by omega), hsame p (by omega)]
      exact hzero p (by omega)
    · rw [low_of_len_le (Nat.le_refl _)] at hval'
      unfold value at hval hval' ⊢
      rw [digits_set, hset, show j + other.len = other.len + j by omega, hval', hval, low_succ]
      ring

theorem value_mul (self other : BigUint) : (self.mul other).value = self.value * other.value := by
  have hinv : MulOuterInv self other self.len (self.mul other) :=
    foldl_range_invariant ⟨by simp, fun p _ => by simp, by simp⟩
      (fun j w hj h => mulOuter_inv self other hj h)
  rw [hinv.2.2, low_of_len_le (Nat.le_refl _)]

/-! ## Leading zeros and `cmp` -/

/-- The limbs before the first non-zero one are zero, whatever the default index. -/
theorem zero_of_lt_findIdx {L : List Single} (k : Nat) {j : Nat} (hj : j < L.length)
    (hlt : j < (L.findIdx? (· ≠ 0)).getD k) : L[j].val = 0 := by
  cases h : L.findIdx? (· ≠ 0) with
  | none =>
    have hall := List.findIdx?_eq_none_iff.1 h L[j] (List.getElem_mem hj)
    simpa using hall
  | some l =>
    rw [h, Option.getD_some] at hlt
    obtain ⟨hl, hp, hbefore⟩ := List.findIdx?_eq_some_iff_getElem.1 h
    have := hbefore j hlt
    simp only [ne_eq, decide_eq_true_eq, Decidable.not_not] at this
    rw [this]
    rfl

theorem value_eq_zero_of_findIdx_none {L : List Single} (h : L.findIdx? (· ≠ 0) = none) : Limbs.value L = 0 := by
  have hdrop := value_drop_of_zero (L := L) (i := L.length)
    (fun j hj _ => zero_of_lt_findIdx L.length hj (by rw [h, Option.getD_none]; exact hj))
  rw [List.drop_length, Limbs.value_nil] at hdrop
  exact hdrop.symm

/-- From the first non-zero limb on, the limbs start with a non-zero one and stand for the whole value. -/
theorem drop_findIdx_some {L : List Single} {l : Nat} (h : L.findIdx? (· ≠ 0) = some l) :
    ∃ d M, L.drop l = d :: M ∧ d.val ≠ 0 ∧ Limbs.value (L.drop l) = Limbs.value L := by
  obtain ⟨hl, hne, -⟩ := List.findIdx?_eq_some_iff_getElem.1 h
  refine ⟨L[l], L.drop (l + 1), List.drop_eq_getElem_cons hl, ?_, ?_⟩
  · simp only [ne_eq, decide_eq_true_eq] at hne
    exact fun h0 => hne (Fin.ext h0)
  · exact value_drop_of_zero fun j hj hjl => zero_of_lt_findIdx 0 hj (by rw [h, Option.getD_some]; exact hjl)

/-- `cmp` is the order of the values, for vectors of any lengths, leading zeros included. -/
theorem cmp_eq_compare (self other : BigUint) : self.cmp other = compare self.value other.value := by
  unfold cmp value
  cases hx : self.digits.findIdx? (· ≠ 0) with
  | none =>
    rw [value_eq_zero_of_findIdx_none hx]
    cases hy : other.digits.findIdx? (· ≠ 0) with
    | none => rw [value_eq_zero_of_findIdx_none hy]; rfl
    | some r =>
      obtain ⟨e, N, hdrop, he, hval⟩ := drop_findIdx_some hy
      have hpos := pow_le_value_cons he N
      rw [← hdrop, hval] at hpos
      exact ((compare_lt_iff_lt).2 (lt_of_lt_of_le (Nat.pow_pos (Nat.two_pow_pos 32)) hpos)).symm
  | some l =>
    obtain ⟨d, M, hdropx, hd, hvalx⟩ := drop_findIdx_some hx
    have hposx := pow_le_value_cons hd M
    rw [← hdropx, hvalx] at hposx
    cases hy : other.digits.findIdx? (· ≠ 0) with
    | none =>
      rw [value_eq_zero_of_findIdx_none hy]
      exact ((compare_gt_iff_gt).2 (lt_of_lt_of_le (Nat.pow_pos (Nat.two_pow_pos 32)) hposx)).symm
    | some r =>
      obtain ⟨e, N, hdropy, he, hvaly⟩ := drop_findIdx_some hy
      dsimp only
      rw [← hvalx, ← hvaly, hdropx, hdropy]
      -- stripped vectors: the longer is larger, and of one length the limbs decide
      rcases lt_trichotomy (d :: M).length (e :: N).length with hlen | hlen | hlen
      · rw [(compare_lt_iff_lt).2 hlen, (compare_lt_iff_lt).2 (value_lt_of_length_lt he hlen)]
      · rw [(compare_eq_iff_eq).2 hlen, compare_eq_compare_value hlen]
      · rw [(compare_gt_iff_gt).2 hlen, (compare_gt_iff_gt).2 (value_lt_of_length_lt hd hlen)]

theorem value_lstrip (x : BigUint) : x.lstrip.value = x.value := by
  unfold lstrip
  split
  · rfl
  · dsimp only
    split
    · exact value_drop_of_zero fun j hj hji => zero_of_lt_findIdx _ hj hji
    · rfl

end BigUint

/-- `to_big_uint`: a `u128` as four limbs, stripped. -/
def toBigUint (x : U128) : BigUint :=
  let (xh, xl) := split x
  let (xhh, xhl) := splitDouble xh
  let (xlh, xll) := splitDouble xl
  (BigUint.fromLimbs [xhh, xhl, xlh, xll]).lstrip

theorem value_toBigUint (x : U128) : (toBigUint x).value = x.val := by
  unfold toBigUint
  dsimp only [split, splitDouble]
  rw [BigUint.value_lstrip]
  unfold BigUint.fromLimbs BigUint.value
  rw [if_pos (List.cons_ne_nil _ _)]
  simp only [Limbs.value_cons, Limbs.value_nil, List.length_cons, List.length_nil, asSingle]
  have hx := x.isLt
  omega

/-! ## The order of `Rational128` -/

namespace Rational128

/-- `Ord for Rational128`: equal denominators compare the numerators; a zero denominator is the largest; otherwise
`n1 * d2` against `n2 * d1`, as `BigUint`s. -/
def cmp (self other : Rational128) : Ordering :=
  if self.d = other.d then compare self.n other.n
  else if self.d = 0 then .gt
  else if other.d = 0 then .lt
  else
    let selfN := (toBigUint self.n).mul (toBigUint other.d)
    let otherN := (toBigUint other.n).mul (toBigUint self.d)
    selfN.cmp otherN

/-- `PartialEq for Rational128`: equal denominators compare the numerators, otherwise the cross products. -/
def eq (self other : Rational128) : Bool :=
  if self.d = other.d then self.n == other.n
  else
    let selfN := (toBigUint self.n).mul (toBigUint other.d)
    let otherN := (toBigUint other.n).mul (toBigUint self.d)
    selfN.eq otherN

/-- Fractions with positive denominators compare as their cross products. -/
theorem compare_div_div (a c b d : Nat) (hc : 0 < c) (hd : 0 < d) :
    compare ((a : ℚ) / c) ((b : ℚ) / d) = compare (a * d) (b * c) := by
  have hc' : (0 : ℚ) < c := by exact_mod_cast hc
  have hd' : (0 : ℚ) < d := by exact_mod_cast hd
  refine compare_eq_of_iff ?_ ?_
  · rw [div_lt_div_iff₀ hc' hd']
    exact_mod_cast Iff.rfl
  · rw [div_eq_div_iff hc'.ne' hd'.ne']
    exact_mod_cast Iff.rfl

/-- The cross products through `BigUint` compare as the numbers do. -/
theorem cmp_cross (x y : Rational128) :
    ((toBigUint x.n).mul (toBigUint y.d)).cmp ((toBigUint y.n).mul (toBigUint x.d)) =
      compare (x.n.val * y.d.val) (y.n.val * x.d.val) := by
  rw [BigUint.cmp_eq_compare, BigUint.value_mul, BigUint.value_mul, value_toBigUint, value_toBigUint,
    value_toBigUint, value_toBigUint]

end Rational128

/-- For rationals with positive denominators, `cmp` is their order and `==` the equality of the cross products; under
them, `to_big_uint` keeps every `u128`, `BigUint::mul` is exact and `BigUint::cmp` is the order of the values, for
vectors of any length, leading zeros included. -/
theorem rational_cmp_exact (x y : Rational128) (hx : 0 < x.d.val) (hy : 0 < y.d.val) :
    x.cmp y = compare ((x.n.val : ℚ) / x.d.val) ((y.n.val : ℚ) / y.d.val) ∧
    (x.eq y = true ↔ x.n.val * y.d.val = y.n.val * x.d.val) ∧
    (∀ a : U128, (toBigUint a).value = a.val) ∧
    (∀ a b : BigUint, (a.mul b).value = a.value * b.value) ∧
    (∀ a b : BigUint, a.cmp b = compare a.value b.value) := by
  refine ⟨?_, ?_, value_toBigUint, BigUint.value_mul, BigUint.cmp_eq_compare⟩
  · rw [Rational128.compare_div_div _ _ _ _ hx hy]
    unfold Rational128.cmp
    split
    · -- one denominator: the numerators decide
      rename_i hd
      rw [hd]
      exact compare_eq_of_iff (Fin.lt_def.trans (Nat.mul_lt_mul_right hy).symm)
        (Fin.ext_iff.trans (Nat.mul_left_inj hy.ne').symm)
    · rename_i hd
      rw [if_neg (fun h => by rw [h] at hx; exact Nat.lt_irrefl 0 hx),
        if_neg (fun h => by rw [h] at hy; exact Nat.lt_irrefl 0 hy)]
      exact Rational128.cmp_cross x y
  · unfold Rational128.eq
    split
    · rename_i hd
      rw [beq_iff_eq, hd, Fin.ext_iff]
      exact (Nat.mul_left_inj hy.ne').symm
    · dsimp only
      unfold BigUint.eq
      rw [Rational128.cmp_cross, beq_iff_eq, compare_eq_iff_eq]

theorem rational_cmp_exact_halfThird : 0 < (2 : U128).val ∧ 0 < (3 : U128).val ∧
    ((Rational128.mk 1 2).cmp ⟨1, 3⟩ = compare ((1 : ℚ) / 2) ((1 : ℚ) / 3) ∧
    ((Rational128.mk 1 2).eq ⟨1, 3⟩ = true ↔ 1 * 3 = 1 * 2) ∧
    (∀ a : U128, (toBigUint a).value = a.val) ∧
    (∀ a b : BigUint, (a.mul b).value = a.value * b.value) ∧
    (∀ a b : BigUint, a.cmp b = compare a.value b.value)) :=
  ⟨by decide, by decide, rational_cmp_exact ⟨1, 2⟩ ⟨1, 3⟩ (by decide) (by decide)⟩

end CoreChain.Arith

import Mathlib

/-!
# Digit vectors

A number written in base `b` as a list of digits `Fin b`, most significant first: `value`. Limb loops index such a
vector from the least significant end: `digit L j` is the digit of weight `b ^ j` (zero past the end),
`setDigit L j v` writes it, and `low L j` is the number the `j` lowest digits stand for.

The lemmas are what carry loops and comparisons need: writing a digit changes the value by the difference at its
weight (`value_setDigit`), the low part grows one digit at a time (`low_succ`), a vector is below the next power of
the base (`value_lt`), leading zeros do not count (`value_drop_of_zero`), a longer vector without a leading zero is
larger (`value_lt_of_length_lt`), and vectors of one length compare lexicographically as their values do
(`compare_eq_compare_value`).
-/

namespace CoreChain.Limbs

variable {b : Nat}

/-- The number a digit vector stands for, most significant digit first. -/
def value (L : List (Fin b)) : Nat :=
  Nat.ofDigits b (L.map Fin.val).reverse

/-- The digit of weight `b ^ j`, zero past the end. -/
def digit (L : List (Fin b)) (j : Nat) : Nat :=
  if h : j < L.length then L[L.length - 1 - j].val else 0

/-- The vector with its digit of weight `b ^ j` replaced. -/
def setDigit (L : List (Fin b)) (j : Nat) (v : Fin b) : List (Fin b) :=
  L.set (L.length - 1 - j) v

/-- The number the `j` lowest digits stand for. -/
def low (L : List (Fin b)) (j : Nat) : Nat :=
  value (L.drop (L.length - j))

@[simp] theorem value_nil : value ([] : List (Fin b)) = 0 := rfl

theorem value_cons (d : Fin b) (L : List (Fin b)) : value (d :: L) = d.val * b ^ L.length + value L := by
  unfold value
  rw [List.map_cons, Nat.ofDigits_reverse_cons, List.length_map, Nat.add_comm, Nat.mul_comm]

theorem value_lt (L : List (Fin b)) : value L < b ^ L.length := by
  induction L with
  | nil => simp
  | cons d L ih =>
    rw [value_cons, List.length_cons, Nat.pow_succ]
    calc d.val * b ^ L.length + value L < (d.val + 1) * b ^ L.length := by rw [Nat.succ_mul]; omega
      _ ≤ b * b ^ L.length := Nat.mul_le_mul_right _ d.isLt
      _ = b ^ L.length * b := Nat.mul_comm _ _

/-- A vector with a non-zero leading digit is at least the power of the base of its tail's length. -/
theorem pow_le_value_cons {d : Fin b} (hd : d.val ≠ 0) (L : List (Fin b)) : b ^ L.length ≤ value (d :: L) := by
  rw [value_cons]
  have : b ^ L.length ≤ d.val * b ^ L.length := Nat.le_mul_of_pos_left _ (Nat.pos_of_ne_zero hd)
  omega

theorem value_drop_of_zero {L : List (Fin b)} {i : Nat} (h : ∀ (j : Nat) (hj : j < L.length), j < i → L[j].val = 0) :
    value (L.drop i) = value L := by
  induction L generalizing i with
  | nil => simp
  | cons d L ih =>
    cases i with
    | zero => rfl
    | succ i =>
      have hd : d.val = 0 := h 0 (by simp) (by omega)
      rw [List.drop_succ_cons, value_cons, hd, Nat.zero_mul, Nat.zero_add]
      exact ih fun j hj hji => h (j + 1) (by simp; omega) (by omega)

/-- Of two vectors without a leading zero, the shorter stands for less. -/
theorem value_lt_of_length_lt {L : List (Fin b)} {e : Fin b} {M : List (Fin b)} (he : e.val ≠ 0)
    (h : L.length < (e :: M).length) : value L < value (e :: M) :=
  calc value L < b ^ L.length := value_lt L
    _ ≤ b ^ M.length := Nat.pow_le_pow_right (Nat.pos_of_ne_zero (fun hb => by subst hb; exact e.elim0)) (by
        simp only [List.length_cons] at h
        omega)
    _ ≤ value (e :: M) := pow_le_value_cons he M

/-- Two comparisons agree when their strict orders and their equalities do. -/
theorem compare_eq_of_iff {α β : Type _} [LinearOrder α] [LinearOrder β] {a c : α} {x y : β} (hlt : a < c ↔ x < y)
    (heq : a = c ↔ x = y) : compare a c = compare x y := by
  rcases lt_trichotomy a c with h | h | h
  · rw [(compare_lt_iff_lt).2 h, (compare_lt_iff_lt).2 (hlt.1 h)]
  · rw [(compare_eq_iff_eq).2 h, (compare_eq_iff_eq).2 (heq.1 h)]
  · have hnlt : ¬ x < y := fun h' => absurd (hlt.2 h') (not_lt.2 h.le)
    have hne : x ≠ y := fun h' => absurd (heq.2 h') (ne_of_gt h)
    rw [(compare_gt_iff_gt).2 h, (compare_gt_iff_gt).2 (lt_of_le_of_ne (not_lt.1 hnlt) (Ne.symm hne))]

theorem compare_cons_cons [Ord α] (a c : α) (L M : List α) :
    compare (a :: L) (c :: M) = (compare a c).then (compare L M) := by
  simp only [compare, List.compareLex]
  cases compare a c <;> rfl

/-- Two vectors of one length compare lexicographically as their values compare. -/
theorem compare_eq_compare_value {L M : List (Fin b)} (h : L.length = M.length) :
    compare L M = compare (value L) (value M) := by
  induction L generalizing M with
  | nil =>
    cases M with
    | nil => rfl
    | cons e M => cases h
  | cons d L ih =>
    cases M with
    | nil => cases h
    | cons e M =>
      have hlen : L.length = M.length := by simpa using h
      rw [compare_cons_cons, ih hlen, value_cons, value_cons, hlen]
      have hL := value_lt L
      have hM := value_lt M
      rw [hlen] at hL
      -- the leading digits decide, unless they are equal
      rcases lt_trichotomy d.val e.val with hde | hde | hde
      · have hlt : d.val * b ^ M.length + value L < e.val * b ^ M.length + value M :=
          calc d.val * b ^ M.length + value L < (d.val + 1) * b ^ M.length := by rw [Nat.succ_mul]; omega
            _ ≤ e.val * b ^ M.length := Nat.mul_le_mul_right _ hde
            _ ≤ e.val * b ^ M.length + value M := Nat.le_add_right _ _
        rw [(compare_lt_iff_lt (a := d) (b := e)).2 hde, (compare_lt_iff_lt).2 hlt]
        rfl
      · rw [(compare_eq_iff_eq (a := d) (b := e)).2 (Fin.ext hde), Ordering.eq_then, hde]
        rcases lt_trichotomy (value L) (value M) with hv | hv | hv
        · rw [(compare_lt_iff_lt).2 hv, (compare_lt_iff_lt).2 (by omega)]
        · rw [hv, (compare_eq_iff_eq).2 rfl, (compare_eq_iff_eq).2 rfl]
        · rw [(compare_gt_iff_gt).2 hv, (compare_gt_iff_gt).2 (by omega)]
      · have hgt : e.val * b ^ M.length + value M < d.val * b ^ M.length + value L :=
          calc e.val * b ^ M.length + value M < (e.val + 1) * b ^ M.length := by rw [Nat.succ_mul]; omega
            _ ≤ d.val * b ^ M.length := Nat.mul_le_mul_right _ hde
            _ ≤ d.val * b ^ M.length + value L := Nat.le_add_right _ _
        rw [(compare_gt_iff_gt (a := d) (b := e)).2 hde, (compare_gt_iff_gt).2 hgt]
        rfl

/-! ## Digits by weight -/

@[simp] theorem length_setDigit (L : List (Fin b)) (j : Nat) (v : Fin b) : (setDigit L j v).length = L.length :=
  List.length_set

theorem digit_setDigit {L : List (Fin b)} {j : Nat} (hj : j < L.length) (v : Fin b) (i : Nat) :
    digit (setDigit L j v) i = if i = j then v.val else digit L i := by
  unfold digit setDigit
  by_cases hi : i < L.length
  · have hi' : i < (L.set (L.length - 1 - j) v).length := by rw [List.length_set]; exact hi
    rw [dif_pos hi', dif_pos hi]
    simp only [List.getElem_set, List.length_set]
    by_cases hij : i = j
    · rw [if_pos (by omega), if_pos hij]
    · rw [if_neg (by omega), if_neg hij]
  · rw [dif_neg (by rw [List.length_set]; exact hi), dif_neg hi, if_neg (by omega)]

/-- Writing the digit of weight `b ^ j` changes the value by the difference of the digits at that weight. -/
theorem value_setDigit {L : List (Fin b)} {j : Nat} (hj : j < L.length) (v : Fin b) :
    value (setDigit L j v) + digit L j * b ^ j = value L + v.val * b ^ j := by
  unfold setDigit digit
  rw [dif_pos hj]
  -- over the msb index `i = length - 1 - j`, whose weight is `b ^ j`
  suffices ∀ (L : List (Fin b)) (i : Nat) (hi : i < L.length),
      value (L.set i v) + L[i].val * b ^ (L.length - 1 - i) = value L + v.val * b ^ (L.length - 1 - i) by
    have := this L (L.length - 1 - j) (by omega)
    rwa [show L.length - 1 - (L.length - 1 - j) = j by omega] at this
  intro L i hi
  induction L generalizing i with
  | nil => cases hi
  | cons d L ih =>
    cases i with
    | zero =>
      simp only [List.set_cons_zero, value_cons, List.getElem_cons_zero, List.length_cons]
      rw [show L.length + 1 - 1 - 0 = L.length by omega]
      omega
    | succ i =>
      have hi' : i < L.length := by simp at hi; omega
      have := ih i hi'
      simp only [List.set_cons_succ, value_cons, List.getElem_cons_succ, List.length_cons, List.length_set]
      rw [show L.length + 1 - 1 - (i + 1) = L.length - 1 - i by omega]
      omega

/-- Writing `v` at weight `b ^ j` with the carry `c` one weight up, where `v + c * b` is the old digit plus `x`,
adds `x` at weight `b ^ j`. -/
theorem value_setDigit_carry {L : List (Fin b)} {j : Nat} (hj : j < L.length) {v : Fin b} {c x : Nat}
    (hv : v.val + c * b = digit L j + x) : value (setDigit L j v) + c * b ^ (j + 1) = value L + x * b ^ j := by
  have h := value_setDigit hj v
  have hc : c * b ^ (j + 1) = c * b * b ^ j := by rw [Nat.pow_succ]; ring
  have hx : v.val * b ^ j + c * b * b ^ j = digit L j * b ^ j + x * b ^ j := by
    rw [← Nat.add_mul, hv, Nat.add_mul]
  omega

@[simp] theorem value_replicate_zero [NeZero b] (k : Nat) : value (List.replicate k (0 : Fin b)) = 0 := by
  simp [value, List.map_replicate, List.reverse_replicate, Nat.ofDigits_replicate_zero]

@[simp] theorem low_zero (L : List (Fin b)) : low L 0 = 0 := by
  simp [low]

theorem low_of_length_le {L : List (Fin b)} {j : Nat} (h : L.length ≤ j) : low L j = value L := by
  unfold low
  rw [Nat.sub_eq_zero_of_le h, List.drop_zero]

theorem low_succ (L : List (Fin b)) (j : Nat) : low L (j + 1) = low L j + digit L j * b ^ j := by
  unfold digit
  split
  · rename_i hj
    have key := List.drop_eq_getElem_cons (l := L) (i := L.length - 1 - j) (by omega)
    rw [show L.length - 1 - j + 1 = L.length - j by omega] at key
    unfold low
    rw [show L.length - (j + 1) = L.length - 1 - j by omega, key, value_cons, List.length_drop,
      show L.length - (L.length - j) = j by omega]
    omega
  · rename_i hj
    rw [low_of_length_le (by omega), low_of_length_le (by omega), Nat.zero_mul, Nat.add_zero]

@[simp] theorem digit_replicate_zero [NeZero b] (k i : Nat) : digit (List.replicate k (0 : Fin b)) i = 0 := by
  unfold digit
  split
  · rw [List.getElem_replicate]
    rfl
  · rfl

theorem digit_lt (L : List (Fin b)) (j : Nat) (hb : 0 < b) : digit L j < b := by
  unfold digit
  split
  · exact Fin.isLt _
  · exact hb

end CoreChain.Limbs

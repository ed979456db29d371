import Mathlib

/-!
# Bitfields

A `bitvec::BitVec` in `Lsb0` order as the list of its bits. `setBit b i` is `BitSlice::set(i, true)` on an index
inside the slice (outside it the Rust call panics; here it changes nothing), `bit b i` is `get(i)` read as `false`
past the end, `countOnes` is `count_ones`, and `andAssign a b` is `a &= b`, where the bits of `a` past the end of `b`
are cleared.

Setting a list of distinct indices in a zero bitfield sets exactly those bits (`bit_foldl_setBit_zero`), so it has
as many ones as indices (`countOnes_foldl_setBit_zero`); the ones of a bitfield are the indices of its set bits
(`countOnes_eq_length_filter`), and a bitfield whose set bits are those of a list without duplicates has as many
ones as the list (`countOnes_eq_length_of_bit_iff`).

A mask of a fixed width is a `BitVec`, read bit by bit through `getLsbD`: `a &&& ~~~b = 0` says that `a` lies inside
`b`, and then `b ^^^ a` is the rest of `b` (`getLsbD_xor_of_and_not_eq_zero`).
-/

namespace CoreChain

/-- `BitSlice::get(i)`, with `false` past the end. -/
def bit (b : List Bool) (i : Nat) : Bool :=
  b.getD i false

/-- `BitSlice::set(i, true)`. -/
def setBit (b : List Bool) (i : Nat) : List Bool :=
  b.set i true

/-- `BitSlice::count_ones`. -/
def countOnes (b : List Bool) : Nat :=
  b.count true

/-- `a &= b`: each bit of `a` anded with the bit of `b` at its index, `false` past the end of `b`. -/
def andAssign (a b : List Bool) : List Bool :=
  a.mapIdx fun i x => x && bit b i

@[simp] theorem length_setBit (b : List Bool) (i : Nat) : (setBit b i).length = b.length :=
  List.length_set

@[simp] theorem length_foldl_setBit (l : List Nat) (b : List Bool) : (l.foldl setBit b).length = b.length := by
  induction l generalizing b with
  | nil => rfl
  | cons i l ih => rw [List.foldl_cons, ih, length_setBit]

theorem bit_setBit (b : List Bool) (i j : Nat) : bit (setBit b i) j = (bit b j || (j = i && decide (i < b.length))) := by
  unfold bit setBit
  by_cases hji : j = i
  · subst hji
    by_cases hlt : j < b.length
    all_goals simp [List.getD_eq_getElem?_getD, hlt]
  · simp [List.getD_eq_getElem?_getD, List.getElem?_set_ne (Ne.symm hji), hji]

/-- Setting indices in a zero bitfield sets exactly those inside it. -/
theorem bit_foldl_setBit_zero (l : List Nat) (n j : Nat) :
    bit (l.foldl setBit (List.replicate n false)) j = (decide (j ∈ l) && decide (j < n)) := by
  -- the fold sets, on top of any start, the indices of the list inside the bitfield
  have hgen : ∀ (b : List Bool), bit (l.foldl setBit b) j = (bit b j || (decide (j ∈ l) && decide (j < b.length))) := by
    induction l with
    | nil => intro b; simp
    | cons i l ih =>
      intro b
      rw [List.foldl_cons, ih, bit_setBit, length_setBit]
      by_cases hji : j = i
      · subst hji
        by_cases hlt : j < b.length <;> simp [hlt]
      · simp [hji]
  rw [hgen, List.length_replicate]
  by_cases hjn : j < n <;> simp [bit, List.getD_eq_getElem?_getD, hjn]

theorem bit_andAssign (a b : List Bool) (i : Nat) : bit (andAssign a b) i = (bit a i && bit b i) := by
  unfold andAssign
  by_cases hi : i < a.length
  · simp [bit, List.getD_eq_getElem?_getD, hi]
  · have hle : a.length ≤ i := Nat.le_of_not_lt hi
    simp [bit, List.getD_eq_getElem?_getD, List.getElem?_mapIdx, List.getElem?_eq_none hle]

@[simp] theorem length_andAssign (a b : List Bool) : (andAssign a b).length = a.length :=
  List.length_mapIdx

theorem countOnes_eq_length_filter (b : List Bool) :
    countOnes b = ((List.range b.length).filter (bit b)).length := by
  induction b with
  | nil => rfl
  | cons x b ih =>
    -- index `0` is the first bit, and the others are those of the rest, shifted by one
    have hshift : bit (x :: b) ∘ Nat.succ = bit b := rfl
    rw [List.length_cons, List.range_succ_eq_map, List.filter_cons, List.filter_map, hshift]
    cases x <;> simp [countOnes, bit, ← ih]

/-- A bitfield whose set bits are the members of a list without duplicates has as many ones as the list. -/
theorem countOnes_eq_length_of_bit_iff {b : List Bool} {l : List Nat} (hnd : l.Nodup)
    (h : ∀ i, bit b i = true ↔ i ∈ l) : countOnes b = l.length := by
  rw [countOnes_eq_length_filter]
  refine List.Perm.length_eq ((List.perm_ext_iff_of_nodup ((List.nodup_range).filter _) hnd).mpr fun i => ?_)
  rw [List.mem_filter, List.mem_range, ← h]
  -- a set bit lies inside the bitfield
  refine ⟨fun hi => hi.2, fun hi => ⟨?_, hi⟩⟩
  by_contra hle
  simp [bit, List.getD_eq_getElem?_getD, List.getElem?_eq_none (Nat.le_of_not_lt hle)] at hi

/-- Distinct indices inside a zero bitfield set as many ones. -/
theorem countOnes_foldl_setBit_zero {l : List Nat} {n : Nat} (hnd : l.Nodup) (hlt : ∀ i ∈ l, i < n) :
    countOnes (l.foldl setBit (List.replicate n false)) = l.length := by
  refine countOnes_eq_length_of_bit_iff hnd fun i => ?_
  rw [bit_foldl_setBit_zero, Bool.and_eq_true, decide_eq_true_eq, decide_eq_true_eq]
  exact ⟨fun h => h.1, fun hi => ⟨hi, hlt i hi⟩⟩

/-! ## Masks of a fixed width -/

section Mask

variable {w : Nat} {a b : BitVec w}

/-- A mask with no bit outside `b` (`a & !b` void) has each of its bits in `b`. -/
theorem getLsbD_of_and_not_eq_zero (h : a &&& ~~~b = 0#w) {i : Nat} (hi : a.getLsbD i = true) :
    b.getLsbD i = true := by
  have hw : i < w := BitVec.lt_of_getLsbD hi
  have hbit := congrArg (fun x => x.getLsbD i) h
  simpa [hi, hw] using hbit

/-- Taking a mask `a` inside `b` out of `b` by `^` leaves the bits of `b` outside `a`. -/
theorem getLsbD_xor_of_and_not_eq_zero (h : a &&& ~~~b = 0#w) (i : Nat) :
    (b ^^^ a).getLsbD i = (b.getLsbD i && !a.getLsbD i) := by
  rw [BitVec.getLsbD_xor]
  cases ha : a.getLsbD i
  · simp
  · simp [getLsbD_of_and_not_eq_zero h ha]

theorem xor_and_not_eq_zero (h : a &&& ~~~b = 0#w) : (b ^^^ a) &&& ~~~b = 0#w := by
  refine BitVec.eq_of_getLsbD_eq fun i _ => ?_
  rw [BitVec.getLsbD_and, getLsbD_xor_of_and_not_eq_zero h, BitVec.getLsbD_not, BitVec.getLsbD_zero]
  cases b.getLsbD i <;> simp

theorem exists_getLsbD_of_ne_zero (h : a ≠ 0#w) : ∃ i, a.getLsbD i = true := by
  refine Classical.byContradiction fun hn => h (BitVec.eq_of_getLsbD_eq fun i _ => ?_)
  simpa using fun hi => hn ⟨i, hi⟩

theorem xor_ne_zero_of_ne (h : a ≠ b) : a ^^^ b ≠ 0#w := by
  intro hx
  apply h
  rw [← BitVec.xor_left_inj b, hx, BitVec.xor_self]

theorem xor_ne_self_of_ne_zero (h : a ≠ 0#w) : b ^^^ a ≠ b := by
  intro hx
  apply h
  calc a = b ^^^ (b ^^^ a) := by rw [← BitVec.xor_assoc, BitVec.xor_self, BitVec.zero_xor]
    _ = 0#w := by rw [hx, BitVec.xor_self]

end Mask

end CoreChain

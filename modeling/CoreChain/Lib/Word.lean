import Mathlib

/-!
# Unsigned machine words

An unsigned integer of `w` bits is a `Fin (2 ^ w)`. Division and remainder never leave the range and are `Fin`'s
own; the operations that can leave it are given as the Rust standard library defines them:

- `checkedAdd`, `checkedSub`, `checkedMul`: `none` where the exact result does not fit (where `+` and `*` panic in a debug
  build), the exact result otherwise (`val_checkedAdd`, `val_checkedMul`);
- `saturatingAdd`, `saturatingSub`, `saturatingMul`: the exact result clamped to `[0, 2 ^ w - 1]`;
- `widen`: `From`/`Into` to a type at least as wide, which keeps the value;
- `saturatedInto`: `UniqueSaturatedInto` to any width, which clamps to the largest value of the target;
- `truncate`: `as` to any width, which keeps the low bits.

`+` and `-` of `Fin` wrap, as the operators of a release build do.
-/

namespace CoreChain.Word

variable {w v : Nat}

/-- A word type is never empty. Its literals are built with this instance, and with the three below at the widths
the pallets use, so that every module builds a literal `0 : Fin (2 ^ w)` from the same constant. -/
instance (priority := 1050) twoPowNeZero (w : Nat) : NeZero (2 ^ w) :=
  ⟨Nat.pos_iff_ne_zero.mp (Nat.two_pow_pos w)⟩

instance (priority := 1100) twoPow32NeZero : NeZero (2 ^ 32 : Nat) := twoPowNeZero 32

instance (priority := 1100) twoPow64NeZero : NeZero (2 ^ 64 : Nat) := twoPowNeZero 64

instance (priority := 1100) twoPow128NeZero : NeZero (2 ^ 128 : Nat) := twoPowNeZero 128

/-- The largest value of `w` bits, `MAX`. -/
def max (w : Nat) : Fin (2 ^ w) :=
  ⟨2 ^ w - 1, Nat.sub_lt (Nat.two_pow_pos w) Nat.one_pos⟩

/-- `checked_add`, and `+` of a debug build with its panic as `none`. -/
def checkedAdd (a b : Fin (2 ^ w)) : Option (Fin (2 ^ w)) :=
  if h : a.val + b.val < 2 ^ w then some ⟨a.val + b.val, h⟩ else none

/-- `checked_sub`, and `-` of a debug build with its panic as `none`. -/
def checkedSub (a b : Fin (2 ^ w)) : Option (Fin (2 ^ w)) :=
  if h : b.val ≤ a.val then some ⟨a.val - b.val, by have := a.isLt; omega⟩ else none

/-- `checked_mul`, and `*` of a debug build with its panic as `none`. -/
def checkedMul (a b : Fin (2 ^ w)) : Option (Fin (2 ^ w)) :=
  if h : a.val * b.val < 2 ^ w then some ⟨a.val * b.val, h⟩ else none

/-- `saturating_add`. -/
def saturatingAdd (a b : Fin (2 ^ w)) : Fin (2 ^ w) :=
  ⟨Min.min (a.val + b.val) (2 ^ w - 1), by have := Nat.two_pow_pos w; omega⟩

/-- `saturating_sub`. -/
def saturatingSub (a b : Fin (2 ^ w)) : Fin (2 ^ w) :=
  ⟨a.val - b.val, by have := a.isLt; omega⟩

/-- `saturating_mul`. -/
def saturatingMul (a b : Fin (2 ^ w)) : Fin (2 ^ w) :=
  ⟨Min.min (a.val * b.val) (2 ^ w - 1), by have := Nat.two_pow_pos w; omega⟩

/-- `From`/`Into` from `v` bits to `w ≥ v` bits. -/
def widen (h : v ≤ w) (a : Fin (2 ^ v)) : Fin (2 ^ w) :=
  Fin.castLE (Nat.pow_le_pow_right Nat.two_pos h) a

/-- `UniqueSaturatedInto`: the value, or the largest value of the target where it does not fit. -/
def saturatedInto (a : Fin (2 ^ v)) : Fin (2 ^ w) :=
  ⟨Min.min a.val (2 ^ w - 1), by have := Nat.two_pow_pos w; omega⟩

/-- `as` from `v` to `w` bits: the low `w` bits. -/
def truncate (a : Fin (2 ^ v)) : Fin (2 ^ w) :=
  ⟨a.val % 2 ^ w, Nat.mod_lt _ (Nat.two_pow_pos w)⟩

@[simp] theorem val_max : (max w).val = 2 ^ w - 1 := rfl

@[simp] theorem val_saturatingAdd (a b : Fin (2 ^ w)) :
    (saturatingAdd a b).val = Min.min (a.val + b.val) (2 ^ w - 1) := rfl

@[simp] theorem val_saturatingSub (a b : Fin (2 ^ w)) : (saturatingSub a b).val = a.val - b.val := rfl

theorem le_val_saturatingAdd_right (a b : Fin (2 ^ w)) : b.val ≤ (saturatingAdd a b).val := by
  have := b.isLt
  rw [val_saturatingAdd]
  omega

@[simp] theorem val_saturatingMul (a b : Fin (2 ^ w)) :
    (saturatingMul a b).val = Min.min (a.val * b.val) (2 ^ w - 1) := rfl

@[simp] theorem val_widen (h : v ≤ w) (a : Fin (2 ^ v)) : (widen h a).val = a.val := rfl

@[simp] theorem val_saturatedInto (a : Fin (2 ^ v)) :
    (saturatedInto a : Fin (2 ^ w)).val = Min.min a.val (2 ^ w - 1) := rfl

@[simp] theorem val_truncate (a : Fin (2 ^ v)) : (truncate a : Fin (2 ^ w)).val = a.val % 2 ^ w := rfl

theorem val_truncate_of_lt {a : Fin (2 ^ v)} (h : a.val < 2 ^ w) : (truncate a : Fin (2 ^ w)).val = a.val :=
  Nat.mod_eq_of_lt h

theorem val_saturatedInto_of_lt {a : Fin (2 ^ v)} (h : a.val < 2 ^ w) : (saturatedInto a : Fin (2 ^ w)).val = a.val := by
  rw [val_saturatedInto]
  omega

theorem val_checkedAdd {a b : Fin (2 ^ w)} (h : a.val + b.val < 2 ^ w) :
    (checkedAdd a b).map Fin.val = some (a.val + b.val) := by
  rw [checkedAdd, dif_pos h]
  rfl

theorem val_checkedMul {a b : Fin (2 ^ w)} (h : a.val * b.val < 2 ^ w) :
    (checkedMul a b).map Fin.val = some (a.val * b.val) := by
  rw [checkedMul, dif_pos h]
  rfl

theorem checkedAdd_of_lt {a b : Fin (2 ^ w)} (h : a.val + b.val < 2 ^ w) :
    checkedAdd a b = some ⟨a.val + b.val, h⟩ :=
  dif_pos h

theorem checkedAdd_of_le {a b : Fin (2 ^ w)} (h : 2 ^ w ≤ a.val + b.val) : checkedAdd a b = none :=
  dif_neg (Nat.not_lt.mpr h)

theorem checkedSub_of_le {a b : Fin (2 ^ w)} (h : b.val ≤ a.val) :
    checkedSub a b = some ⟨a.val - b.val, by have := a.isLt; omega⟩ :=
  dif_pos h

theorem checkedSub_of_lt {a b : Fin (2 ^ w)} (h : a.val < b.val) : checkedSub a b = none :=
  dif_neg (Nat.not_le.mpr h)

theorem saturatingAdd_saturatingMul (a b c : Fin (2 ^ w)) :
    (saturatingAdd (saturatingMul a b) c).val = Min.min (a.val * b.val + c.val) (2 ^ w - 1) := by
  rw [val_saturatingAdd, val_saturatingMul]
  omega

end CoreChain.Word

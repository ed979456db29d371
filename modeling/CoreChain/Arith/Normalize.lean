import CoreChain.Lib.Machine
import CoreChain.Arith.PerThing

/-!
# `normalize`

`normalize` of `sp_arithmetic` (`lib.rs`) moves a list of unsigned integers to a target sum. It sums the input
with `checked_add` and converts its length, failing where either does not fit; it then sorts the values once, with
their original indices, and spreads the difference `diff` to the target as `per_round = diff / count` for each
element and `leftover = diff % count` one by one:

- below the target it adds from the smallest value up, moving on at `threshold = target / count`;
- above it, it takes from the largest value down, moving on at the smallest value; a value that cannot give all of
  `per_round` goes to zero and its shortfall joins `leftover`, and the last loop skips the values already at zero.

The model follows the source step by step on words of `w` bits (`CoreChain.Word`); an `expect` that fails, an index
out of range and an arithmetic panic of a debug build are `none`. The last loop of the decrement has no bound in the
source; here it runs on fuel `leftover * count`, enough since between two decrements it passes over fewer than
`count` values at zero (`trimLeftover_spec`).

What the loops keep is the total of the values: it never passes the target when adding
(`bumpAt_spec`), and when taking it stays `target + leftover + per_round` for each turn still to come
(`trimAt_spec`). So no arithmetic panics, the last loop ends, and the result sums to the target (`normalize_spec`).
-/

namespace CoreChain.Arith

open Word

variable {w : Nat}

/-! ## The model -/

/-- The sum of the values of `output_with_idx`. -/
def total (out : List (Nat × Fin (2 ^ w))) : Nat :=
  (out.map fun e => e.2.val).sum

/-- `max_index.checked_sub(1).unwrap_or(count - 1)`: one index down, from the first back to the last. -/
def prevIndex (count i : Nat) : Nat :=
  if i = 0 then count - 1 else i - 1

section Loops

variable (count : Nat) (threshold : Fin (2 ^ w))

/-- One turn of the increment loops: add `amount` at `min_index`, and move on once the value reaches `threshold`. -/
def bumpAt (amount : Fin (2 ^ w)) (st : List (Nat × Fin (2 ^ w)) × Nat) :
    Option (List (Nat × Fin (2 ^ w)) × Nat) := do
  let e ← st.1[st.2]?
  let x ← checkedAdd e.2 amount
  pure (st.1.set st.2 (e.1, x), if threshold ≤ x then (st.2 + 1) % count else st.2)

/-- `while !leftover.is_zero()` of the increment: one more at a time. -/
def bumpLeftover : Nat → List (Nat × Fin (2 ^ w)) × Nat → Option (List (Nat × Fin (2 ^ w)) × Nat)
  | 0, st => some st
  | leftover + 1, st => bumpAt count threshold 1 st >>= bumpLeftover leftover

/-- One turn of the decrement `for` loop: take `per_round` off at `max_index`, or take the value to zero and add the
shortfall to `leftover`; move down once the value reaches `threshold`. -/
def trimAt (perRound : Fin (2 ^ w)) (st : List (Nat × Fin (2 ^ w)) × Nat × Fin (2 ^ w)) :
    Option (List (Nat × Fin (2 ^ w)) × Nat × Fin (2 ^ w)) := do
  let e ← st.1[st.2.1]?
  let r ← match checkedSub e.2 perRound with
    | some x => pure (x, st.2.2)
    | none => do
      let remainder ← checkedSub perRound e.2
      let leftover ← checkedAdd st.2.2 remainder
      pure (saturatingSub e.2 perRound, leftover)
  pure (st.1.set st.2.1 (e.1, r.1), if r.1 ≤ threshold then prevIndex count st.2.1 else st.2.1, r.2)

/-- `while !leftover.is_zero()` of the decrement, on fuel: take one where the value is not zero, and move down. -/
def trimLeftover : Nat → List (Nat × Fin (2 ^ w)) × Nat × Fin (2 ^ w) →
    Option (List (Nat × Fin (2 ^ w)) × Nat × Fin (2 ^ w))
  | fuel, st =>
    if st.2.2 = 0 then some st else
    match fuel with
    | 0 => none
    | fuel + 1 => do
      let e ← st.1[st.2.1]?
      match checkedSub e.2 1 with
      | some next => do
        let leftover ← checkedSub st.2.2 1
        trimLeftover fuel (st.1.set st.2.1 (e.1, next),
          if next ≤ threshold then prevIndex count st.2.1 else st.2.1, leftover)
      | none => trimLeftover fuel (st.1, prevIndex count st.2.1, st.2.2)

end Loops

/-- The increment branch, from the sorted values: `per_round` to `count` values from the smallest up, then
`leftover` ones. -/
def bump (count : Nat) (threshold perRound leftover : Fin (2 ^ w)) (sorted : List (Nat × Fin (2 ^ w))) :
    Option (List (Nat × Fin (2 ^ w))) := do
  let st ← if perRound = 0 then pure (sorted, 0) else
    (List.range count).foldlM (fun st _ => bumpAt count threshold perRound st) (sorted, 0)
  let st ← bumpLeftover count threshold leftover.val st
  pure st.1

/-- The decrement branch, from the sorted values: `per_round` from `count` values from the largest down, then
`leftover` ones, the threshold being the smallest value. -/
def trim (count : Nat) (perRound leftover : Fin (2 ^ w)) (sorted : List (Nat × Fin (2 ^ w))) :
    Option (List (Nat × Fin (2 ^ w))) := do
  let first ← sorted.head?
  let st ← if perRound = 0 then pure (sorted, count - 1, leftover) else
    (List.range count).foldlM (fun st _ => trimAt count first.2 perRound st) (sorted, count - 1, leftover)
  let st ← trimLeftover count first.2 (st.2.2.val * count) st
  pure st.1

/-- The checked sum of the first loop. -/
def checkedSum (input : List (Fin (2 ^ w))) : Option (Fin (2 ^ w)) :=
  input.foldlM checkedAdd 0

/-- `normalize`: `none` is a panic. -/
def normalize (input : List (Fin (2 ^ w))) (targetedSum : Fin (2 ^ w)) :
    Option (Except String (List (Fin (2 ^ w)))) :=
  match checkedSum input with
  | none => some (.error "sum of input cannot fit in `T`")
  | some sum =>
    let count := input.length
    if hc : count < 2 ^ w then
      let countT : Fin (2 ^ w) := ⟨count, hc⟩
      if count = 0 then some (.ok []) else
      let diff := Max.max targetedSum sum - Min.min targetedSum sum
      if diff = 0 then some (.ok input) else
      let perRound := diff / countT
      let leftover := diff % countT
      let sorted := (input.zipIdx.map fun e => (e.2, e.1)).mergeSort fun a b => a.2 ≤ b.2
      let out := if sum < targetedSum then bump count (targetedSum / countT) perRound leftover sorted
        else trim count perRound leftover sorted
      out.map fun out => .ok ((out.mergeSort fun a b => a.1 ≤ b.1).map Prod.snd)
    else some (.error "length of `inputs` cannot fit in `T`")

/-- `Normalizable for Vec<P>`: the parts, widened to `Upper`, normalized there, and saturated back. -/
def normalizeFractions (P : PerThing) (self : List (Fraction P)) (targetedSum : Fraction P) :
    Option (Except String (List (Fraction P))) :=
  (normalize (self.map fun p => widen P.bits_le_upperBits p.deconstruct)
      (widen P.bits_le_upperBits targetedSum.deconstruct)).map
    (Except.map (List.map fun i => Fraction.fromParts (saturatedInto i)))

/-! ## The total of the values -/

@[simp] theorem total_nil : total ([] : List (Nat × Fin (2 ^ w))) = 0 := rfl

@[simp] theorem total_cons (e : Nat × Fin (2 ^ w)) (out : List (Nat × Fin (2 ^ w))) :
    total (e :: out) = e.2.val + total out := by
  simp [total]

theorem total_perm {out out' : List (Nat × Fin (2 ^ w))} (h : out.Perm out') : total out = total out' :=
  (h.map _).sum_eq

theorem val_le_total {out : List (Nat × Fin (2 ^ w))} {i : Nat} (hi : i < out.length) :
    out[i].2.val ≤ total out :=
  List.le_sum_of_mem (List.mem_map_of_mem (List.getElem_mem hi))

theorem total_set : ∀ {out : List (Nat × Fin (2 ^ w))} {i : Nat} (hi : i < out.length) (e : Nat × Fin (2 ^ w)),
    total (out.set i e) + out[i].2.val = total out + e.2.val
  | _ :: _, 0, _, _ => by simp; omega
  | _ :: _, i + 1, hi, e => by
    have := total_set (Nat.lt_of_succ_lt_succ hi) e
    simp only [List.set_cons_succ, total_cons, List.getElem_cons_succ]
    omega

theorem exists_pos_of_total_pos : ∀ {out : List (Nat × Fin (2 ^ w))}, 0 < total out →
    ∃ j, ∃ hj : j < out.length, 0 < out[j].2.val
  | [], h => absurd h (Nat.lt_irrefl 0)
  | e :: out, h => by
    by_cases he : 0 < e.2.val
    · exact ⟨0, by simp, he⟩
    · obtain ⟨j, hj, hpos⟩ := exists_pos_of_total_pos (show 0 < total out by simp at h; omega)
      exact ⟨j + 1, by simp [hj], by simpa using hpos⟩

theorem prevIndex_lt {count i : Nat} (hi : i < count) : prevIndex count i < count := by
  unfold prevIndex
  split <;> omega

/-! ## The increment -/

section Bump

variable (count : Nat) (threshold : Fin (2 ^ w))

/-- A turn of the increment succeeds while the total stays below the bound, and adds `amount` to it. -/
theorem bumpAt_spec (amount : Fin (2 ^ w)) {out : List (Nat × Fin (2 ^ w))} {i : Nat} (hlen : out.length = count)
    (hi : i < count) (hfit : total out + amount.val < 2 ^ w) :
    ∃ out' i', bumpAt count threshold amount (out, i) = some (out', i') ∧ out'.length = count ∧ i' < count ∧
      total out' = total out + amount.val := by
  have hi' : i < out.length := hlen ▸ hi
  have hx : out[i].2.val + amount.val < 2 ^ w :=
    Nat.lt_of_le_of_lt (Nat.add_le_add_right (val_le_total hi') _) hfit
  let x : Fin (2 ^ w) := ⟨out[i].2.val + amount.val, hx⟩
  refine ⟨out.set i (out[i].1, x), if threshold ≤ x then (i + 1) % count else i, ?_, by simp [hlen], ?_, ?_⟩
  · simp [bumpAt, List.getElem?_eq_getElem hi', checkedAdd_of_lt hx, x]
  · split
    · exact Nat.mod_lt _ (by omega)
    · exact hi
  · have hset := total_set hi' (out[i].1, x)
    have hxv : x.val = out[i].2.val + amount.val := rfl
    simp only at hset
    omega

/-- The `for` loop of the increment adds `per_round` `count` times. -/
theorem bumpRounds_spec (perRound : Fin (2 ^ w)) {out : List (Nat × Fin (2 ^ w))} (hlen : out.length = count)
    (hc : 0 < count) (hfit : total out + count * perRound.val < 2 ^ w) :
    ∃ out' i', (List.range count).foldlM (fun st _ => bumpAt count threshold perRound st) (out, 0) = some (out', i') ∧
      out'.length = count ∧ i' < count ∧ total out' = total out + count * perRound.val := by
  obtain ⟨⟨out', i'⟩, h, hlen', hi', htot⟩ := @foldlM_range_progress _
    (fun j (st : List (Nat × Fin (2 ^ w)) × Nat) =>
      st.1.length = count ∧ st.2 < count ∧ total st.1 = total out + j * perRound.val)
    (fun st _ => bumpAt count threshold perRound st) (out, 0) count ⟨hlen, hc, by simp⟩ (by
      rintro j ⟨out₁, i₁⟩ hj ⟨hlen₁, hi₁, htot₁⟩
      dsimp only at hlen₁ hi₁ htot₁ ⊢
      have hfit₁ : total out₁ + perRound.val < 2 ^ w := by
        have : j * perRound.val + perRound.val ≤ count * perRound.val := by
          rw [← Nat.succ_mul]
          exact Nat.mul_le_mul_right _ hj
        omega
      obtain ⟨out₂, i₂, h₂, hlen₂, hi₂, htot₂⟩ := bumpAt_spec count threshold perRound hlen₁ hi₁ hfit₁
      exact ⟨(out₂, i₂), h₂, hlen₂, hi₂, by rw [htot₂, htot₁, Nat.succ_mul, Nat.add_assoc]⟩)
  exact ⟨out', i', h, hlen', hi', htot⟩

/-- The `while` loop of the increment adds one `leftover` times. -/
theorem bumpLeftover_spec : ∀ (leftover : Nat) {out : List (Nat × Fin (2 ^ w))} {i : Nat}, out.length = count →
    i < count → total out + leftover < 2 ^ w →
    ∃ out' i', bumpLeftover count threshold leftover (out, i) = some (out', i') ∧ out'.length = count ∧
      total out' = total out + leftover
  | 0, out, i, hlen, _, _ => ⟨out, i, rfl, hlen, rfl⟩
  | leftover + 1, out, i, hlen, hi, hfit => by
    have hone : (1 : Fin (2 ^ w)).val = 1 := by
      rw [Fin.val_one']
      exact Nat.mod_eq_of_lt (by omega)
    obtain ⟨out₁, i₁, h₁, hlen₁, hi₁, htot₁⟩ := bumpAt_spec count threshold 1 hlen hi (by omega)
    obtain ⟨out', i', h', hlen', htot'⟩ := bumpLeftover_spec leftover hlen₁ hi₁ (by omega)
    exact ⟨out', i', by simp [bumpLeftover, h₁, h'], hlen', by omega⟩

end Bump

/-! ## The decrement -/

section Trim

variable (count : Nat) (threshold : Fin (2 ^ w))

theorem index_lt_count (x : Fin (2 ^ w)) {i : Nat} (hi : i < count) :
    (if x ≤ threshold then prevIndex count i else i) < count := by
  split
  · exact prevIndex_lt hi
  · exact hi

/-- A turn of the decrement `for` loop keeps the total at the target plus `leftover` plus `per_round` for each turn
still to come, and never raises it. -/
theorem trimAt_spec (perRound : Fin (2 ^ w)) {out : List (Nat × Fin (2 ^ w))} {i : Nat} {leftover : Fin (2 ^ w)}
    {target turns : Nat} (hlen : out.length = count) (hi : i < count) (hfit : total out < 2 ^ w)
    (htot : total out = target + leftover.val + (turns + 1) * perRound.val) :
    ∃ out' i' leftover', trimAt count threshold perRound (out, i, leftover) = some (out', i', leftover') ∧
      out'.length = count ∧ i' < count ∧ total out' = target + leftover'.val + turns * perRound.val ∧
      total out' ≤ total out := by
  have hi' : i < out.length := hlen ▸ hi
  have hle := val_le_total hi'
  rw [Nat.succ_mul] at htot
  by_cases hx : perRound.val ≤ out[i].2.val
  · -- the value gives all of `per_round`
    let x : Fin (2 ^ w) := ⟨out[i].2.val - perRound.val, by omega⟩
    have hset := total_set hi' (out[i].1, x)
    have hxv : x.val = out[i].2.val - perRound.val := rfl
    simp only at hset
    refine ⟨out.set i (out[i].1, x), if x ≤ threshold then prevIndex count i else i, leftover, ?_, by simp [hlen],
      index_lt_count count threshold x hi, by omega, by omega⟩
    simp [trimAt, List.getElem?_eq_getElem hi', checkedSub_of_le hx, x]
  · -- the value goes to zero, and what it could not give joins `leftover`
    have hx' : out[i].2.val < perRound.val := Nat.lt_of_not_le hx
    have hfit' : leftover.val + (perRound.val - out[i].2.val) < 2 ^ w := by omega
    let leftover' : Fin (2 ^ w) := ⟨leftover.val + (perRound.val - out[i].2.val), hfit'⟩
    let x := saturatingSub out[i].2 perRound
    have hset := total_set hi' (out[i].1, x)
    have hxv : x.val = 0 := by
      simp only [x, val_saturatingSub]
      omega
    have hlv : leftover'.val = leftover.val + (perRound.val - out[i].2.val) := rfl
    have hadd : checkedAdd leftover ⟨perRound.val - out[i].2.val, by omega⟩ = some leftover' := checkedAdd_of_lt hfit'
    simp only at hset
    refine ⟨out.set i (out[i].1, x), if x ≤ threshold then prevIndex count i else i, leftover', ?_, by simp [hlen],
      index_lt_count count threshold x hi, by omega, by omega⟩
    simp [trimAt, List.getElem?_eq_getElem hi', checkedSub_of_lt hx', checkedSub_of_le (Nat.le_of_lt hx'), hadd, x]

/-- The `for` loop of the decrement ends with the total at the target plus `leftover`. -/
theorem trimRounds_spec (perRound : Fin (2 ^ w)) {out : List (Nat × Fin (2 ^ w))} {leftover : Fin (2 ^ w)}
    {target : Nat} (hlen : out.length = count) (hc : 0 < count) (hfit : total out < 2 ^ w)
    (htot : total out = target + leftover.val + count * perRound.val) :
    ∃ out' i' leftover', (List.range count).foldlM (fun st _ => trimAt count threshold perRound st)
        (out, count - 1, leftover) = some (out', i', leftover') ∧
      out'.length = count ∧ i' < count ∧ total out' = target + leftover'.val := by
  obtain ⟨⟨out', i', leftover'⟩, h, hlen', hi', htot', -⟩ := @foldlM_range_progress _
    (fun j (st : List (Nat × Fin (2 ^ w)) × Nat × Fin (2 ^ w)) => st.1.length = count ∧ st.2.1 < count ∧
      total st.1 = target + st.2.2.val + (count - j) * perRound.val ∧ total st.1 ≤ total out)
    (fun st _ => trimAt count threshold perRound st) (out, count - 1, leftover) count
    ⟨hlen, show count - 1 < count by omega, by simpa using htot, Nat.le_refl _⟩ (by
      rintro j ⟨out₁, i₁, leftover₁⟩ hj ⟨hlen₁, hi₁, htot₁, hle₁⟩
      dsimp only at hlen₁ hi₁ htot₁ hle₁ ⊢
      rw [show count - j = (count - (j + 1)) + 1 by omega] at htot₁
      obtain ⟨out₂, i₂, leftover₂, h₂, hlen₂, hi₂, htot₂, hle₂⟩ :=
        trimAt_spec count threshold perRound hlen₁ hi₁ (by omega) htot₁
      exact ⟨(out₂, i₂, leftover₂), h₂, hlen₂, hi₂, htot₂, Nat.le_trans hle₂ hle₁⟩)
  exact ⟨out', i', leftover', h, hlen', hi', by simpa using htot'⟩

/-- A state of the decrement's last loop: `count` values, `max_index` in range, and a total `leftover` above the
target. -/
structure TrimState (target : Nat) (st : List (Nat × Fin (2 ^ w)) × Nat × Fin (2 ^ w)) : Prop where
  length : st.1.length = count
  index : st.2.1 < count
  total : total st.1 = target + st.2.2.val

/-- The decrement's last loop, run on `fuel`, ends with `count` values summing to the target. -/
def TrimsTo (target fuel : Nat) (st : List (Nat × Fin (2 ^ w)) × Nat × Fin (2 ^ w)) : Prop :=
  ∃ out, (trimLeftover count threshold fuel st).map Prod.fst = some out ∧ out.length = count ∧ total out = target

/-- The last loop at a value that is not zero: take one there. -/
theorem trimLeftover_take {fuel : Nat} {out : List (Nat × Fin (2 ^ w))} {i : Nat} {leftover : Fin (2 ^ w)}
    (hl : 0 < leftover.val) (hi : i < out.length) (hpos : 0 < out[i].2.val) :
    trimLeftover count threshold (fuel + 1) (out, i, leftover) =
      trimLeftover count threshold fuel (out.set i (out[i].1, ⟨out[i].2.val - 1, by omega⟩),
        if (⟨out[i].2.val - 1, by omega⟩ : Fin (2 ^ w)) ≤ threshold then prevIndex count i else i,
        ⟨leftover.val - 1, by omega⟩) := by
  have hone : (1 : Fin (2 ^ w)).val = 1 := by
    rw [Fin.val_one']
    exact Nat.mod_eq_of_lt (by omega)
  have hone' : 1 % 2 ^ w = 1 := Nat.mod_eq_of_lt (by omega)
  have hne : leftover ≠ 0 := fun h => by simp [h] at hl
  rw [trimLeftover]
  simp [hne, List.getElem?_eq_getElem hi, checkedSub_of_le (show (1 : Fin (2 ^ w)).val ≤ out[i].2.val by omega),
    checkedSub_of_le (show (1 : Fin (2 ^ w)).val ≤ leftover.val by omega), hone']

/-- The last loop at a value at zero: move down. -/
theorem trimLeftover_skip {fuel : Nat} {out : List (Nat × Fin (2 ^ w))} {i : Nat} {leftover : Fin (2 ^ w)}
    (hl : 0 < leftover.val) (hi : i < out.length) (hzero : out[i].2.val = 0) :
    trimLeftover count threshold (fuel + 1) (out, i, leftover) =
      trimLeftover count threshold fuel (out, prevIndex count i, leftover) := by
  have hone : (1 : Fin (2 ^ w)).val = 1 := by
    rw [Fin.val_one']
    exact Nat.mod_eq_of_lt (by omega)
  have hne : leftover ≠ 0 := fun h => by simp [h] at hl
  rw [trimLeftover]
  simp [hne, List.getElem?_eq_getElem hi, checkedSub_of_lt (show out[i].2.val < (1 : Fin (2 ^ w)).val by omega)]

/-- Taking one at a value that is not zero leaves a state one `leftover` lower. -/
theorem TrimState.take {target : Nat} {out : List (Nat × Fin (2 ^ w))} {i : Nat} {leftover : Fin (2 ^ w)}
    (hs : TrimState count target (out, i, leftover)) (hl : 0 < leftover.val) (hi : i < out.length)
    (hpos : 0 < out[i].2.val) :
    TrimState count target (out.set i (out[i].1, ⟨out[i].2.val - 1, by omega⟩),
      if (⟨out[i].2.val - 1, by omega⟩ : Fin (2 ^ w)) ≤ threshold then prevIndex count i else i,
      ⟨leftover.val - 1, by omega⟩) := by
  have hset := total_set hi (out[i].1, ⟨out[i].2.val - 1, by omega⟩)
  have htot := hs.total
  simp only at hset htot
  exact ⟨by simp [hs.length], index_lt_count count threshold _ hs.index, by simp only; omega⟩

/-- From `max_index`, the last loop passes over the values at zero down to one that is not, `d` turns away, and
takes one there; so `d + 1` turns more than what the state one lower needs are enough. -/
theorem trimLeftover_search {target l F : Nat}
    (hk : ∀ st, TrimState count target st → st.2.2.val = l → ∀ fuel, F ≤ fuel → TrimsTo count threshold target fuel st)
    (d : Nat) : ∀ {out : List (Nat × Fin (2 ^ w))} {i : Nat} {leftover : Fin (2 ^ w)},
      TrimState count target (out, i, leftover) → leftover.val = l + 1 →
      (∃ j, ∃ hj : j < out.length, 0 < out[j].2.val ∧ (if j ≤ i then i - j else i + count - j) = d) →
      ∀ fuel, d + F + 1 ≤ fuel → TrimsTo count threshold target fuel (out, i, leftover) := by
  induction d with
  | zero =>
    intro out i leftover hs hl ⟨j, hj, hpos, hd⟩ fuel hfuel
    obtain ⟨f, rfl⟩ : ∃ f, fuel = f + 1 := ⟨fuel - 1, by omega⟩
    have hi : i < out.length := hs.length ▸ hs.index
    have hic : i < count := hs.index
    have hjc : j < count := hs.length ▸ hj
    -- no turn away: `max_index` is at the value that is not zero
    obtain rfl : i = j := by split at hd <;> omega
    rw [TrimsTo, trimLeftover_take count threshold (by omega) hi hpos]
    exact hk _ (hs.take count threshold (by omega) hi hpos) (by simp only; omega) f (by omega)
  | succ d ih =>
    intro out i leftover hs hl ⟨j, hj, hpos, hd⟩ fuel hfuel
    obtain ⟨f, rfl⟩ : ∃ f, fuel = f + 1 := ⟨fuel - 1, by omega⟩
    have hi : i < out.length := hs.length ▸ hs.index
    by_cases hposi : 0 < out[i].2.val
    · rw [TrimsTo, trimLeftover_take count threshold (by omega) hi hposi]
      exact hk _ (hs.take count threshold (by omega) hi hposi) (by simp only; omega) f (by omega)
    · -- a value at zero: move down, one turn closer to `j`
      rw [TrimsTo, trimLeftover_skip count threshold (by omega) hi (by omega)]
      have hjc : j < count := hs.length ▸ hj
      have hic : i < count := hs.index
      refine ih (show TrimState count target (out, prevIndex count i, leftover) from
        ⟨hs.length, prevIndex_lt hic, hs.total⟩) hl ⟨j, hj, hpos, ?_⟩ f (by omega)
      have hij : i ≠ j := fun e => hposi (e ▸ hpos)
      unfold prevIndex
      split_ifs at hd ⊢ <;> omega

/-- The last loop of the decrement ends, on fuel `leftover * count`, with the values summing to the target. -/
theorem trimLeftover_spec {target : Nat} (hc : 0 < count) : ∀ (l : Nat) (st : List (Nat × Fin (2 ^ w)) × Nat × Fin (2 ^ w)),
    TrimState count target st → st.2.2.val = l → ∀ fuel, l * count ≤ fuel → TrimsTo count threshold target fuel st
  | 0, st, hs, hl, fuel, _ => by
    have h0 : st.2.2 = 0 := Fin.ext hl
    refine ⟨st.1, ?_, hs.length, by have := hs.total; omega⟩
    cases fuel <;> simp [trimLeftover, h0]
  | l + 1, ⟨out, i, leftover⟩, hs, hl, fuel, hfuel => by
    obtain ⟨j, hj, hpos⟩ := exists_pos_of_total_pos (show 0 < total out by have := hs.total; simp only at hl this; omega)
    have hjc : j < count := hs.length ▸ hj
    have hic : i < count := hs.index
    have hd : (if j ≤ i then i - j else i + count - j) + l * count + 1 ≤ fuel := by
      rw [Nat.succ_mul] at hfuel
      split <;> omega
    exact trimLeftover_search count threshold (trimLeftover_spec hc l) _ hs hl ⟨j, hj, hpos, rfl⟩ fuel hd

end Trim

/-! ## The two branches -/

/-- The increment branch adds `per_round` `count` times and then `leftover` ones. -/
theorem bump_spec {count : Nat} {threshold perRound leftover : Fin (2 ^ w)} {sorted : List (Nat × Fin (2 ^ w))}
    (hlen : sorted.length = count) (hc : 0 < count)
    (hfit : total sorted + count * perRound.val + leftover.val < 2 ^ w) :
    ∃ out, bump count threshold perRound leftover sorted = some out ∧ out.length = count ∧
      total out = total sorted + count * perRound.val + leftover.val := by
  by_cases h0 : perRound = 0
  · -- the `for` loop is skipped
    have hz : perRound.val = 0 := by rw [h0]; rfl
    obtain ⟨out, i, h, hlen', htot⟩ := bumpLeftover_spec count threshold leftover.val hlen hc (by simp [hz] at hfit; omega)
    exact ⟨out, by simp [bump, h0, h], hlen', by rw [htot, hz]; simp⟩
  · obtain ⟨out₁, i₁, h₁, hlen₁, hi₁, htot₁⟩ := bumpRounds_spec count threshold perRound hlen hc (by omega)
    obtain ⟨out, i, h, hlen', htot⟩ := bumpLeftover_spec count threshold leftover.val hlen₁ hi₁ (by omega)
    exact ⟨out, by simp [bump, h0, h₁, h], hlen', by omega⟩

/-- The decrement branch takes `per_round` from `count` values and then `leftover` ones, down to the target. -/
theorem trim_spec {count : Nat} {perRound leftover : Fin (2 ^ w)} {sorted : List (Nat × Fin (2 ^ w))} {target : Nat}
    (hlen : sorted.length = count) (hc : 0 < count) (hfit : total sorted < 2 ^ w)
    (htot : total sorted = target + leftover.val + count * perRound.val) :
    ∃ out, trim count perRound leftover sorted = some out ∧ out.length = count ∧ total out = target := by
  obtain ⟨first, rest, rfl⟩ := List.exists_cons_of_length_pos (show 0 < sorted.length by omega)
  -- after the `for` loop, or without it, a state of the last loop
  have hlast : ∀ st, TrimState count target st →
      ∃ out, (trimLeftover count first.2 (st.2.2.val * count) st).bind (fun st => pure st.1) = some out ∧
        out.length = count ∧ total out = target := by
    intro st hs
    obtain ⟨out, hout, hlen', htot'⟩ := trimLeftover_spec count first.2 hc st.2.2.val st hs rfl _ (Nat.le_refl _)
    obtain ⟨st', hst, rfl⟩ := Option.map_eq_some_iff.mp hout
    exact ⟨st'.1, by simp [hst], hlen', htot'⟩
  by_cases h0 : perRound = 0
  · have hz : perRound.val = 0 := by rw [h0]; rfl
    obtain ⟨out, h, hlen', htot'⟩ :=
      hlast (first :: rest, count - 1, leftover) ⟨hlen, show count - 1 < count by omega, by simpa [hz] using htot⟩
    exact ⟨out, by simpa [trim, h0] using h, hlen', htot'⟩
  · obtain ⟨out₁, i₁, leftover₁, h₁, hlen₁, hi₁, htot₁⟩ := trimRounds_spec count first.2 perRound hlen hc hfit htot
    obtain ⟨out, h, hlen', htot'⟩ := hlast (out₁, i₁, leftover₁) ⟨hlen₁, hi₁, htot₁⟩
    exact ⟨out, by simpa [trim, h0, h₁] using h, hlen', htot'⟩

/-! ## The checked sum -/

theorem foldlM_checkedAdd_of_lt : ∀ (input : List (Fin (2 ^ w))) (acc : Fin (2 ^ w)),
    acc.val + (input.map Fin.val).sum < 2 ^ w →
    ∃ sum, input.foldlM checkedAdd acc = some sum ∧ sum.val = acc.val + (input.map Fin.val).sum
  | [], acc, _ => ⟨acc, rfl, by simp⟩
  | x :: xs, acc, h => by
    simp only [List.map_cons, List.sum_cons] at h
    have hx : acc.val + x.val < 2 ^ w := by omega
    obtain ⟨sum, hs, hv⟩ := foldlM_checkedAdd_of_lt xs ⟨acc.val + x.val, hx⟩ (by simp only; omega)
    refine ⟨sum, by simp [checkedAdd_of_lt hx, hs], by simp only at hv; simp; omega⟩

theorem foldlM_checkedAdd_of_le : ∀ (input : List (Fin (2 ^ w))) (acc : Fin (2 ^ w)),
    2 ^ w ≤ acc.val + (input.map Fin.val).sum → input.foldlM checkedAdd acc = none
  | [], acc, h => absurd h (by simp)
  | x :: xs, acc, h => by
    simp only [List.map_cons, List.sum_cons] at h
    by_cases hx : acc.val + x.val < 2 ^ w
    · have := foldlM_checkedAdd_of_le xs ⟨acc.val + x.val, hx⟩ (by simp only; omega)
      simp [checkedAdd_of_lt hx, this]
    · simp [checkedAdd_of_le (Nat.le_of_not_lt hx)]

theorem checkedSum_of_lt {input : List (Fin (2 ^ w))} (h : (input.map Fin.val).sum < 2 ^ w) :
    checkedSum input = some ⟨(input.map Fin.val).sum, h⟩ := by
  obtain ⟨sum, hs, hv⟩ := foldlM_checkedAdd_of_lt input 0 (by simpa using h)
  rw [checkedSum, hs]
  congr
  exact Fin.ext (by simpa using hv)

theorem checkedSum_of_le {input : List (Fin (2 ^ w))} (h : 2 ^ w ≤ (input.map Fin.val).sum) : checkedSum input = none :=
  foldlM_checkedAdd_of_le input 0 (by simpa using h)

/-! ## `normalize` -/

theorem total_zipIdx (input : List (Fin (2 ^ w))) :
    total (input.zipIdx.map fun e => (e.2, e.1)) = (input.map Fin.val).sum := by
  rw [total, List.map_map,
    show ((fun e : Nat × Fin (2 ^ w) => e.2.val) ∘ fun e : Fin (2 ^ w) × Nat => (e.2, e.1)) = Fin.val ∘ Prod.fst
      from rfl, ← List.map_map, List.zipIdx_map_fst]

/-- Sorting back by index keeps the values, their number and their total. -/
theorem unsort_spec (out : List (Nat × Fin (2 ^ w))) :
    ((out.mergeSort fun a b => a.1 ≤ b.1).map Prod.snd).length = out.length ∧
      (((out.mergeSort fun a b => a.1 ≤ b.1).map Prod.snd).map Fin.val).sum = total out := by
  refine ⟨by simp, ?_⟩
  rw [List.map_map, ← total_perm (List.mergeSort_perm out _)]
  rfl

theorem normalize_of_sum_overflow {input : List (Fin (2 ^ w))} (targetedSum : Fin (2 ^ w))
    (h : 2 ^ w ≤ (input.map Fin.val).sum) :
    normalize input targetedSum = some (.error "sum of input cannot fit in `T`") := by
  simp [normalize, checkedSum_of_le h]

theorem normalize_of_length_overflow {input : List (Fin (2 ^ w))} (targetedSum : Fin (2 ^ w))
    (hs : (input.map Fin.val).sum < 2 ^ w) (hl : 2 ^ w ≤ input.length) :
    normalize input targetedSum = some (.error "length of `inputs` cannot fit in `T`") := by
  simp [normalize, checkedSum_of_lt hs, Nat.not_lt.mpr hl]

/-- Where the sum and the length fit, `normalize` does not panic, and its result has as many values as the input,
summing to the target unless the input is empty. -/
theorem normalize_ok {input : List (Fin (2 ^ w))} (targetedSum : Fin (2 ^ w))
    (hs : (input.map Fin.val).sum < 2 ^ w) (hl : input.length < 2 ^ w) :
    ∃ ys, normalize input targetedSum = some (.ok ys) ∧ ys.length = input.length ∧ (input = [] → ys = []) ∧
      (input ≠ [] → (ys.map Fin.val).sum = targetedSum.val) := by
  by_cases h0 : input = []
  · subst h0
    exact ⟨[], by simp [normalize, checkedSum], rfl, fun _ => rfl, fun h => absurd rfl h⟩
  have hc : 0 < input.length := List.length_pos_of_ne_nil h0
  have hc' : input.length ≠ 0 := Nat.pos_iff_ne_zero.mp hc
  let sum : Fin (2 ^ w) := ⟨(input.map Fin.val).sum, hs⟩
  let countT : Fin (2 ^ w) := ⟨input.length, hl⟩
  let diff := Max.max targetedSum sum - Min.min targetedSum sum
  let sorted := (input.zipIdx.map fun e => (e.2, e.1)).mergeSort fun a b => a.2 ≤ b.2
  have hsorted : sorted.length = input.length ∧ total sorted = sum.val :=
    ⟨by simp [sorted], by rw [total_perm (List.mergeSort_perm _ _), total_zipIdx]⟩
  have hdm : input.length * (diff / countT).val + (diff % countT).val = diff.val := by
    rw [Fin.div_val, Fin.mod_val]
    exact Nat.div_add_mod _ _
  by_cases hd : diff = 0
  · -- already at the target
    have hst : sum = targetedSum := by
      have hv := congrArg Fin.val hd
      rcases le_total targetedSum sum with hle | hle
      · simp only [diff, max_eq_right hle, min_eq_left hle, Fin.sub_val_of_le hle] at hv
        exact Fin.ext (by simp at hle hv ⊢; omega)
      · simp only [diff, max_eq_left hle, min_eq_right hle, Fin.sub_val_of_le hle] at hv
        exact Fin.ext (by simp at hle hv ⊢; omega)
    refine ⟨input, ?_, rfl, fun h => absurd h h0, fun _ => by rw [← hst]⟩
    simp only [normalize, checkedSum_of_lt hs, dif_pos hl, if_neg hc']
    rw [if_pos hd]
  · -- one of the branches
    obtain ⟨out, hout, hlen, htot⟩ : ∃ out, (if sum < targetedSum then
        bump input.length (targetedSum / countT) (diff / countT) (diff % countT) sorted
        else trim input.length (diff / countT) (diff % countT) sorted) = some out ∧
        out.length = input.length ∧ total out = targetedSum.val := by
      by_cases hlt : sum < targetedSum
      · have hdv : diff.val = targetedSum.val - sum.val := by
          simp only [diff, max_eq_left hlt.le, min_eq_right hlt.le, Fin.sub_val_of_le hlt.le]
        obtain ⟨out, h, hlen, htot⟩ := @bump_spec w input.length (targetedSum / countT) (diff / countT)
          (diff % countT) sorted hsorted.1 hc (by rw [hsorted.2]; have := Fin.lt_def.mp hlt; omega)
        refine ⟨out, by rw [if_pos hlt]; exact h, hlen, ?_⟩
        rw [htot, hsorted.2]
        have := Fin.lt_def.mp hlt
        omega
      · have hle : targetedSum ≤ sum := le_of_not_gt hlt
        have hdv : diff.val = sum.val - targetedSum.val := by
          simp only [diff, max_eq_right hle, min_eq_left hle, Fin.sub_val_of_le hle]
        obtain ⟨out, h, hlen, htot⟩ := @trim_spec w input.length (diff / countT) (diff % countT) sorted
          targetedSum.val hsorted.1 hc (by rw [hsorted.2]; exact sum.isLt)
          (by rw [hsorted.2]; have := Fin.le_def.mp hle; omega)
        exact ⟨out, by rw [if_neg hlt]; exact h, hlen, htot⟩
    obtain ⟨hlen', htot'⟩ := unsort_spec out
    refine ⟨(out.mergeSort fun a b => a.1 ≤ b.1).map Prod.snd, ?_, by rw [hlen', hlen], fun h => absurd h h0,
      fun _ => by rw [htot', htot]⟩
    simp only [normalize, checkedSum_of_lt hs, dif_pos hl, if_neg hc']
    rw [if_neg hd]
    exact (congrArg (Option.map _) hout).trans rfl

/-- `normalize` returns `Ok` exactly where the sum and the length fit. -/
theorem normalize_ok_iff {input : List (Fin (2 ^ w))} (targetedSum : Fin (2 ^ w)) :
    (∃ ys, normalize input targetedSum = some (.ok ys)) ↔
      (input.map Fin.val).sum < 2 ^ w ∧ input.length < 2 ^ w := by
  constructor
  · rintro ⟨ys, h⟩
    by_contra hfit
    rcases Nat.lt_or_ge (input.map Fin.val).sum (2 ^ w) with hs | hs
    · rw [normalize_of_length_overflow targetedSum hs (Nat.le_of_not_lt (fun hl => hfit ⟨hs, hl⟩))] at h
      cases h
    · rw [normalize_of_sum_overflow targetedSum hs] at h
      cases h
  · rintro ⟨hs, hl⟩
    obtain ⟨ys, h, -⟩ := normalize_ok targetedSum hs hl
    exact ⟨ys, h⟩

/-- `Vec<P>::normalize`: where it returns `Ok`, it has as many parts as the input, summing to the target's parts
unless the input is empty. -/
theorem normalizeFractions_ok {P : PerThing} {self : List (Fraction P)} {targetedSum : Fraction P}
    {ys : List (Fraction P)} (h : normalizeFractions P self targetedSum = some (.ok ys)) :
    ys.length = self.length ∧ (self = [] → ys = []) ∧
      (self ≠ [] → (ys.map fun p => p.parts.val).sum = targetedSum.parts.val) := by
  obtain ⟨r, hr, hys⟩ := Option.map_eq_some_iff.mp h
  obtain ⟨xs, rfl, rfl⟩ : ∃ xs, r = .ok xs ∧ ys = xs.map fun i => Fraction.fromParts (saturatedInto i) := by
    cases r with
    | error e => cases hys
    | ok xs => exact ⟨xs, rfl, (Except.ok.inj hys).symm⟩
  obtain ⟨hs, hl⟩ := (normalize_ok_iff _).mp ⟨xs, hr⟩
  obtain ⟨xs', hxs', hlen, hnil, hsum⟩ := normalize_ok (widen P.bits_le_upperBits targetedSum.deconstruct) hs hl
  obtain rfl : xs = xs' := Except.ok.inj (Option.some.inj (hr.symm.trans hxs'))
  simp only [List.length_map] at hlen
  refine ⟨by rw [List.length_map, hlen], fun he => by simp [hnil (by simp [he])], fun hne => ?_⟩
  have hsum' := hsum (by simpa using hne)
  simp only [val_widen, Fraction.deconstruct] at hsum'
  -- every value is at most the target, so saturating back to `Inner` and `from_parts` keep it
  have hkeep : ∀ x ∈ xs, (Fraction.fromParts (saturatedInto x) : Fraction P).parts.val = x.val := by
    intro x hx
    have hle : x.val ≤ targetedSum.parts.val :=
      hsum' ▸ List.le_sum_of_mem (List.mem_map_of_mem hx)
    have hacc := targetedSum.le_accuracy
    rw [Fraction.val_fromParts, val_saturatedInto_of_lt (by have := P.accuracy_lt; omega)]
    exact Nat.min_eq_left (by omega)
  have hparts : xs.map ((fun p : Fraction P => p.parts.val) ∘ fun i => Fraction.fromParts (saturatedInto i)) =
      xs.map Fin.val :=
    List.map_congr_left hkeep
  rw [List.map_map, hparts, hsum']

/-- `normalize` on words of any width: `Err` with the first message where the sum does not fit, with the second where
only the length does not, and otherwise `Ok`, without panic, with as many values as the input, summing to the target
unless the input is empty. `Vec<P>::normalize` likewise where it returns `Ok`. -/
theorem normalize_sums_to_target (input : List (Fin (2 ^ w))) (targetedSum : Fin (2 ^ w)) :
    ((∃ e, normalize input targetedSum = some (.error e)) ↔
      2 ^ w ≤ (input.map Fin.val).sum ∨ 2 ^ w ≤ input.length) ∧
    (2 ^ w ≤ (input.map Fin.val).sum →
      normalize input targetedSum = some (.error "sum of input cannot fit in `T`")) ∧
    ((input.map Fin.val).sum < 2 ^ w → 2 ^ w ≤ input.length →
      normalize input targetedSum = some (.error "length of `inputs` cannot fit in `T`")) ∧
    ((input.map Fin.val).sum < 2 ^ w → input.length < 2 ^ w →
      ∃ ys, normalize input targetedSum = some (.ok ys) ∧ ys.length = input.length ∧ (input = [] → ys = []) ∧
        (input ≠ [] → (ys.map Fin.val).sum = targetedSum.val)) ∧
    ∀ (P : PerThing) (self : List (Fraction P)) (target : Fraction P) (ys : List (Fraction P)),
      normalizeFractions P self target = some (.ok ys) →
      ys.length = self.length ∧ (self = [] → ys = []) ∧
        (self ≠ [] → (ys.map fun p => p.parts.val).sum = target.parts.val) := by
  refine ⟨⟨fun ⟨e, he⟩ => ?_, fun hover => ?_⟩, normalize_of_sum_overflow targetedSum,
    normalize_of_length_overflow targetedSum, normalize_ok targetedSum, fun _ _ _ _ h => normalizeFractions_ok h⟩
  · -- an error is no `Ok`
    by_contra hfit
    push Not at hfit
    obtain ⟨ys, hys, -⟩ := normalize_ok targetedSum hfit.1 hfit.2
    rw [hys] at he
    cases he
  · rcases Nat.lt_or_ge (input.map Fin.val).sum (2 ^ w) with hs | hs
    · exact ⟨_, normalize_of_length_overflow targetedSum hs (hover.resolve_left (Nat.not_le.mpr hs))⟩
    · exact ⟨_, normalize_of_sum_overflow targetedSum hs⟩

theorem normalize_sums_to_target_bytes :
    ∃ ys, normalize ([1, 2, 3] : List (Fin (2 ^ 8))) 10 = some (.ok ys) ∧ ys.length = 3 ∧
      (ys.map Fin.val).sum = 10 := by
  obtain ⟨ys, h, hlen, -, hsum⟩ :=
    (normalize_sums_to_target ([1, 2, 3] : List (Fin (2 ^ 8))) 10).2.2.2.1 (by decide) (by decide)
  exact ⟨ys, h, hlen, hsum (by simp)⟩

/-- For an empty input `Vec<P>::normalize` returns `Ok` with no parts, whatever the target. -/
theorem normalize_fractions_empty :
    normalizeFractions perbill [] Fraction.one = some (.ok []) ∧
      (([] : List (Fraction perbill)).map fun p => p.parts.val).sum ≠ (Fraction.one : Fraction perbill).parts.val := by
  refine ⟨by simp [normalizeFractions, normalize, checkedSum, Except.map], ?_⟩
  simp [Fraction.one, PerThing.accuracyInner, perbill]

end CoreChain.Arith

import Mathlib

/-!
# XCM locations: prepending, inverting and reanchoring

`Location` (`xcm/src/v5/location.rs`) is a count of parents (a `u8`) and at most `MAX_JUNCTIONS` interior
junctions. Read in a context `C`, the absolute junction list of a universal location, it denotes `C` without its last
`parents` junctions, followed by the interior (`Location.abs`).

- `prepend_with(X, P)` checks the junction and parent bounds, cancels `X`'s parents against `P`'s last junctions one
  at a time, and puts `P`'s remaining junctions in front: it denotes `X` read from where `P` leads
  (`abs_prependWith`). `append_with` is the mirror image.
- `C.invert_target(T)` is `C` as seen from `T` (`abs_invertTarget`), when `T` has no more parents than `C` has
  junctions.
- `reanchor(X, T, C)` prepends that inverse and `simplify`s the result against `T`'s interior; it never changes what
  `X` denotes (`reanchor_keeps_denotation`). `simplify` cancels a parent only against a junction of `T`'s interior: one
  that the part of `C` above `T` would cancel is kept (`reanchor_keeps_parent_above_target`).

The junction type `J` is arbitrary, with its `OnlyChild` given.
-/

namespace CoreChain.Xcm

variable {J : Type}

/-- `MAX_JUNCTIONS`. -/
def maxJunctions : Nat := 8

/-- `Junctions`: at most `MAX_JUNCTIONS` junctions. -/
structure Junctions (J : Type) where
  items : List J
  length_le : items.length ≤ maxJunctions

/-- `Location`: its parents are a `u8`. -/
structure Location (J : Type) where
  parents : Nat
  parents_lt : parents < 256
  interior : Junctions J

namespace Junctions

/-- `take_last`: the junctions without the last, and the last. -/
def takeLast (js : Junctions J) : Junctions J × Option J :=
  (⟨js.items.dropLast, Nat.le_trans (by simp) js.length_le⟩, js.items.getLast?)

/-- `take_first`: the junctions without the first, and the first. -/
def takeFirst (js : Junctions J) : Junctions J × Option J :=
  (⟨js.items.tail, Nat.le_trans (by simp) js.length_le⟩, js.items.head?)

/-- `push_front`: `none` when there are `MAX_JUNCTIONS` already. -/
def pushFront (j : J) (js : Junctions J) : Option (Junctions J) :=
  if h : js.items.length < maxJunctions then some ⟨j :: js.items, h⟩ else none

/-- `Here`. -/
def here : Junctions J :=
  ⟨[], Nat.zero_le _⟩

end Junctions

namespace Location

/-- The denotation: `C` without its last `parents` junctions, then the interior. -/
def abs (C : List J) (x : Location J) : List J :=
  C.take (C.length - x.parents) ++ x.interior.items

/-! ## `prepend_with` and `append_with` -/

/-- `while self.parents > 0 && prefix.take_last().is_some() { self.dec_parent() }`: the parents left, and `prefix`'s
junctions. -/
def cancelParents : Nat → Junctions J → Nat × Junctions J
  | 0, pre => (0, pre)
  | p + 1, pre =>
    match pre.takeLast with
    | (rest, some _) => cancelParents p rest
    | (_, none) => (p + 1, pre)

/-- `for j in prefix.interior.into_iter().rev() { self.push_front_interior(j).expect(..) }`; `none` is the panic. -/
def pushFrontAll (pre : List J) (js : Junctions J) : Option (Junctions J) :=
  pre.reverse.foldl (fun acc j => acc.bind (Junctions.pushFront j)) (some js)

/-- `prepend_with`: the location after the call and its result; `none` is a panic of `expect`. -/
def prependWith (self pre : Location J) : Option (Location J × Except (Location J) Unit) :=
  let prependInterior := pre.interior.items.length - self.parents
  let finalInterior := self.interior.items.length + prependInterior
  if finalInterior > maxJunctions then some (self, .error pre)
  else
    let suffixParents := self.parents - pre.interior.items.length
    let finalParents := pre.parents + suffixParents
    if finalParents > 255 then some (self, .error pre)
    else
      let (parents, preInterior) := cancelParents self.parents pre.interior
      -- `saturating_add` of `u8`
      let parents' := min (parents + pre.parents) 255
      (pushFrontAll preInterior.items self.interior).map fun interior =>
        (⟨parents', by omega, interior⟩, .ok ())

/-- `append_with`: `self` becomes the suffix prepended with the old `self`, and is put back on an error. -/
def appendWith (self suffix : Location J) : Option (Location J × Except (Location J) Unit) :=
  (prependWith suffix self).map fun
    | (s, .ok ()) => (s, .ok ())
    | (s, .error pre) => (pre, .error s)

theorem cancelParents_eq : ∀ (p : Nat) (pre : Junctions J),
    (cancelParents p pre).1 = p - pre.items.length ∧
      (cancelParents p pre).2.items = pre.items.take (pre.items.length - p)
  | 0, pre => by simp [cancelParents]
  | p + 1, pre => by
    unfold cancelParents
    cases hlast : pre.items.getLast? with
    | none =>
      have hnil : pre.items = [] := List.getLast?_eq_none_iff.1 hlast
      simp [Junctions.takeLast, hnil]
    | some j =>
      obtain ⟨h₁, h₂⟩ := cancelParents_eq p (pre.takeLast).1
      have hpos : 0 < pre.items.length := List.length_pos_iff.2 fun h => by simp [h] at hlast
      simp only [Junctions.takeLast, hlast] at h₁ h₂ ⊢
      rw [List.length_dropLast] at h₁ h₂
      refine ⟨by omega, ?_⟩
      rw [h₂, List.dropLast_eq_take, List.take_take]
      congr 1
      omega

theorem foldl_pushFront : ∀ (l : List J) (js : Junctions J), l.length + js.items.length ≤ maxJunctions →
    ∃ js', l.foldl (fun acc j => acc.bind (Junctions.pushFront j)) (some js) = some js' ∧
      js'.items = l.reverse ++ js.items
  | [], js, _ => ⟨js, rfl, rfl⟩
  | j :: l, js, h => by
    have hlt : js.items.length < maxJunctions := by
      simp only [List.length_cons] at h
      omega
    obtain ⟨js', h₁, h₂⟩ := foldl_pushFront l ⟨j :: js.items, hlt⟩ (by simp only [List.length_cons] at h ⊢; omega)
    refine ⟨js', ?_, by simp [h₂]⟩
    simp only [List.foldl_cons, Option.bind_some, Junctions.pushFront, dif_pos hlt]
    exact h₁

theorem pushFrontAll_eq (pre : List J) (js : Junctions J) (h : pre.length + js.items.length ≤ maxJunctions) :
    ∃ js', pushFrontAll pre js = some js' ∧ js'.items = pre ++ js.items := by
  obtain ⟨js', h₁, h₂⟩ := foldl_pushFront pre.reverse js (by rw [List.length_reverse]; exact h)
  exact ⟨js', h₁, by rw [h₂, List.reverse_reverse]⟩

/-- `prepend_with` fails without touching `self`, or gives `pre`'s parents and those of `self` it did not cancel,
then `pre`'s junctions it did not cancel and those of `self`. It never panics. -/
theorem prependWith_eq (self pre : Location J) :
    prependWith self pre = some (self, .error pre) ∨
      ∃ x, prependWith self pre = some (x, .ok ()) ∧
        x.parents = pre.parents + (self.parents - pre.interior.items.length) ∧
        x.interior.items = pre.interior.items.take (pre.interior.items.length - self.parents) ++ self.interior.items := by
  unfold prependWith
  dsimp only
  split_ifs with hj hp
  · exact Or.inl rfl
  · exact Or.inl rfl
  · obtain ⟨h₁, h₂⟩ := cancelParents_eq self.parents pre.interior
    obtain ⟨js, hjs, hitems⟩ := pushFrontAll_eq (cancelParents self.parents pre.interior).2.items self.interior
      (by rw [h₂, List.length_take]; omega)
    refine Or.inr ⟨_, by rw [hjs]; rfl, ?_, by rw [hitems, h₂]⟩
    show min ((cancelParents self.parents pre.interior).1 + pre.parents) 255 = _
    omega

/-- Reading `C` without its last `a` junctions and then `A`, without its last `b` junctions: what is left of `A`
after `b`, or of `C` after `a` and the rest of `b`. -/
theorem take_compose (C A : List J) (a b : Nat) :
    (C.take (C.length - a) ++ A).take ((C.take (C.length - a) ++ A).length - b) =
      C.take (C.length - (a + (b - A.length))) ++ A.take (A.length - b) := by
  rw [List.take_append, List.take_take, List.length_append, List.length_take]
  congr 2 <;> omega

/-- `prepend_with(X, P)` denotes `X` read from where `P` leads, in every context. -/
theorem abs_prependWith (C : List J) (X P : Location J) :
    prependWith X P = some (X, .error P) ∨
      ∃ X', prependWith X P = some (X', .ok ()) ∧ abs C X' = abs (abs C P) X := by
  rcases prependWith_eq X P with h | ⟨X', h, hp, hi⟩
  · exact Or.inl h
  · refine Or.inr ⟨X', h, ?_⟩
    unfold abs
    rw [hp, hi, ← List.append_assoc, ← take_compose]

/-- `append_with(X, S)` denotes `S` read from where `X` leads. -/
theorem abs_appendWith (C : List J) (X S : Location J) :
    appendWith X S = some (X, .error S) ∨
      ∃ X', appendWith X S = some (X', .ok ()) ∧ abs C X' = abs (abs C X) S := by
  unfold appendWith
  rcases abs_prependWith C S X with h | ⟨X', h, habs⟩
  · rw [h]
    exact Or.inl rfl
  · rw [h]
    exact Or.inr ⟨X', rfl, habs⟩

/-! ## `invert_target`, `simplify` and `reanchor` -/

/-- The loop of `invert_target`: `target.parent_count()` times, the last junction of `itself` (or `OnlyChild`) pushed
in front; `none` is an overflow. -/
def invertLoop (onlyChild : J) : Nat → Junctions J → Junctions J → Option (Junctions J)
  | 0, _, js => some js
  | n + 1, itself, js =>
    let (rest, j) := itself.takeLast
    (js.pushFront (j.getD onlyChild)).bind (invertLoop onlyChild n rest)

/-- `Junctions::invert_target`: the local consensus system seen from `target`, in the context `self`. -/
def invertTarget (onlyChild : J) (self : Junctions J) (target : Location J) : Except Unit (Location J) :=
  match invertLoop onlyChild target.parents self Junctions.here with
  | some js =>
    .ok ⟨target.interior.items.length, Nat.lt_of_le_of_lt target.interior.length_le (by decide), js⟩
  | none => .error ()

/-- The loop of `invert_target` moves the last `n` junctions of `itself` in front of `js`, in order. -/
theorem invertLoop_eq (onlyChild : J) : ∀ (n : Nat) (itself js : Junctions J), n ≤ itself.items.length →
    n + js.items.length ≤ maxJunctions →
    ∃ js', invertLoop onlyChild n itself js = some js' ∧
      js'.items = itself.items.drop (itself.items.length - n) ++ js.items
  | 0, itself, js, _, _ => ⟨js, rfl, by simp⟩
  | n + 1, itself, js, hn, hjs => by
    have hne : itself.items ≠ [] := List.length_pos_iff.1 (by omega)
    have hlt : js.items.length < maxJunctions := by omega
    obtain ⟨js', h₁, h₂⟩ := invertLoop_eq onlyChild n itself.takeLast.1 ⟨itself.items.getLast hne :: js.items, hlt⟩
      (by simp only [Junctions.takeLast, List.length_dropLast]; omega) (by simp only [List.length_cons]; omega)
    refine ⟨js', ?_, ?_⟩
    · simp only [invertLoop, Junctions.takeLast, List.getLast?_eq_some_getLast hne, Option.getD_some,
        Junctions.pushFront, dif_pos hlt, Option.bind_some]
      exact h₁
    · -- the last junction comes after the ones moved before it
      have hlast : (itself.items.dropLast ++ [itself.items.getLast hne]).drop (itself.items.dropLast.length - n) =
          itself.items.dropLast.drop (itself.items.dropLast.length - n) ++ [itself.items.getLast hne] :=
        List.drop_append_of_le_length (Nat.sub_le _ _)
      rw [List.dropLast_append_getLast hne] at hlast
      rw [h₂, show itself.items.length - (n + 1) = itself.items.dropLast.length - n by
        rw [List.length_dropLast]; omega, hlast, List.append_assoc, List.singleton_append]
      rfl

/-- Read from `T`, the inverse of `T` in the context `C` is `C`, when `T` has no more parents than `C` has
junctions. -/
theorem abs_invertTarget (onlyChild : J) (C : Junctions J) (T : Location J) (h : T.parents ≤ C.items.length) :
    ∃ inv, invertTarget onlyChild C T = .ok inv ∧ abs (abs C.items T) inv = C.items := by
  obtain ⟨js, hjs, hitems⟩ := invertLoop_eq onlyChild T.parents C Junctions.here h
    (by simp only [Junctions.here, List.length_nil, Nat.add_zero]; exact Nat.le_trans h C.length_le)
  refine ⟨_, by rw [invertTarget, hjs], ?_⟩
  unfold abs
  rw [hitems, Junctions.here, List.append_nil, List.length_append, Nat.add_sub_cancel,
    List.take_append_of_le_length (Nat.le_refl _), List.take_length, List.take_append_drop]

/-- After `simplify`, no parent is left that cancels against the junction of the context at its depth. -/
def SimplifiedAt (context : Junctions J) (parents : Nat) (interior : List J) : Prop :=
  0 < parents → parents ≤ context.items.length → ∀ a, interior.head? = some a →
    context.items[context.items.length - parents]? ≠ some a

variable [DecidableEq J]

/-- The loop of `simplify`: while there are parents, cancel one against a first junction equal to the context's
junction at that depth. -/
def simplifyLoop (context : Junctions J) : Nat → Junctions J → Nat × Junctions J
  | 0, i => (0, i)
  | p + 1, i =>
    match i.items.head?, context.items[context.items.length - (p + 1)]? with
    | some a, some b => if a = b then simplifyLoop context p i.takeFirst.1 else (p + 1, i)
    | _, _ => (p + 1, i)

theorem simplifyLoop_le (context : Junctions J) : ∀ (p : Nat) (i : Junctions J), (simplifyLoop context p i).1 ≤ p
  | 0, _ => Nat.le_refl _
  | p + 1, i => by
    unfold simplifyLoop
    split
    · split
      · exact Nat.le_succ_of_le (simplifyLoop_le context p _)
      · exact Nat.le_refl _
    · exact Nat.le_refl _

/-- `simplify`: nothing when the context is shorter than the parents. -/
def simplify (self : Location J) (context : Junctions J) : Location J :=
  if context.items.length < self.parents then self
  else
    let r := simplifyLoop context self.parents self.interior
    ⟨r.1, Nat.lt_of_le_of_lt (simplifyLoop_le context _ _) self.parents_lt, r.2⟩

/-- `reanchor`: the location after the call and its result; `none` is a panic. -/
def reanchor (onlyChild : J) (self target : Location J) (context : Junctions J) :
    Option (Location J × Except Unit Unit) :=
  match invertTarget onlyChild context target with
  | .error () => some (self, .error ())
  | .ok inverted =>
    (prependWith self inverted).map fun
      | (s, .ok ()) => (simplify s target.interior, .ok ())
      | (s, .error _) => (s, .error ())

/-- A step of `simplify` keeps the denotation in a context ending with `context`: the junction it drops is the one
the parent it drops would reach. -/
theorem simplifyLoop_abs (E : List J) (context : Junctions J) : ∀ (p : Nat) (i : Junctions J),
    p ≤ context.items.length →
    (E ++ context.items).take ((E ++ context.items).length - (simplifyLoop context p i).1) ++
        (simplifyLoop context p i).2.items =
      (E ++ context.items).take ((E ++ context.items).length - p) ++ i.items
  | 0, _, _ => rfl
  | p + 1, i, hp => by
    unfold simplifyLoop
    split
    · rename_i a b ha hb
      split
      · rename_i hab
        subst hab
        rw [simplifyLoop_abs E context p _ (by omega)]
        obtain ⟨tail, htail⟩ : ∃ tail, i.items = a :: tail := by
          cases h : i.items with
          | nil => simp [h] at ha
          | cons x tail =>
            rw [h, List.head?_cons, Option.some.injEq] at ha
            exact ⟨tail, by rw [ha]⟩
        have hget : (E ++ context.items)[(E ++ context.items).length - (p + 1)]? = some a := by
          rw [List.getElem?_append_right (by rw [List.length_append]; omega), List.length_append, ← hb]
          congr 1
          omega
        simp only [Junctions.takeFirst, htail, List.tail_cons]
        rw [show (E ++ context.items).length - p = (E ++ context.items).length - (p + 1) + 1 by
          rw [List.length_append]; omega, List.take_add_one, hget, Option.toList_some, List.append_assoc,
          List.singleton_append]
      · rfl
    · rfl

theorem simplifyLoop_simplified (context : Junctions J) : ∀ (p : Nat) (i : Junctions J),
    SimplifiedAt context (simplifyLoop context p i).1 (simplifyLoop context p i).2.items
  | 0, _ => fun h => absurd h (Nat.lt_irrefl 0)
  | p + 1, i => by
    unfold simplifyLoop
    split
    · rename_i a b ha hb
      split
      · exact simplifyLoop_simplified context p _
      · rename_i hab
        intro _ _ a' ha'
        rw [ha] at ha'
        rw [hb, ← Option.some.inj ha']
        exact fun h => hab (Option.some.inj h).symm
    · rename_i hnot
      intro _ _ a ha
      cases hb : context.items[context.items.length - (p + 1)]? with
      | none => exact (Option.some_ne_none a).symm
      | some b => exact absurd ha.symm (fun h => hnot a b h.symm hb)

theorem abs_simplify (E : List J) (x : Location J) (context : Junctions J) :
    abs (E ++ context.items) (simplify x context) = abs (E ++ context.items) x := by
  unfold simplify abs
  split
  · rfl
  · exact simplifyLoop_abs E context x.parents x.interior (by omega)

theorem simplified_simplify (x : Location J) (context : Junctions J) :
    SimplifiedAt context (simplify x context).parents (simplify x context).interior.items := by
  unfold simplify
  split
  · rename_i h
    intro _ hle
    omega
  · exact simplifyLoop_simplified context x.parents x.interior

/-- `reanchor` fails without touching `X`, or gives a location that denotes from `T` what `X` denotes here, with
no parent left that cancels against `T`'s interior. -/
theorem abs_reanchor (onlyChild : J) (C : Junctions J) (T X : Location J) (h : T.parents ≤ C.items.length) :
    reanchor onlyChild X T C = some (X, .error ()) ∨
      ∃ X', reanchor onlyChild X T C = some (X', .ok ()) ∧ abs (abs C.items T) X' = abs C.items X ∧
        SimplifiedAt T.interior X'.parents X'.interior.items := by
  obtain ⟨inv, hinv, habs⟩ := abs_invertTarget onlyChild C T h
  unfold reanchor
  rw [hinv]
  dsimp only
  rcases abs_prependWith (abs C.items T) X inv with h' | ⟨X', h', habs'⟩
  · rw [h']
    exact Or.inl rfl
  · rw [h']
    refine Or.inr ⟨simplify X' T.interior, rfl, ?_, simplified_simplify X' T.interior⟩
    -- `simplify` works in `C` seen from `T`, which ends with `T`'s interior
    calc abs (abs C.items T) (simplify X' T.interior)
        = abs (abs C.items T) X' := abs_simplify (C.items.take (C.items.length - T.parents)) X' T.interior
      _ = abs (abs (abs C.items T) inv) X := habs'
      _ = abs C.items X := by rw [habs]

/-- `prepend_with` and `append_with` compose denotations in every context, `invert_target` inverts `T` in a context
with at least `T`'s parents, and `reanchor` keeps what a location denotes, leaving no parent that cancels against
`T`'s interior. -/
theorem reanchor_keeps_denotation (onlyChild : J) :
    (∀ (C : List J) (X P : Location J), prependWith X P = some (X, .error P) ∨
      ∃ X', prependWith X P = some (X', .ok ()) ∧ abs C X' = abs (abs C P) X) ∧
    (∀ (C : List J) (X S : Location J), appendWith X S = some (X, .error S) ∨
      ∃ X', appendWith X S = some (X', .ok ()) ∧ abs C X' = abs (abs C X) S) ∧
    (∀ (C : Junctions J) (T : Location J), T.parents ≤ C.items.length →
      ∃ inv, invertTarget onlyChild C T = .ok inv ∧ abs (abs C.items T) inv = C.items) ∧
    ∀ (C : Junctions J) (T X : Location J), T.parents ≤ C.items.length →
      reanchor onlyChild X T C = some (X, .error ()) ∨
        ∃ X', reanchor onlyChild X T C = some (X', .ok ()) ∧ abs (abs C.items T) X' = abs C.items X ∧
          SimplifiedAt T.interior X'.parents X'.interior.items :=
  ⟨abs_prependWith, abs_appendWith, abs_invertTarget onlyChild, abs_reanchor onlyChild⟩

/-- Reanchoring `(2, [1])` to the parent `(1, Here)` in the context `[1, 2]`. -/
theorem reanchor_keeps_denotation_toParent :
    reanchor 0 ⟨2, by decide, ⟨[1], by decide⟩⟩ ⟨1, by decide, Junctions.here⟩ ⟨[1, 2], by decide⟩ =
        some (⟨2, by decide, ⟨[1], by decide⟩⟩, .error ()) ∨
      ∃ X', reanchor 0 ⟨2, by decide, ⟨[1], by decide⟩⟩ ⟨1, by decide, Junctions.here⟩ ⟨[1, 2], by decide⟩ =
          some (X', .ok ()) ∧
        abs (abs [1, 2] ⟨1, by decide, Junctions.here⟩) X' = abs [1, 2] ⟨2, by decide, ⟨[1], by decide⟩⟩ ∧
        SimplifiedAt Junctions.here X'.parents X'.interior.items := by
  have h := reanchor_keeps_denotation (0 : Nat)
  exact h.2.2.2 ⟨[1, 2], by decide⟩ ⟨1, by decide, Junctions.here⟩ ⟨2, by decide, ⟨[1], by decide⟩⟩ (by decide)

/-- In the context `[1, 2]`, reanchoring `(2, [1])` to the parent `(1, Here)` gives `(1, [1])`: seen from the parent,
`[1]`, its parent cancels against its first junction, as `(0, Here)` shows, but `simplify` compares with the parent's
empty interior and keeps it. -/
theorem reanchor_keeps_parent_above_target :
    (reanchor 0 ⟨2, by decide, ⟨[1], by decide⟩⟩ ⟨1, by decide, Junctions.here⟩ ⟨[1, 2], by decide⟩).map
        (fun r => (r.1.parents, r.1.interior.items, r.2)) = some (1, [1], .ok ()) ∧
      abs (abs [1, 2] ⟨1, by decide, Junctions.here⟩) ⟨1, by decide, ⟨[1], by decide⟩⟩ = [1] ∧
      abs (abs [1, 2] ⟨1, by decide, Junctions.here⟩) ⟨0, by decide, Junctions.here⟩ = [1] :=
  ⟨rfl, rfl, rfl⟩

end Location

end CoreChain.Xcm

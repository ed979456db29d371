import Mathlib

/-!
# Rows of a binary hash tree

A row of nodes is paired up into the row above it: the nodes at `2k` and `2k + 1` are joined by `f`, and an odd
last node is carried up unchanged. Pairing up until one node is left gives the `top` of a row. The `path` of a
position lists the neighbours it is joined with on the way up, and `climb` rebuilds the top from a node and a
path, taking the side of each join from a position and a width that it halves as it goes.

- `getElem?_pairUp`: the node above a position is its `join` with its `sibling`;
- `climb_path`: climbing a node's own path, from a position and width that `Tracks` it, gives the top;
- `climb_eq_or_collides`: two climbs of one length that meet started at one node, or at some row they join two
  different pairs into one node.
-/

namespace CoreChain

variable {α : Type*} (f : α → α → α)

/-- One row up: neighbours joined by `f`, an odd last node carried up. -/
def pairUp : List α → List α
  | a :: b :: rest => f a b :: pairUp rest
  | xs => xs

@[simp] theorem pairUp_nil : pairUp f ([] : List α) = [] := rfl

@[simp] theorem pairUp_singleton (a : α) : pairUp f [a] = [a] := rfl

@[simp] theorem pairUp_cons_cons (a b : α) (rest : List α) :
    pairUp f (a :: b :: rest) = f a b :: pairUp f rest := rfl

theorem length_pairUp : ∀ xs : List α, (pairUp f xs).length = (xs.length + 1) / 2
  | [] | [_] => by simp
  | _ :: _ :: rest => by
    simp only [pairUp_cons_cons, List.length_cons, length_pairUp rest]
    omega

theorem length_pairUp_lt {xs : List α} (h : 2 ≤ xs.length) : (pairUp f xs).length < xs.length := by
  rw [length_pairUp]
  omega

/-- The neighbour that position `p` is joined with, if it has one. -/
def sibling (xs : List α) (p : Nat) : Option α :=
  if p % 2 = 1 then xs[p - 1]? else xs[p + 1]?

/-- A node joined with its neighbour, on the side its position gives; a node without one is carried up. -/
def join (p : Nat) (a : α) : Option α → α
  | some s => if p % 2 = 1 then f s a else f a s
  | none => a

theorem sibling_cons_cons (a b : α) (rest : List α) (p : Nat) :
    sibling (a :: b :: rest) (p + 2) = sibling rest p := by
  unfold sibling
  have hp : (p + 2) % 2 = p % 2 := by omega
  rw [hp]
  split
  · obtain ⟨k, rfl⟩ : ∃ k, p = k + 1 := ⟨p - 1, by omega⟩
    simp
  · simp

theorem sibling_eq_none {xs : List α} {p : Nat} (hp : p < xs.length) :
    sibling xs p = none ↔ p % 2 = 0 ∧ p + 1 = xs.length := by
  unfold sibling
  split <;> simp only [List.getElem?_eq_none_iff] <;> omega

theorem getElem?_pairUp : ∀ (xs : List α) (p : Nat) (hp : p < xs.length),
    (pairUp f xs)[p / 2]? = some (join f p xs[p] (sibling xs p))
  | [_], 0, _ => rfl
  | _ :: _ :: _, 0, _ => rfl
  | _ :: _ :: _, 1, _ => rfl
  | a :: b :: rest, p + 2, hp => by
    have ih := getElem?_pairUp rest p (by simp at hp; omega)
    have hq : (p + 2) / 2 = p / 2 + 1 := by omega
    have hj : join f (p + 2) = join f p := by
      funext x s
      cases s <;> simp [join, Nat.add_mod_right]
    rw [pairUp_cons_cons, hq, List.getElem?_cons_succ, ih, sibling_cons_cons, hj]
    rfl

/-- Pairing up until one node is left; an empty row has the default top. -/
def top [Inhabited α] (xs : List α) : α :=
  if _h : 2 ≤ xs.length then top (pairUp f xs) else xs.headD default
termination_by xs.length
decreasing_by exact length_pairUp_lt f ‹_›

/-- The neighbours that position `p` is joined with on the way to the top. -/
def path (xs : List α) (p : Nat) : List α :=
  if _h : 2 ≤ xs.length then (sibling xs p).toList ++ path (pairUp f xs) (p / 2) else []
termination_by xs.length
decreasing_by exact length_pairUp_lt f ‹_›

@[simp] theorem top_nil [Inhabited α] : top f ([] : List α) = default := by
  rw [top]
  simp

@[simp] theorem top_singleton [Inhabited α] (a : α) : top f [a] = a := by
  rw [top]
  simp

theorem top_of_two_le [Inhabited α] {xs : List α} (h : 2 ≤ xs.length) : top f xs = top f (pairUp f xs) := by
  rw [top, dif_pos h]

@[simp] theorem path_singleton (a : α) (p : Nat) : path f [a] p = [] := by
  rw [path]
  simp

theorem path_of_two_le {xs : List α} (h : 2 ≤ xs.length) (p : Nat) :
    path f xs p = (sibling xs p).toList ++ path f (pairUp f xs) (p / 2) := by
  rw [path, dif_pos h]

/-- Climbing from a node at `position` of a row `width` wide: each neighbour is joined on the left when the
position is odd or the last of its row, and position and width move one row up. -/
def climb : List α → α → Nat → Nat → α
  | [], a, _, _ => a
  | b :: bs, a, position, width =>
    climb bs (if position % 2 = 1 ∨ position + 1 = width then f b a else f a b) (position / 2)
      ((width - 1) / 2 + 1)

/-! ## A climb follows a node up -/

/-- A climb at `(position, width)` follows the node at `p` of a row of `len` nodes: at the same place, or both
last in their rows. -/
def Tracks (position width p len : Nat) : Prop :=
  (position = p ∧ width = len) ∨ (position + 1 = width ∧ p + 1 = len)

theorem tracks_refl (p len : Nat) : Tracks p len p len := Or.inl ⟨rfl, rfl⟩

section Tracks

variable {position width p len : Nat}

theorem Tracks.left_iff (ht : Tracks position width p len) (hs : p % 2 = 1 ∨ p + 1 < len) :
    (position % 2 = 1 ∨ position + 1 = width) ↔ p % 2 = 1 := by
  unfold Tracks at ht
  omega

theorem Tracks.up (ht : Tracks position width p len) (hp : p < len) (hs : p % 2 = 1 ∨ p + 1 < len) :
    Tracks (position / 2) ((width - 1) / 2 + 1) (p / 2) ((len + 1) / 2) := by
  unfold Tracks at ht ⊢
  omega

theorem Tracks.up_last (ht : Tracks position width p len) (hp : p % 2 = 0 ∧ p + 1 = len) :
    Tracks position width (p / 2) ((len + 1) / 2) := by
  unfold Tracks at ht ⊢
  omega

end Tracks

theorem climb_path [Inhabited α] (xs : List α) (p : Nat) (hp : p < xs.length) (position width : Nat)
    (ht : Tracks position width p xs.length) :
    climb f (path f xs p) xs[p] position width = top f xs := by
  induction xs using WellFounded.induction (measure List.length).wf generalizing p position width with
  | h xs ih =>
  by_cases h2 : 2 ≤ xs.length
  · rw [path_of_two_le f h2, top_of_two_le f h2]
    have hup := getElem?_pairUp f xs p hp
    have hlt : p / 2 < (pairUp f xs).length := by rw [length_pairUp]; omega
    have hlen : (pairUp f xs).length = (xs.length + 1) / 2 := length_pairUp f xs
    have hnext : (pairUp f xs)[p / 2] = join f p xs[p] (sibling xs p) := by
      rw [List.getElem?_eq_getElem hlt] at hup
      exact Option.some.inj hup
    rcases hs : sibling xs p with _ | s
    · have hlast := (sibling_eq_none hp).1 hs
      rw [hs, join] at hnext
      rw [Option.toList_none, List.nil_append, ← hnext]
      exact ih _ (length_pairUp_lt f h2) _ hlt _ _ (hlen ▸ ht.up_last hlast)
    · have hside : p % 2 = 1 ∨ p + 1 < xs.length := by
        by_contra hc
        have : sibling xs p = none := (sibling_eq_none hp).2 (by omega)
        simp [hs] at this
      rw [hs, join] at hnext
      rw [Option.toList_some, List.singleton_append, climb, if_congr (ht.left_iff hside) rfl rfl,
        ← hnext]
      exact ih _ (length_pairUp_lt f h2) _ hlt _ _ (hlen ▸ ht.up hp hside)
  · have h1 : xs.length = 1 := by omega
    obtain ⟨a, rfl⟩ := List.length_eq_one_iff.1 h1
    have hp0 : p = 0 := by simp at hp; omega
    subst hp0
    simp [climb]

/-! ## Climbs that meet -/

/-- The pair a climb joins at one row, on the sides `climb` puts them. -/
def joinedPair (b a : α) (position width : Nat) : α × α :=
  if position % 2 = 1 ∨ position + 1 = width then (b, a) else (a, b)

/-- The pairs a climb joins, one for each row from the bottom up. -/
def climbPairs : List α → α → Nat → Nat → List (α × α)
  | [], _, _, _ => []
  | b :: bs, a, position, width =>
    joinedPair b a position width ::
      climbPairs bs (Function.uncurry f (joinedPair b a position width)) (position / 2) ((width - 1) / 2 + 1)

theorem climb_cons (b a : α) (bs : List α) (position width : Nat) :
    climb f (b :: bs) a position width =
      climb f bs (Function.uncurry f (joinedPair b a position width)) (position / 2) ((width - 1) / 2 + 1) := by
  rw [climb, joinedPair]
  split <;> rfl

theorem joinedPair_inj {b a b' a' : α} {position width : Nat}
    (h : joinedPair b a position width = joinedPair b' a' position width) : b = b' ∧ a = a' := by
  unfold joinedPair at h
  split at h
  · exact Prod.mk.inj h
  · exact (Prod.mk.inj h).symm

theorem climb_eq_or_collides : ∀ {bs bs' : List α} {a a' : α} {position width : Nat},
    bs.length = bs'.length → climb f bs a position width = climb f bs' a' position width →
      a = a' ∨ ∃ (k : Nat) (q q' : α × α), (climbPairs f bs a position width)[k]? = some q ∧
        (climbPairs f bs' a' position width)[k]? = some q' ∧ q ≠ q' ∧ f q.1 q.2 = f q'.1 q'.2
  | [], [], _, _, _, _, _, h => Or.inl h
  | b :: bs, b' :: bs', a, a', position, width, hl, h => by
    rw [climb_cons, climb_cons] at h
    rcases climb_eq_or_collides (by simpa using hl) h with hu | ⟨k, q, q', hq, hq', hne, heq⟩
    · -- the nodes one row up are equal: the pairs below them are too, or they collide at this row
      by_cases he : joinedPair b a position width = joinedPair b' a' position width
      · exact Or.inl (joinedPair_inj he).2
      · exact Or.inr ⟨0, _, _, rfl, rfl, he, hu⟩
    · exact Or.inr ⟨k + 1, q, q', hq, hq', hne, heq⟩

end CoreChain

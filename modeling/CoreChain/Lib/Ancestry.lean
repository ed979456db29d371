import Mathlib

/-!
# Strict ancestry in a rooted forest

A `TreeOrder α β` is the strict ancestor relation `desc` of a rooted forest on `α`, given as a Boolean test the
way a client answers it, with a height in `β` that grows strictly along it. Everything below uses three facts:

- heights grow along `desc` (`height_lt`), so `desc` is irreflexive and asymmetric;
- `desc` is transitive (`desc_trans`);
- the strict ancestors of one element form a chain (`chain`): this is what makes the relation a forest rather
  than a DAG.

Two elements are `Unrelated` when neither is below or equal to the other. The main lemma, `Unrelated.below`, says
that everything below two unrelated elements is again unrelated: two branches never meet again.

`TreeOrder.prefixes` is the block tree whose blocks are their own paths from genesis, the concrete instance that
runs are tested on.
-/

namespace CoreChain

/-- The strict ancestor relation of a rooted forest, with a height that grows along it. -/
structure TreeOrder (α β : Type*) [Preorder β] where
  /-- `desc a b`: `b` lies strictly below `a`. -/
  desc : α → α → Bool
  /-- The height (block number) of an element. -/
  height : α → β
  height_lt : ∀ {a b}, desc a b → height a < height b
  desc_trans : ∀ {a b c}, desc a b → desc b c → desc a c
  chain : ∀ {a b c}, desc a c → desc b c → a = b ∨ desc a b ∨ desc b a

namespace TreeOrder

variable {α β : Type*} [Preorder β] (T : TreeOrder α β)

theorem not_desc_self (a : α) : ¬ T.desc a a := fun h => lt_irrefl _ (T.height_lt h)

theorem not_desc_of_desc {a b : α} (h : T.desc a b) : ¬ T.desc b a :=
  fun h' => T.not_desc_self a (T.desc_trans h h')

theorem ne_of_desc {a b : α} (h : T.desc a b) : a ≠ b := by
  rintro rfl
  exact T.not_desc_self a h

/-- `b` is `a` or lies strictly below it. -/
def Below (a b : α) : Prop := a = b ∨ T.desc a b

theorem Below.refl (a : α) : T.Below a a := Or.inl rfl

/-- Neither element is at or below the other: they sit on different branches. -/
def Unrelated (a b : α) : Prop := a ≠ b ∧ ¬ T.desc a b ∧ ¬ T.desc b a

variable {T}

theorem Below.trans {a b c : α} (h₁ : T.Below a b) (h₂ : T.Below b c) : T.Below a c := by
  rcases h₁ with rfl | h₁
  · exact h₂
  · rcases h₂ with rfl | h₂
    · exact Or.inr h₁
    · exact Or.inr (T.desc_trans h₁ h₂)

theorem desc_of_desc_of_below {a b c : α} (h₁ : T.desc a b) (h₂ : T.Below b c) : T.desc a c := by
  rcases h₂ with rfl | h₂
  · exact h₁
  · exact T.desc_trans h₁ h₂

theorem desc_of_below_of_desc {a b c : α} (h₁ : T.Below a b) (h₂ : T.desc b c) : T.desc a c := by
  rcases h₁ with rfl | h₁
  · exact h₂
  · exact T.desc_trans h₁ h₂

theorem comparable_of_below {a b c : α} (ha : T.Below a c) (hb : T.Below b c) :
    a = b ∨ T.desc a b ∨ T.desc b a := by
  rcases ha with rfl | ha
  · rcases hb with rfl | hb
    · exact Or.inl rfl
    · exact Or.inr (Or.inr hb)
  · rcases hb with rfl | hb
    · exact Or.inr (Or.inl ha)
    · exact T.chain ha hb

theorem Unrelated.symm {a b : α} (h : T.Unrelated a b) : T.Unrelated b a :=
  ⟨fun e => h.1 e.symm, h.2.2, h.2.1⟩

theorem Unrelated.not_below {a b : α} (h : T.Unrelated a b) : ¬ T.Below a b := by
  rintro (e | d)
  · exact h.1 e
  · exact h.2.1 d

/-- Whatever lies below two unrelated elements is unrelated: branches never meet again. -/
theorem Unrelated.below {a b c d : α} (h : T.Unrelated a b) (hc : T.Below a c) (hd : T.Below b d) :
    T.Unrelated c d := by
  have key : ∀ {x}, T.Below a x → T.Below b x → False := fun hx hy => by
    rcases T.comparable_of_below hx hy with e | e | e
    · exact h.1 e
    · exact h.2.1 e
    · exact h.2.2 e
  refine ⟨?_, ?_, ?_⟩
  · rintro rfl
    exact key hc hd
  · intro e
    exact key (hc.trans (Or.inr e)) hd
  · intro e
    exact key hc (hd.trans (Or.inr e))

theorem Unrelated.not_desc_both {a b c : α} (h : T.Unrelated a b) (ha : T.desc a c) (hb : T.desc b c) : False :=
  (h.below (Or.inr ha) (Or.inr hb)).1 rfl

theorem Unrelated.below_left {a b c : α} (h : T.Unrelated a b) (hc : T.Below a c) : T.Unrelated c b :=
  h.below hc (Below.refl T b)

/-- The block tree whose blocks are their paths from genesis: `a` lies above `b` when it is a proper prefix of
it, and the height is the length. -/
def prefixes (α : Type _) [DecidableEq α] : TreeOrder (List α) Nat where
  desc a b := decide (a.IsPrefix b ∧ a.length < b.length)
  height := List.length
  height_lt h := (of_decide_eq_true h).2
  desc_trans h₁ h₂ := by
    obtain ⟨h₁, l₁⟩ := of_decide_eq_true h₁
    obtain ⟨h₂, l₂⟩ := of_decide_eq_true h₂
    exact decide_eq_true ⟨h₁.trans h₂, l₁.trans l₂⟩
  chain {a b c} h₁ h₂ := by
    obtain ⟨ha, -⟩ := of_decide_eq_true h₁
    obtain ⟨hb, -⟩ := of_decide_eq_true h₂
    -- two prefixes of one list are prefixes of each other, the shorter one first
    rcases lt_trichotomy a.length b.length with hl | hl | hl
    · exact Or.inr (Or.inl (decide_eq_true ⟨List.prefix_of_prefix_length_le ha hb hl.le, hl⟩))
    · exact Or.inl ((List.prefix_of_prefix_length_le ha hb hl.le).eq_of_length hl)
    · exact Or.inr (Or.inr (decide_eq_true ⟨List.prefix_of_prefix_length_le hb ha hl.le, hl⟩))

end TreeOrder

end CoreChain

import Mathlib

/-!
# Runs of a state machine

`Reach init step allowed s` says that `s` is reached from `init` by finitely many steps `step s a`, each taken
with an action `a` that is `allowed` in the state it is taken from. The side condition is where a caller's
promise lives (an import order, a valid pointer): the model's `step` itself is total.

An invariant that holds initially and that every allowed step keeps holds in every reached state
(`Reach.invariant`).

A map is often updated by a loop over some of its keys whose body touches one key only. `ActsLocally` says that of
a step, through a `view` of each key's part of the state; a loop over distinct keys then does to each key what
one step does (`foldlM_of_actsLocally`). Two loops over the same keys whose steps keep a relation between their
states, failing together, keep it to the end (`foldlM_rel`); a loop whose steps never fail and keep a relation with
the steps of a total machine simulates that machine's loop (`foldlM_simulates`).

A counted loop keeps an invariant indexed by the steps taken (`foldl_range_invariant`).

A chain of fallible calls in `Except` succeeds when each call does (`Except.bind_eq_ok`), and one that throws first
fails (`Except.throw_bind_ne_ok`).
-/

namespace CoreChain

/-- The states reached from `init` by allowed steps. -/
inductive Reach {σ α : Type _} (init : σ) (step : σ → α → σ) (allowed : σ → α → Prop) : σ → Prop
  | init : Reach init step allowed init
  | step {s : σ} {a : α} : Reach init step allowed s → allowed s a → Reach init step allowed (step s a)

namespace Reach

variable {σ α : Type _} {init : σ} {step : σ → α → σ} {allowed : σ → α → Prop}

/-- The induction rule for runs: an invariant of the initial state kept by every allowed step. -/
theorem invariant {P : σ → Prop} (h₀ : P init) (hs : ∀ s a, P s → allowed s a → P (step s a)) {s : σ}
    (h : Reach init step allowed s) : P s := by
  induction h with
  | init => exact h₀
  | step _ ha ih => exact hs _ _ ih ha

theorem snoc {s : σ} {a : α} (h : Reach init step allowed s) (ha : allowed s a) :
    Reach init step allowed (step s a) :=
  Reach.step h ha

end Reach

/-! ## Loops over keys -/

section Local

variable {σ K L : Type _} (view : σ → K → L) (step : σ → K → Option σ) (f : K → L → Option L)

/-- `step s x` does to the view of `x` what `f x` does, and leaves the view of every other key alone. -/
def ActsLocally : Prop :=
  ∀ s x l, f x (view s x) = some l → ∃ s', step s x = some s' ∧ view s' x = l ∧ ∀ k, k ≠ x → view s' k = view s k

variable {view step f}

/-- A loop over distinct keys, each of whose steps can be taken, does to each key what its own step does. -/
theorem foldlM_of_actsLocally (h : ActsLocally view step f) :
    ∀ (keys : List K) (s : σ), keys.Nodup → (∀ x ∈ keys, ∃ l, f x (view s x) = some l) →
      ∃ s', keys.foldlM step s = some s' ∧
        ∀ k, (k ∈ keys → f k (view s k) = some (view s' k)) ∧ (k ∉ keys → view s' k = view s k)
  | [], s, _, _ => ⟨s, rfl, fun k => ⟨fun hk => absurd hk List.not_mem_nil, fun _ => rfl⟩⟩
  | x :: xs, s, hnd, hall => by
    obtain ⟨hx, hnd'⟩ := List.nodup_cons.mp hnd
    obtain ⟨l, hl⟩ := hall x List.mem_cons_self
    obtain ⟨s₁, hs₁, hview, hother⟩ := h s x l hl
    have hall' : ∀ y ∈ xs, ∃ l, f y (view s₁ y) = some l := by
      intro y hy
      rw [hother y (fun e => hx (e ▸ hy))]
      exact hall y (List.mem_cons_of_mem x hy)
    obtain ⟨s', hs', hk⟩ := foldlM_of_actsLocally h xs s₁ hnd' hall'
    refine ⟨s', by simp [List.foldlM_cons, hs₁, hs'], fun k => ⟨fun hk' => ?_, fun hk' => ?_⟩⟩
    · rcases List.mem_cons.mp hk' with rfl | hks
      · rw [(hk k).2 hx, hview, hl]
      · rw [← hother k (fun e => hx (e ▸ hks))]
        exact (hk k).1 hks
    · have hne : k ≠ x := fun e => hk' (e ▸ List.mem_cons_self)
      rw [(hk k).2 (fun hks => hk' (List.mem_cons_of_mem x hks)), hother k hne]

end Local

/-! ## Related loops -/

section OptionRel

variable {α β : Type _} {r : α → β → Prop}

theorem rel_none_left {b : Option β} (h : Option.Rel r none b) : b = none := by
  cases h
  rfl

theorem rel_none_right {a : Option α} (h : Option.Rel r a none) : a = none := by
  cases h
  rfl

theorem rel_some_left {a : α} {b : Option β} (h : Option.Rel r (some a) b) : ∃ b', b = some b' ∧ r a b' := by
  cases h with
  | some hab => exact ⟨_, rfl, hab⟩

theorem rel_some_right {a : Option α} {b : β} (h : Option.Rel r a (some b)) : ∃ a', a = some a' ∧ r a' b := by
  cases h with
  | some hab => exact ⟨_, rfl, hab⟩

theorem isSome_eq_of_rel {a : Option α} {b : Option β} (h : Option.Rel r a b) : a.isSome = b.isSome := by
  cases h <;> rfl

end OptionRel

/-- Two loops over the same keys, whose steps keep `R` and fail together, end in `R`, or both fail. -/
theorem foldlM_rel {σ τ K : Type _} {R : σ → τ → Prop} {f : σ → K → Option σ} {g : τ → K → Option τ}
    (h : ∀ s t x, R s t → Option.Rel R (f s x) (g t x)) :
    ∀ (keys : List K) (s : σ) (t : τ), R s t → Option.Rel R (keys.foldlM f s) (keys.foldlM g t)
  | [], _, _, hst => .some hst
  | x :: xs, s, t, hst => by
    simp only [List.foldlM_cons]
    have hx := h s t x hst
    cases hf : f s x with
    | none =>
      cases hg : g t x with
      | none => exact .none
      | some t' =>
        rw [hf, hg] at hx
        cases hx
    | some s' =>
      cases hg : g t x with
      | none =>
        rw [hf, hg] at hx
        cases hx
      | some t' =>
        rw [hf, hg] at hx
        cases hx with
        | some hst' => exact foldlM_rel h xs s' t' hst'

/-- A map over a list whose every element maps to something succeeds, each result paired with its element. -/
theorem mapM_forall₂ {α β : Type _} {f : α → Option β} {P : α → β → Prop} :
    ∀ (l : List α), (∀ a ∈ l, ∃ b, f a = some b ∧ P a b) → ∃ l', l.mapM f = some l' ∧ List.Forall₂ P l l'
  | [], _ => ⟨[], rfl, .nil⟩
  | a :: l, h => by
    obtain ⟨b, hb, hab⟩ := h a List.mem_cons_self
    obtain ⟨l', hl', hall⟩ := mapM_forall₂ l (fun x hx => h x (List.mem_cons_of_mem a hx))
    exact ⟨b :: l', by simp [hb, hl'], .cons hab hall⟩

theorem forall₂_exists_mem_left {α β : Type _} {P : α → β → Prop} :
    ∀ {l : List α} {l' : List β}, List.Forall₂ P l l' → ∀ b ∈ l', ∃ a ∈ l, P a b
  | _, _, .nil => fun b hb => absurd hb List.not_mem_nil
  | a :: _, _ :: _, .cons hab hall => fun y hy => by
    rcases List.mem_cons.mp hy with rfl | hy
    · exact ⟨a, List.mem_cons_self, hab⟩
    · obtain ⟨x, hx, hxy⟩ := forall₂_exists_mem_left hall y hy
      exact ⟨x, List.mem_cons_of_mem a hx, hxy⟩

/-- A map over a list whose every element maps to something succeeds, with each result that of some element. -/
theorem mapM_some {α β : Type _} {f : α → Option β} {P : α → β → Prop} (l : List α)
    (h : ∀ a ∈ l, ∃ b, f a = some b ∧ P a b) : ∃ l', l.mapM f = some l' ∧ ∀ b ∈ l', ∃ a ∈ l, P a b :=
  let ⟨l', hl', hall⟩ := mapM_forall₂ l h
  ⟨l', hl', forall₂_exists_mem_left hall⟩

/-- A property that every successful step keeps holds at the end of a successful loop. -/
theorem foldlM_invariant {σ α : Type _} {P : σ → Prop} {f : σ → α → Option σ}
    (h : ∀ s x s', f s x = some s' → P s → P s') :
    ∀ (xs : List α) (s s' : σ), xs.foldlM f s = some s' → P s → P s'
  | [], s, s', hs, hp => by
    cases hs
    exact hp
  | x :: xs, s, s', hs, hp => by
    simp only [List.foldlM_cons] at hs
    cases hx : f s x with
    | none => simp [hx] at hs
    | some s₁ =>
      rw [hx] at hs
      exact foldlM_invariant h xs s₁ s' hs (h s x s₁ hx hp)

/-- A loop succeeds and ends in `P` when every step over a member of the list succeeds from `P` and keeps it. -/
theorem foldlM_progress {σ α : Type _} {P : σ → Prop} {f : σ → α → Option σ} :
    ∀ (xs : List α) (s : σ), (∀ s x, x ∈ xs → P s → ∃ s', f s x = some s' ∧ P s') → P s →
      ∃ s', xs.foldlM f s = some s' ∧ P s'
  | [], s, _, hp => ⟨s, rfl, hp⟩
  | x :: xs, s, h, hp => by
    obtain ⟨s₁, hs₁, hp₁⟩ := h s x List.mem_cons_self hp
    obtain ⟨s', hs', hp'⟩ := foldlM_progress xs s₁ (fun t y hy => h t y (List.mem_cons_of_mem x hy)) hp₁
    exact ⟨s', by simp [hs₁, hs'], hp'⟩

/-- A loop whose steps succeed and keep `R` with the steps of a total machine ends in `R` with that machine's loop. -/
theorem foldlM_simulates {σ τ α : Type _} {R : σ → τ → Prop} {f : σ → α → Option σ} {g : τ → α → τ}
    (h : ∀ s t x, R s t → ∃ s', f s x = some s' ∧ R s' (g t x)) :
    ∀ (xs : List α) (s : σ) (t : τ), R s t → ∃ s', xs.foldlM f s = some s' ∧ R s' (xs.foldl g t)
  | [], s, _, hst => ⟨s, rfl, hst⟩
  | x :: xs, s, t, hst => by
    obtain ⟨s₁, hs₁, hst₁⟩ := h s t x hst
    obtain ⟨s', hs', hst'⟩ := foldlM_simulates h xs s₁ (g t x) hst₁
    exact ⟨s', by simp [hs₁, hs'], hst'⟩

theorem lookup_mem {α β : Type _} [DecidableEq α] {a : α} {b : β} :
    ∀ {l : List (α × β)}, l.lookup a = some b → (a, b) ∈ l
  | [], h => by simp at h
  | (k, v) :: l, h => by
    by_cases hk : a = k
    · subst hk
      simp only [List.lookup, beq_self_eq_true, Option.some.injEq] at h
      subst h
      exact List.mem_cons_self
    · have hb : (a == k) = false := beq_false_of_ne hk
      simp only [List.lookup, hb] at h
      exact List.mem_cons_of_mem _ (lookup_mem h)

/-- The induction rule for a fold: an invariant of the start kept by every step holds at the end. -/
theorem foldl_invariant {σ α : Type _} {P : σ → Prop} {f : σ → α → σ} (hf : ∀ s a, P s → P (f s a)) :
    ∀ (l : List α) (s : σ), P s → P (l.foldl f s)
  | [], _, h => h
  | a :: l, s, h => foldl_invariant hf l (f s a) (hf s a h)

/-- The induction rule for a counted loop `for j in 0..n`: an invariant indexed by the steps taken, true at the
start and kept by the step at each `j < n`, holds at the end. -/
theorem foldl_range_invariant {σ : Type _} {P : Nat → σ → Prop} {f : σ → Nat → σ} {s : σ} {n : Nat} (h₀ : P 0 s)
    (hf : ∀ j t, j < n → P j t → P (j + 1) (f t j)) : P n ((List.range n).foldl f s) := by
  suffices ∀ m, m ≤ n → P m ((List.range m).foldl f s) from this n (Nat.le_refl n)
  intro m hm
  induction m with
  | zero => exact h₀
  | succ m ih =>
    rw [List.range_succ, List.foldl_append, List.foldl_cons, List.foldl_nil]
    exact hf m _ hm (ih (Nat.le_of_succ_le hm))

/-- The counted loop `for j in 0..n` with a fallible body: when the body succeeds from every state of step `j < n`
of an invariant indexed by the steps taken, and lands in step `j + 1`, the loop succeeds and ends in step `n`. -/
theorem foldlM_range_progress {σ : Type _} {P : Nat → σ → Prop} {f : σ → Nat → Option σ} {s : σ} {n : Nat}
    (h₀ : P 0 s) (hf : ∀ j t, j < n → P j t → ∃ t', f t j = some t' ∧ P (j + 1) t') :
    ∃ s', (List.range n).foldlM f s = some s' ∧ P n s' := by
  suffices ∀ m, m ≤ n → ∃ s', (List.range m).foldlM f s = some s' ∧ P m s' from this n (Nat.le_refl n)
  intro m hm
  induction m with
  | zero => exact ⟨s, rfl, h₀⟩
  | succ m ih =>
    obtain ⟨t, ht, hP⟩ := ih (Nat.le_of_succ_le hm)
    obtain ⟨t', ht', hP'⟩ := hf m t hm hP
    refine ⟨t', ?_, hP'⟩
    rw [List.range_succ, List.foldlM_append, ht]
    simpa using ht'

/-! ## Fallible calls -/

/-- A chain of fallible calls succeeds when its first call does and the rest succeeds on its result. -/
theorem Except.bind_eq_ok {ε α β : Type _} {x : Except ε α} {f : α → Except ε β} {b : β} :
    x >>= f = .ok b ↔ ∃ a, x = .ok a ∧ f a = .ok b := by
  cases x with
  | error e => simp [bind, Except.bind]
  | ok a => simp [bind, Except.bind]

theorem Except.throw_bind_ne_ok {ε α β : Type _} {e : ε} {f : α → Except ε β} {b : β} :
    (throw e >>= f) ≠ Except.ok b := by
  simp [bind, Except.bind, throw, throwThe, MonadExceptOf.throw]

end CoreChain

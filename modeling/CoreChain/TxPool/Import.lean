import CoreChain.TxPool.BasePool

/-!
# What an import does to the pool

Three facts about `import_to_ready`, over every pool and transaction:

- `satisfyTags_unlocked_gone`: the transactions `satisfy_tags` releases have left the future queue;
- `importToReady_of_first_error`: when the first candidate is refused by the ready queue, the call returns the
  error with the future queue `satisfy_tags` left, so the transactions it released are in neither queue;
- `import_eq_none_of_dangling`: a required tag whose `provided_tags` entry names a transaction no longer ready makes
  the ready queue's `import` panic (`expect(HASH_READY)`), which `replace_previous` arranges for a newcomer that
  requires a tag it takes over.

Then the runs at which the pool loses a transaction on an error, panics, and keeps a ready transaction whose
required tag no ready transaction provides.
-/

namespace CoreChain.TxPool

variable {H : Type} [DecidableEq H]

/-! ## The transactions `satisfy_tags` releases -/

namespace FutureTransactions

/-- Every waiting transaction is stored under its own hash, as `import` stores it. -/
def Keyed (f : FutureTransactions H) : Prop :=
  ∀ h w, f.waiting.lookup h = some w → w.transaction.hash = h

theorem Keyed.erase {f : FutureTransactions H} (hkey : f.Keyed) (wanted : AList (fun _ : Tag => List H))
    (hash : H) : Keyed ⟨wanted, f.waiting.erase hash⟩ := by
  intro h w hw
  by_cases heq : h = hash
  · subst heq
    simp at hw
  · rw [AList.lookup_erase_ne heq] at hw
    exact hkey h w hw

theorem Keyed.insert {f : FutureTransactions H} (hkey : f.Keyed) (wanted : AList (fun _ : Tag => List H))
    {hash : H} (tx : WaitingTransaction H) (htx : tx.transaction.hash = hash) :
    Keyed ⟨wanted, f.waiting.insert hash tx⟩ := by
  intro h w hw
  by_cases heq : h = hash
  · subst heq
    simp only [AList.lookup_insert, Option.some.injEq] at hw
    rw [← hw, htx]
  · rw [AList.lookup_insert_ne heq] at hw
    exact hkey h w hw

/-- Every released transaction is out of `waiting`: a hash leaves when it is released, and only hashes still
waiting are written back. -/
theorem satisfyHashes_unlocked_gone {tag : Tag} :
    ∀ {hashes : List H} {f f' : FutureTransactions H} {acc acc' : List (WaitingTransaction H)},
      f.Keyed → (∀ w ∈ acc, f.waiting.lookup w.transaction.hash = none) →
      satisfyHashes tag hashes f acc = some (f', acc') →
      f'.Keyed ∧ ∀ w ∈ acc', f'.waiting.lookup w.transaction.hash = none := by
  intro hashes
  induction hashes with
  | nil =>
    intro f f' acc acc' hkey hacc h
    simp only [satisfyHashes, Option.some.injEq, Prod.mk.injEq] at h
    obtain ⟨rfl, rfl⟩ := h
    exact ⟨hkey, hacc⟩
  | cons hash hashes ih =>
    intro f f' acc acc' hkey hacc h
    simp only [satisfyHashes, Option.bind_eq_bind] at h
    cases hw : f.waiting.lookup hash with
    | none => simp [hw] at h
    | some tx =>
      have htx : tx.transaction.hash = hash := hkey hash tx hw
      simp only [hw, Option.bind_some] at h
      split at h
      · -- released: `hash` is erased and joins the accumulator
        apply ih (hkey.erase f.wantedTags hash) _ h
        intro w hmem
        rcases List.mem_append.mp hmem with hmem | hmem
        · by_cases heq : w.transaction.hash = hash
          · rw [heq]
            exact AList.lookup_erase _ _
          · rw [AList.lookup_erase_ne heq]
            exact hacc w hmem
        · simp only [List.mem_singleton] at hmem
          subst hmem
          exact htx ▸ AList.lookup_erase hash f.waiting
      · -- still waiting: `hash` was in `waiting`, so it is none of the released ones
        apply ih (hkey.insert f.wantedTags (tx.satisfyTag tag) htx) _ h
        intro w hmem
        have hne : w.transaction.hash ≠ hash := by
          intro heq
          rw [← heq, hacc w hmem] at hw
          cases hw
        rw [AList.lookup_insert_ne hne]
        exact hacc w hmem

theorem satisfyTagsLoop_unlocked_gone :
    ∀ {tags : List Tag} {f f' : FutureTransactions H} {acc acc' : List (WaitingTransaction H)},
      f.Keyed → (∀ w ∈ acc, f.waiting.lookup w.transaction.hash = none) →
      satisfyTagsLoop tags f acc = some (f', acc') →
      f'.Keyed ∧ ∀ w ∈ acc', f'.waiting.lookup w.transaction.hash = none := by
  intro tags
  induction tags with
  | nil =>
    intro f f' acc acc' hkey hacc h
    simp only [satisfyTagsLoop, Option.some.injEq, Prod.mk.injEq] at h
    obtain ⟨rfl, rfl⟩ := h
    exact ⟨hkey, hacc⟩
  | cons tag tags ih =>
    intro f f' acc acc' hkey hacc h
    simp only [satisfyTagsLoop] at h
    cases hwanted : f.wantedTags.lookup tag with
    | none =>
      rw [hwanted] at h
      exact ih hkey hacc h
    | some hashes =>
      simp only [hwanted, Option.bind_eq_bind] at h
      cases hs : satisfyHashes tag hashes ⟨f.wantedTags.erase tag, f.waiting⟩ acc with
      | none => simp [hs] at h
      | some r =>
        obtain ⟨f1, acc1⟩ := r
        rw [hs, Option.bind_some] at h
        obtain ⟨hkey1, hacc1⟩ :=
          satisfyHashes_unlocked_gone (f := ⟨f.wantedTags.erase tag, f.waiting⟩) hkey hacc hs
        exact ih hkey1 hacc1 h

/-- The transactions `satisfy_tags` returns are no longer in the future queue. -/
theorem satisfyTags_unlocked_gone {f f' : FutureTransactions H} {tags : List Tag}
    {unlocked : List (WaitingTransaction H)} (hkey : f.Keyed) (h : f.satisfyTags tags = some (f', unlocked)) :
    ∀ w ∈ unlocked, f'.waiting.lookup w.transaction.hash = none :=
  (satisfyTagsLoop_unlocked_gone hkey (by simp) h).2

end FutureTransactions

/-! ## An error of the first candidate -/

namespace BasePool

/-- The first candidate releases the future transactions before the ready queue refuses it, and the error
returns the pool with them released. -/
theorem importToReady_of_first_error {p : BasePool H} {tx : WaitingTransaction H}
    {future : FutureTransactions H} {unlocked : List (WaitingTransaction H)} {ready : ReadyTransactions H}
    {e : PoolError H} (hsat : p.future.satisfyTags tx.transaction.provides = some (future, unlocked))
    (himp : p.ready.import tx = some (ready, .error e)) :
    p.importToReady tx = some ({ p with future, ready }, .error e) := by
  unfold importToReady
  simp only [importToReadyLoop, hsat, himp, Option.bind_eq_bind, Option.bind_some]
  cases e <;> rfl

end BasePool

/-! ## The `HASH_READY` panic -/

namespace ReadyTransactions

/-- A required tag mapped to a hash missing from `ready` makes the links panic, wherever it stands among the
required tags: the links before it only rewrite transactions found in `ready`. -/
theorem linkRequires_eq_none {providedTags : AList (fun _ : Tag => H)} {hash h : H} {tag : Tag}
    (hprov : providedTags.lookup tag = some h) :
    ∀ {tags : List Tag} {ready : ReadyMap H} {requiresOffset : Nat} {goesToBest : Bool},
      tag ∈ tags → ready.lookup h = none →
      linkRequires providedTags hash tags ready requiresOffset goesToBest = none := by
  intro tags
  induction tags with
  | nil =>
    intro ready requiresOffset goesToBest hmem
    cases hmem
  | cons t tags ih =>
    intro ready requiresOffset goesToBest hmem hgone
    rcases List.mem_cons.mp hmem with rfl | hmem
    · simp [linkRequires, hprov, hgone]
    · cases hp : providedTags.lookup t with
      | none =>
        simp only [linkRequires, hp]
        exact ih hmem hgone
      | some other =>
        cases ho : ready.lookup other with
        | none => simp [linkRequires, hp, ho]
        | some x =>
          have hne : h ≠ other := by
            rintro rfl
            rw [hgone] at ho
            cases ho
          simp only [linkRequires, hp, ho, Option.bind_eq_bind, Option.bind_some]
          exact ih hmem (by rw [AList.lookup_insert_ne hne]; exact hgone)

/-- After a successful `replace_previous`, a required tag whose provider is no longer ready makes `import`
panic. -/
theorem import_eq_none_of_dangling {r r' : ReadyTransactions H} {tx : WaitingTransaction H}
    {replaced : List (Transaction H)} {unlocks : List H} {tag : Tag} {h : H}
    (hready : tx.isReady = true) (hnew : r.contains tx.transaction.hash = false)
    (hreplace : { r with insertionId := r.insertionId + 1 }.replacePrevious tx.transaction = .ok (r', replaced, unlocks))
    (htag : tag ∈ tx.transaction.requires) (hprov : r'.providedTags.lookup tag = some h)
    (hgone : r'.ready.lookup h = none) :
    r.import tx = none := by
  simp only [ReadyTransactions.import, hready, hnew, Bool.not_true, Bool.or_self, Bool.false_eq_true,
    ↓reduceIte, hreplace, Option.bind_eq_bind]
  rw [linkRequires_eq_none hprov htag hgone]
  rfl

end ReadyTransactions

/-! ## Runs -/

/-- A ready transaction providing tag `1` at priority 10, a future one waiting for tag `2`, then a newcomer providing
both at priority 1: releasing tag `2` takes the future one out of its queue, the ready queue refuses the newcomer for
its priority, and the error leaves the released transaction in neither queue. -/
theorem import_loses_unlocked_on_error :
    ∃ p p', run (BasePool.new false : BasePool Nat) [.import ⟨1, 10, 0, [], [[1]]⟩, .import ⟨2, 1, 0, [[2]], []⟩] =
        some p ∧
      p.import ⟨3, 1, 0, [], [[1], [2]]⟩ = some (p', .error (.tooLowPriority 10 1)) ∧
      p.future.contains 2 = true ∧ p'.future.contains 2 = false ∧ p'.ready.contains 2 = false := by
  refine ⟨_, _, rfl, rfl, ?_⟩
  decide

/-- A newcomer that requires and provides the tag of a cheaper ready transaction replaces it, keeps the tag mapped
to it while linking its own requirements, and finds it gone from `ready`: the `HASH_READY` expect fails. -/
theorem import_panics_on_replaced_required_tag :
    ∃ p, run (BasePool.new false : BasePool Nat) [.import ⟨1, 1, 0, [], [[1]]⟩] = some p ∧
      p.ready.contains 1 = true ∧ p.ready.import ⟨⟨2, 2, 0, [[1]], [[1]]⟩, []⟩ = none ∧
      p.import ⟨2, 2, 0, [[1]], [[1]]⟩ = none := by
  refine ⟨_, rfl, ?_⟩
  decide

/-- Tag `2` releases a future transaction providing tags `1` and `3`, which the ready queue refuses, a dearer one
providing `1`; the transaction waiting for `3`, already released by it, is imported, though no ready transaction
provides `3` and no tag was pruned. -/
theorem promoted_requires_unprovided_tag :
    ∃ p, run (BasePool.new false : BasePool Nat)
        [.import ⟨1, 10, 0, [], [[1]]⟩, .import ⟨2, 1, 0, [[2]], [[1], [3]]⟩, .import ⟨3, 1, 0, [[3]], []⟩,
          .import ⟨4, 1, 0, [], [[2]]⟩] = some p ∧
      (p.ready.ready.lookup 3).map (·.transaction.transaction.requires) = some [[3]] ∧
      p.ready.providedTags.lookup [3] = none ∧
      (∀ e ∈ p.ready.ready.entries, [3] ∉ e.2.transaction.transaction.provides) ∧
      p.recentlyPrunedSets = [[], []] := by
  refine ⟨_, rfl, ?_⟩
  decide

end CoreChain.TxPool

import Mathlib
import CoreChain.Lib.Indegree
import CoreChain.Lib.Machine
import CoreChain.TxPool.Ready

/-!
# The best iterator of the ready queue

The model of `BestIterator` in `substrate/client/transaction-pool/src/graph/ready.rs`, the order in which block
authorship takes the ready transactions. `next` repeatedly returns the greatest transaction of `best` under the order
of `TransactionRef` (`bestLast`, as `BTreeSet::iter().next_back()`); a returned transaction unlocks its dependants,
each of which counts one more satisfied tag and joins `best` when all are. `report_invalid` marks the dependants of
a transaction, which `next` then skips. The loop of `next` runs on fuel, one turn per element of `best`.

Over a ready queue whose graph is sound (`ReadyGraph`), the iterator is tracked by the hashes taken out of `best`
and the links followed (`Tracks`, `RunInv`); one call of `next` keeps it (`RunInv.nextLoop`), and so does every
sequence of calls (`ReadyGraph.run_callsInv`). Hence no transaction is returned twice, and each after every ready
transaction linked to it (`best_iterator_topological`); `next` returns nothing exactly when no transaction is
available, and otherwise a greatest available one (`best_iterator_greedy`); when a rank grows along the links, `next`
returns every ready transaction once (`best_iterator_drains_all`, by the step of Kahn's algorithm,
`exists_available`); and after `report_invalid` what descends from the reported transaction's dependants is never
returned (`best_iterator_skips_invalid_subtree`).
-/

namespace CoreChain.TxPool

/-! ## The order of `best` -/

/-- `Ord for TransactionRef`: the higher priority is the greater, then the earlier `valid_till`, then the earlier
insertion. -/
def TransactionRef.cmp {H : Type} (a b : TransactionRef H) : Ordering :=
  (compare a.transaction.priority b.transaction.priority).then
    ((compare b.transaction.validTill a.transaction.validTill).then (compare b.insertionId a.insertionId))

theorem TransactionRef.cmp_eq_gt_iff {H : Type} (a b : TransactionRef H) :
    a.cmp b = .gt ↔ b.transaction.priority < a.transaction.priority ∨
      (a.transaction.priority = b.transaction.priority ∧ (a.transaction.validTill < b.transaction.validTill ∨
        (a.transaction.validTill = b.transaction.validTill ∧ a.insertionId < b.insertionId))) := by
  simp only [TransactionRef.cmp, Ordering.then_eq_gt, Nat.compare_eq_gt, Nat.compare_eq_eq]
  constructor
  · rintro (h | ⟨h, h' | ⟨h', h''⟩⟩)
    · exact Or.inl h
    · exact Or.inr ⟨h, Or.inl h'⟩
    · exact Or.inr ⟨h, Or.inr ⟨h'.symm, h''⟩⟩
  · rintro (h | ⟨h, h' | ⟨h', h''⟩⟩)
    · exact Or.inl h
    · exact Or.inr ⟨h, Or.inl h'⟩
    · exact Or.inr ⟨h, Or.inr ⟨h'.symm, h''⟩⟩

/-- Below or level with a reference that is below another is below it. -/
theorem TransactionRef.cmp_ne_gt_trans {H : Type} {a b c : TransactionRef H} (hab : a.cmp b ≠ .gt)
    (hcb : c.cmp b = .gt) : a.cmp c ≠ .gt := by
  rw [Ne, TransactionRef.cmp_eq_gt_iff] at hab ⊢
  rw [TransactionRef.cmp_eq_gt_iff] at hcb
  omega

variable {H : Type}

/-- `BTreeSet::iter().next_back()`: the greatest reference of `best`. -/
def bestLast : List (TransactionRef H) → Option (TransactionRef H)
  | [] => none
  | r :: rs =>
    match bestLast rs with
    | none => some r
    | some m => if r.cmp m = .gt then some r else some m

theorem bestLast_eq_none_iff (best : List (TransactionRef H)) : bestLast best = none ↔ best = [] := by
  cases best with
  | nil => simp [bestLast]
  | cons r rs =>
    simp only [bestLast, reduceCtorEq, iff_false]
    split
    · simp
    · split <;> simp

/-- The greatest reference is one of `best`, and none is greater. -/
theorem bestLast_spec : ∀ {best : List (TransactionRef H)} {m : TransactionRef H}, bestLast best = some m →
    m ∈ best ∧ ∀ r ∈ best, r.cmp m ≠ .gt
  | [], _, h => by simp [bestLast] at h
  | r :: rs, m, h => by
    simp only [bestLast] at h
    split at h
    · -- `rs` is empty
      rename_i hnone
      obtain rfl := Option.some.inj h
      rw [bestLast_eq_none_iff] at hnone
      subst hnone
      refine ⟨List.mem_singleton_self _, fun x hx => ?_⟩
      rw [List.mem_singleton.mp hx, Ne, TransactionRef.cmp_eq_gt_iff]
      omega
    · rename_i m' hm'
      obtain ⟨hmem, hmax⟩ := bestLast_spec hm'
      by_cases hgt : r.cmp m' = .gt
      · rw [if_pos hgt] at h
        obtain rfl := Option.some.inj h
        refine ⟨List.mem_cons_self, fun x hx => ?_⟩
        rcases List.mem_cons.mp hx with rfl | hx
        · rw [Ne, TransactionRef.cmp_eq_gt_iff]
          omega
        · exact TransactionRef.cmp_ne_gt_trans (hmax x hx) hgt
      · rw [if_neg hgt] at h
        obtain rfl := Option.some.inj h
        refine ⟨List.mem_cons_of_mem _ hmem, fun x hx => ?_⟩
        rcases List.mem_cons.mp hx with rfl | hx
        · exact hgt
        · exact hmax x hx

variable [DecidableEq H]

/-! ## The iterator -/

/-- `BestIterator`. The ready map is the queue's at the time of `get`. -/
structure BestIterator (H : Type) where
  all : ReadyMap H
  awaiting : AList (fun _ : H => Nat × TransactionRef H)
  best : List (TransactionRef H)
  invalid : List H

/-- `ReadyTransactions::get`. -/
def ReadyTransactions.get (r : ReadyTransactions H) : BestIterator H :=
  ⟨r.ready, ∅, r.best, []⟩

namespace BestIterator

/-- `best_or_awaiting`. -/
def bestOrAwaiting (it : BestIterator H) (satisfied : Nat) (txRef : TransactionRef H) : BestIterator H :=
  if satisfied ≥ txRef.transaction.requires.length then { it with best := bestInsert txRef it.best }
  else { it with awaiting := it.awaiting.insert txRef.transaction.hash (satisfied, txRef) }

/-- One hash in the `unlocks` of a returned transaction: one more of its tags is satisfied, counted in `awaiting`
or, the first time, from its `requires_offset`. -/
def unlock (it : BestIterator H) (hash : H) : BestIterator H :=
  match it.awaiting.lookup hash with
  | some (satisfied, txRef) => { it with awaiting := it.awaiting.erase hash }.bestOrAwaiting (satisfied + 1) txRef
  | none =>
    match it.all.lookup hash with
    | some next => it.bestOrAwaiting (next.requiresOffset + 1) next.transaction
    | none => it

/-- `report_invalid`: the dependants of the transaction are marked. -/
def reportInvalid (it : BestIterator H) (tx : Transaction H) : BestIterator H :=
  match it.all.lookup tx.hash with
  | some toReport =>
    { it with invalid := toReport.unlocks.foldl (fun invalid hash => hashSetInsert hash invalid) it.invalid }
  | none => it

/-- The loop of `next`: the greatest reference leaves `best`; a marked one, or one no longer in the map, is
skipped, and the first other is returned, after what it unlocks. -/
def nextLoop : Nat → BestIterator H → BestIterator H × Option (Transaction H)
  | 0, it => (it, none)
  | fuel + 1, it =>
    match bestLast it.best with
    | none => (it, none)
    | some best =>
      let it := { it with best := bestRemove best it.best }
      if best.transaction.hash ∈ it.invalid then nextLoop fuel it
      else
        match it.all.lookup best.transaction.hash with
        | none => nextLoop fuel it
        | some ready => (ready.unlocks.foldl unlock it, some best.transaction)

/-- `next`: each turn of its loop takes a reference out of `best`, so one more turn than `best` has elements is
enough. -/
def next (it : BestIterator H) : BestIterator H × Option (Transaction H) :=
  nextLoop (it.best.length + 1) it

/-- A call on the iterator. -/
inductive Call (H : Type) where
  | next
  | reportInvalid (tx : Transaction H)

/-- One call, with the transactions returned so far. -/
def call (s : BestIterator H × List (Transaction H)) : Call H → BestIterator H × List (Transaction H)
  | .next =>
    match s.1.next with
    | (it, some tx) => (it, s.2 ++ [tx])
    | (it, none) => (it, s.2)
  | .reportInvalid tx => (s.1.reportInvalid tx, s.2)

/-- Calls one after another, from an iterator that has returned nothing. -/
def run (it : BestIterator H) (calls : List (BestIterator.Call H)) : BestIterator H × List (Transaction H) :=
  calls.foldl call (it, [])

end BestIterator

/-! ## A sound ready queue -/

/-- The tags a ready transaction requires. -/
def ReadyTx.req (rt : ReadyTx H) : Nat :=
  rt.transaction.transaction.requires.length

/-- The links from `y` to `h` in the ready map: the times `h` is in the `unlocks` of `y`. -/
def links (all : ReadyMap H) (y h : H) : Nat :=
  ((all.lookup y).map fun rt => rt.unlocks.count h).getD 0

theorem mem_keys_of_lookup {all : ReadyMap H} {y : H} {rt : ReadyTx H} (hl : all.lookup y = some rt) :
    y ∈ all.keys :=
  AList.mem_keys.mp (AList.lookup_isSome.mp (by rw [hl]; rfl))

/-- A ready map whose graph is sound: each transaction is stored under its hash, with a key of the order no other
has, and its `requires_offset` and the links to it add up to its required tags. -/
structure SoundMap (all : ReadyMap H) : Prop where
  hash_eq : ∀ h rt, all.lookup h = some rt → rt.transaction.transaction.hash = h
  key_inj : ∀ h h' rt rt', all.lookup h = some rt → all.lookup h' = some rt' →
    rt.transaction.key = rt'.transaction.key → h = h'
  count : ∀ h rt, all.lookup h = some rt → rt.requiresOffset + inCount (links all) all.keys h = rt.req

/-- A ready transaction the iterator may return next: not returned, not marked, and with every ready transaction
linked to it returned. -/
def Available (all : ReadyMap H) (returned invalid : List H) (y : H) : Prop :=
  y ∉ returned ∧ y ∉ invalid ∧ ∀ z rtz, all.lookup z = some rtz → y ∈ rtz.unlocks → z ∈ returned

/-- `d` is `c` or depends on it through links of the ready map. -/
inductive Descends (all : ReadyMap H) (c : H) : H → Prop
  | refl : Descends all c c
  | link {y d : H} {rt : ReadyTx H} : Descends all c y → all.lookup y = some rt → d ∈ rt.unlocks → Descends all c d

/-- A ready queue whose graph is sound, and whose `best` holds exactly the transactions with nothing linked to them. -/
structure ReadyGraph (r : ReadyTransactions H) : Prop where
  sound : SoundMap r.ready
  best_iff : ∀ ref, ref ∈ r.best ↔
    ∃ rt, r.ready.lookup ref.transaction.hash = some rt ∧ rt.transaction = ref ∧ rt.requiresOffset = rt.req

/-- The conditions of `ReadyGraph` entry by entry, against which a queue of known transactions can be checked. -/
def ReadyTransactions.GraphChecks (r : ReadyTransactions H) : Prop :=
  (∀ e ∈ r.ready.entries, e.2.transaction.transaction.hash = e.1 ∧
      e.2.requiresOffset + inCount (links r.ready) r.ready.keys e.1 = e.2.req ∧
      (e.2.transaction ∈ r.best ↔ e.2.requiresOffset = e.2.req)) ∧
    (∀ e ∈ r.ready.entries, ∀ e' ∈ r.ready.entries, e.2.transaction.key = e'.2.transaction.key → e.1 = e'.1) ∧
    ∀ ref ∈ r.best, ∃ e ∈ r.ready.entries, e.2.transaction = ref

instance : DecidablePred (ReadyTransactions.GraphChecks (H := H)) := fun r => by
  unfold ReadyTransactions.GraphChecks
  infer_instance

theorem ReadyGraph.of_graphChecks {r : ReadyTransactions H} (h : r.GraphChecks) : ReadyGraph r := by
  obtain ⟨hent, hkey, hbest⟩ := h
  have hmem : ∀ {y : H} {rt : ReadyTx H}, r.ready.lookup y = some rt → (⟨y, rt⟩ : Σ _ : H, ReadyTx H) ∈ r.ready.entries :=
    fun hl => AList.mem_lookup_iff.mp hl
  refine ⟨⟨fun y rt hl => (hent _ (hmem hl)).1, fun y y' rt rt' hl hl' hk => hkey _ (hmem hl) _ (hmem hl') hk,
    fun y rt hl => (hent _ (hmem hl)).2.1⟩, fun ref => ⟨fun href => ?_, fun ⟨rt, hl, hrt, hfull⟩ => ?_⟩⟩
  · obtain ⟨e, he, rfl⟩ := hbest ref href
    refine ⟨e.2, ?_, rfl, (hent e he).2.2.mp href⟩
    rw [(hent e he).1]
    exact AList.mem_lookup_iff.mpr he
  · subst hrt
    exact (hent _ (hmem hl)).2.2.mpr hfull

omit [DecidableEq H] in
theorem bestInsert_of_forall_ne {ref : TransactionRef H} {best : List (TransactionRef H)}
    (h : ∀ r ∈ best, r.key ≠ ref.key) : bestInsert ref best = ref :: best := by
  rw [bestInsert, if_neg]
  simpa using h

omit [DecidableEq H] in
theorem mem_bestRemove {ref r : TransactionRef H} {best : List (TransactionRef H)} :
    r ∈ bestRemove ref best ↔ r ∈ best ∧ r.key ≠ ref.key := by
  simp [bestRemove]

omit [DecidableEq H] in
theorem length_bestRemove_lt {ref : TransactionRef H} {best : List (TransactionRef H)} (h : ref ∈ best) :
    (bestRemove ref best).length < best.length :=
  List.length_filter_lt_length_iff_exists.mpr ⟨ref, h, by simp⟩

/-- When a rank grows along every link, some transaction with nothing marked is available until all are returned:
one of least rank among those left. -/
theorem exists_available {all : ReadyMap H} (rank : H → ℕ)
    (hrank : ∀ y rty h rth, all.lookup y = some rty → h ∈ rty.unlocks → all.lookup h = some rth → rank y < rank h)
    {yielded : List H} (hlt : yielded.length < all.keys.length) : ∃ y ∈ all.keys, Available all yielded [] y := by
  have hleft : ∃ y ∈ all.keys, y ∉ yielded := by
    by_contra hall
    have hsub : all.keys ⊆ yielded := fun y hy => by
      by_contra hny
      exact hall ⟨y, hy, hny⟩
    exact absurd (List.subperm_of_subset (AList.keys_nodup _) hsub).length_le (Nat.not_le.mpr hlt)
  -- the rank grows along every edge of positive multiplicity
  have hedge : ∀ y ∈ all.keys, ∀ h ∈ all.keys, 0 < links all y h → rank y < rank h := by
    intro y hy h hh hpos
    obtain ⟨rty, hly⟩ := Option.isSome_iff_exists.mp (AList.lookup_isSome.mpr (AList.mem_keys.mpr hy))
    obtain ⟨rth, hlh⟩ := Option.isSome_iff_exists.mp (AList.lookup_isSome.mpr (AList.mem_keys.mpr hh))
    simp only [links, hly, Option.map_some, Option.getD_some, List.count_pos_iff] at hpos
    exact hrank y rty h rth hly hpos hlh
  obtain ⟨y, hy, hny, hzero⟩ := exists_inCount_eq (links all) rank hedge hleft
  refine ⟨y, hy, hny, List.not_mem_nil, fun z rtz hlz hmem => ?_⟩
  by_contra hnz
  have hz := hzero z (mem_keys_of_lookup hlz) hnz
  simp only [links, hlz, Option.map_some, Option.getD_some, List.count_eq_zero] at hz
  exact hz hmem

/-! ## The iterator tracked -/

/-- The iterator over the ready map `all`, once `popped` have left `best` and `seen h` links to each `h` were followed:
`best` holds the untaken ready transactions with all tags satisfied, and `awaiting` the others with a followed link,
with the tags satisfied. -/
structure Tracks (all : ReadyMap H) (popped : List H) (seen : H → Nat) (it : BestIterator H) : Prop where
  all_eq : it.all = all
  popped_full : ∀ h ∈ popped, ∃ rt, all.lookup h = some rt ∧ rt.requiresOffset + seen h = rt.req
  best_iff : ∀ ref, ref ∈ it.best ↔ ∃ rt, all.lookup ref.transaction.hash = some rt ∧ rt.transaction = ref ∧
    ref.transaction.hash ∉ popped ∧ rt.requiresOffset + seen ref.transaction.hash = rt.req
  awaiting_eq : ∀ h, it.awaiting.lookup h = (all.lookup h).bind fun rt =>
    if 0 < seen h ∧ rt.requiresOffset + seen h < rt.req then some (rt.requiresOffset + seen h, rt.transaction)
    else none

section Tracks

variable {all : ReadyMap H} (g : SoundMap all) {popped : List H} {seen : H → Nat} {it : BestIterator H}
include g

/-- A ready transaction with a tag still to satisfy is neither taken nor in `best`. -/
theorem Tracks.not_full (h : Tracks all popped seen it)
    {hash : H} {rt : ReadyTx H} (hlook : all.lookup hash = some rt) (hlt : rt.requiresOffset + seen hash < rt.req) :
    hash ∉ popped ∧ ∀ r ∈ it.best, r.key ≠ rt.transaction.key := by
  refine ⟨fun hp => ?_, fun r hr hkey => ?_⟩
  · obtain ⟨rt', hlook', hfull⟩ := h.popped_full hash hp
    rw [hlook, Option.some.injEq] at hlook'
    subst hlook'
    omega
  · obtain ⟨rt', hlook', rfl, -, hfull⟩ := (h.best_iff r).mp hr
    have hh := g.key_inj _ _ _ _ hlook' hlook hkey
    rw [hh, hlook, Option.some.injEq] at hlook'
    subst hlook'
    rw [hh] at hfull
    omega

omit g in
/-- Away from `hash`, one more link followed to `hash` changes nothing of what `best` holds. -/
theorem avail_bump_ne {hash : H} {ref : TransactionRef H}
    (hne : ref.transaction.hash ≠ hash) :
    (∃ rt, all.lookup ref.transaction.hash = some rt ∧ rt.transaction = ref ∧ ref.transaction.hash ∉ popped ∧
        rt.requiresOffset + (seen ref.transaction.hash + if ref.transaction.hash = hash then 1 else 0) = rt.req) ↔
      ∃ rt, all.lookup ref.transaction.hash = some rt ∧ rt.transaction = ref ∧ ref.transaction.hash ∉ popped ∧
        rt.requiresOffset + seen ref.transaction.hash = rt.req := by
  simp only [if_neg hne, Nat.add_zero]

/-- A tag of a ready transaction `hash` still to satisfy is satisfied: with its count taken out of `awaiting`, the
transaction goes to `best` when it was the last, and back to `awaiting` with one more otherwise. -/
theorem Tracks.bestOrAwaiting (h : Tracks all popped seen it)
    {hash : H} {rt : ReadyTx H} (hlook : all.lookup hash = some rt) (hlt : rt.requiresOffset + seen hash < rt.req)
    {A : AList (fun _ : H => Nat × TransactionRef H)} (hA : A.lookup hash = none)
    (hA' : ∀ h', h' ≠ hash → A.lookup h' = it.awaiting.lookup h') :
    Tracks all popped (fun h' => seen h' + if h' = hash then 1 else 0)
      ({ it with awaiting := A }.bestOrAwaiting (rt.requiresOffset + seen hash + 1) rt.transaction) := by
  obtain ⟨hnp, hnotbest⟩ := h.not_full g hlook hlt
  have hhash := g.hash_eq hash rt hlook
  have hawait_ne : ∀ h', h' ≠ hash → A.lookup h' = (all.lookup h').bind fun rt =>
      if 0 < seen h' + (if h' = hash then 1 else 0) ∧ rt.requiresOffset + (seen h' + if h' = hash then 1 else 0) < rt.req
      then some (rt.requiresOffset + (seen h' + if h' = hash then 1 else 0), rt.transaction) else none := by
    intro h' hne
    rw [hA' h' hne, h.awaiting_eq h']
    simp only [if_neg hne, Nat.add_zero]
  have hpopped : ∀ h' ∈ popped, ∃ rt, all.lookup h' = some rt ∧
      rt.requiresOffset + (seen h' + if h' = hash then 1 else 0) = rt.req := by
    intro h' hp
    have hne : h' ≠ hash := fun hh => hnp (hh ▸ hp)
    simpa only [if_neg hne, Nat.add_zero] using h.popped_full h' hp
  unfold BestIterator.bestOrAwaiting
  by_cases hfull : rt.req ≤ rt.requiresOffset + seen hash + 1
  · -- the last tag: the transaction joins `best`
    rw [if_pos (show rt.requiresOffset + seen hash + 1 ≥ rt.transaction.transaction.requires.length from hfull),
      bestInsert_of_forall_ne hnotbest]
    refine ⟨h.all_eq, hpopped, fun ref => ?_, fun h' => ?_⟩
    · by_cases hne : ref.transaction.hash = hash
      · constructor
        · intro _
          have hl : all.lookup ref.transaction.hash = some rt := hne ▸ hlook
          refine ⟨rt, hl, ?_, hne ▸ hnp, by simp only [if_pos hne]; rw [hne]; omega⟩
          obtain hr | hr := List.mem_cons.mp ‹_›
          · exact hr.symm
          · obtain ⟨rt', hl', rfl, -, -⟩ := (h.best_iff ref).mp hr
            rw [hl, Option.some.injEq] at hl'
            subst hl'
            exact absurd rfl (hnotbest _ hr)
        · rintro ⟨rt', hl', rfl, -, -⟩
          rw [hne, hlook, Option.some.injEq] at hl'
          subst hl'
          exact List.mem_cons_self
      · rw [List.mem_cons, avail_bump_ne hne, ← h.best_iff]
        constructor
        · rintro (rfl | hr)
          · exact absurd hhash hne
          · exact hr
        · exact Or.inr
    · by_cases hne : h' = hash
      · have hone : (if h' = hash then 1 else 0) = 1 := if_pos hne
        rw [hone, hne, hA, hlook, Option.bind_some, if_neg (by omega)]
      · exact hawait_ne h' hne
  · -- tags still to satisfy: back to `awaiting`, with one more
    rw [if_neg (show ¬rt.requiresOffset + seen hash + 1 ≥ rt.transaction.transaction.requires.length from hfull)]
    refine ⟨h.all_eq, hpopped, fun ref => ?_, fun h' => ?_⟩
    · by_cases hne : ref.transaction.hash = hash
      · rw [h.best_iff ref]
        constructor
        · rintro ⟨rt', hl', hr, hp, hf⟩
          rw [hne, hlook, Option.some.injEq] at hl'
          subst hl'
          rw [hne] at hf
          omega
        · rintro ⟨rt', hl', hr, hp, hf⟩
          rw [hne, hlook, Option.some.injEq] at hl'
          subst hl'
          simp only [if_pos hne] at hf
          rw [hne] at hf
          omega
      · rw [avail_bump_ne hne, ← h.best_iff]
    · by_cases hne : h' = hash
      · have hone : (if h' = hash then 1 else 0) = 1 := if_pos hne
        rw [hone, hne, hhash, AList.lookup_insert, hlook, Option.bind_some, if_pos ⟨by omega, by omega⟩,
          Nat.add_assoc]
      · rw [hhash, AList.lookup_insert_ne hne]
        exact hawait_ne h' hne

/-- Following one link to a ready transaction `hash` with a tag still to satisfy: counted in `awaiting` when a link
to it was followed before, from `requires_offset` otherwise. A hash not in the map moves nothing. -/
theorem Tracks.unlock (h : Tracks all popped seen it)
    (hash : H) (hbound : ∀ rt, all.lookup hash = some rt → rt.requiresOffset + seen hash < rt.req) :
    Tracks all popped (fun h' => seen h' + if h' = hash then 1 else 0) (it.unlock hash) := by
  cases hlook : all.lookup hash with
  | none =>
    have hawait : it.awaiting.lookup hash = none := by
      rw [h.awaiting_eq, hlook]
      rfl
    have hunlock : it.unlock hash = it := by
      simp only [BestIterator.unlock, hawait, h.all_eq, hlook]
    have hne : ∀ h' rt, all.lookup h' = some rt → h' ≠ hash := by
      rintro h' rt hl rfl
      rw [hlook] at hl
      cases hl
    rw [hunlock]
    refine ⟨h.all_eq, fun h' hp => ?_, fun ref => ?_, fun h' => ?_⟩
    · obtain ⟨rt, hl, hfull⟩ := h.popped_full h' hp
      exact ⟨rt, hl, by rw [if_neg (hne h' rt hl)]; exact hfull⟩
    · rw [h.best_iff]
      constructor
      · rintro ⟨rt, hl, hr, hp, hfull⟩
        exact ⟨rt, hl, hr, hp, by rw [if_neg (hne _ rt hl)]; exact hfull⟩
      · rintro ⟨rt, hl, hr, hp, hfull⟩
        exact ⟨rt, hl, hr, hp, by rwa [if_neg (hne _ rt hl)] at hfull⟩
    · rw [h.awaiting_eq]
      by_cases hh : h' = hash
      · rw [hh, hlook]
        rfl
      · simp only [if_neg hh, Nat.add_zero]
  | some rt =>
    have hlt := hbound rt hlook
    by_cases hseen : 0 < seen hash
    · -- counted in `awaiting` already
      have hawait : it.awaiting.lookup hash = some (rt.requiresOffset + seen hash, rt.transaction) := by
        rw [h.awaiting_eq, hlook, Option.bind_some, if_pos ⟨hseen, hlt⟩]
      have hunlock : it.unlock hash = { it with awaiting := it.awaiting.erase hash }.bestOrAwaiting
          (rt.requiresOffset + seen hash + 1) rt.transaction := by
        simp only [BestIterator.unlock, hawait]
      rw [hunlock]
      exact h.bestOrAwaiting g hlook hlt (AList.lookup_erase _ _) fun h' hne => AList.lookup_erase_ne hne
    · -- the first link followed to it
      have hawait : it.awaiting.lookup hash = none := by
        rw [h.awaiting_eq, hlook, Option.bind_some, if_neg fun hc => hseen hc.1]
      have hunlock : it.unlock hash = it.bestOrAwaiting (rt.requiresOffset + seen hash + 1) rt.transaction := by
        simp only [BestIterator.unlock, hawait, h.all_eq, hlook, show seen hash = 0 by omega]
      rw [hunlock]
      exact h.bestOrAwaiting g hlook hlt hawait fun _ _ => rfl

/-- Following the links of a returned transaction, each to a ready transaction with as many tags still to
satisfy. -/
theorem Tracks.unlocks : ∀ (us : List H) {seen : H → Nat} {it : BestIterator H},
    Tracks all popped seen it → (∀ h rt, all.lookup h = some rt → rt.requiresOffset + seen h + us.count h ≤ rt.req) →
    Tracks all popped (fun h => seen h + us.count h) (us.foldl BestIterator.unlock it)
  | [], seen, it, h, _ => by simpa using h
  | a :: us, seen, it, h, hbound => by
    have h₁ := h.unlock g a fun rt hl => by
      have := hbound a rt hl
      simp only [List.count_cons_self] at this
      omega
    have h₂ := Tracks.unlocks us h₁ fun h' rt hl => by
      have := hbound h' rt hl
      by_cases hh : h' = a
      · simp only [hh, List.count_cons_self, if_true] at this ⊢
        omega
      · simp only [List.count_cons_of_ne (Ne.symm hh), if_neg hh] at this ⊢
        omega
    have hseen : (fun h' => (seen h' + if h' = a then 1 else 0) + us.count h') = fun h' => seen h' + (a :: us).count h' := by
      funext h'
      by_cases hh : h' = a
      · simp only [hh, List.count_cons_self, if_true]
        omega
      · simp only [List.count_cons_of_ne (Ne.symm hh), if_neg hh, Nat.add_zero]
    rw [List.foldl_cons, ← hseen]
    exact h₂

/-- The greatest reference leaves `best`: its hash is taken. -/
theorem Tracks.pop (h : Tracks all popped seen it)
    {b : TransactionRef H} (hb : b ∈ it.best) :
    Tracks all (popped ++ [b.transaction.hash]) seen { it with best := bestRemove b it.best } := by
  obtain ⟨rt, hl, rfl, -, hfull⟩ := (h.best_iff b).mp hb
  refine ⟨h.all_eq, fun h' hp => ?_, fun ref => ?_, h.awaiting_eq⟩
  · rcases List.mem_append.mp hp with hp | hp
    · exact h.popped_full h' hp
    · rw [List.mem_singleton.mp hp]
      exact ⟨rt, hl, hfull⟩
  · rw [mem_bestRemove, h.best_iff]
    simp only [List.mem_append, List.mem_singleton, not_or]
    constructor
    · rintro ⟨⟨rt', hl', rfl, hnp', hfull'⟩, hkey⟩
      refine ⟨rt', hl', rfl, ⟨hnp', fun heq => hkey ?_⟩, hfull'⟩
      rw [heq, hl, Option.some.injEq] at hl'
      rw [hl']
    · rintro ⟨rt', hl', rfl, ⟨hnp', hne⟩, hfull'⟩
      exact ⟨⟨rt', hl', rfl, hnp', hfull'⟩, fun hkey => hne (g.key_inj _ _ _ _ hl' hl hkey)⟩

theorem Tracks.hash_eq_of_key (h : Tracks all popped seen it)
    {r b : TransactionRef H} (hr : r ∈ it.best) (hb : b ∈ it.best) (hkey : r.key = b.key) :
    r.transaction.hash = b.transaction.hash := by
  obtain ⟨rtr, hlr, rfl, -⟩ := (h.best_iff r).mp hr
  obtain ⟨rtb, hlb, rfl, -⟩ := (h.best_iff b).mp hb
  exact g.key_inj _ _ _ _ hlr hlb hkey

/-- The links to a ready `h` from duplicate-free returned transactions are at most the tags it requires, less its
`requires_offset`. -/
theorem SoundMap.seen_le {yielded : List H} (hnd : yielded.Nodup) (hkeys : ∀ y ∈ yielded, y ∈ all.keys) {h : H}
    {rt : ReadyTx H} (hl : all.lookup h = some rt) : rt.requiresOffset + inCount (links all) yielded h ≤ rt.req := by
  rw [← g.count h rt hl]
  exact Nat.add_le_add_left (inCount_le _ hnd (AList.keys_nodup _) hkeys h) _

/-- The links to a ready `h` from duplicate-free returned transactions satisfy all its tags exactly when every ready
transaction linked to it was returned. -/
theorem SoundMap.full_iff {yielded : List H} (hnd : yielded.Nodup) (hkeys : ∀ y ∈ yielded, y ∈ all.keys) {h : H}
    {rt : ReadyTx H} (hl : all.lookup h = some rt) :
    rt.requiresOffset + inCount (links all) yielded h = rt.req ↔
      ∀ y rty, all.lookup y = some rty → h ∈ rty.unlocks → y ∈ yielded := by
  rw [← g.count h rt hl, Nat.add_left_cancel_iff, inCount_eq_iff (links all) hnd (AList.keys_nodup _) hkeys]
  constructor
  · intro hzero y rty hly hmem
    by_contra hy
    have hkey : y ∈ all.keys := mem_keys_of_lookup hly
    have hz := hzero y hkey hy
    simp only [links, hly, Option.map_some, Option.getD_some, List.count_eq_zero] at hz
    exact hz hmem
  · intro hall y hy hny
    obtain ⟨rty, hly⟩ := Option.isSome_iff_exists.mp (AList.lookup_isSome.mpr (AList.mem_keys.mpr hy))
    simp only [links, hly, Option.map_some, Option.getD_some]
    exact List.count_eq_zero.mpr fun hmem => hny (hall y rty hly hmem)

end Tracks

theorem BestIterator.unlock_invalid (it : BestIterator H) (hash : H) : (it.unlock hash).invalid = it.invalid := by
  unfold BestIterator.unlock BestIterator.bestOrAwaiting
  split
  · split <;> rfl
  · split
    · split <;> rfl
    · rfl

theorem BestIterator.foldl_unlock_invalid (us : List H) (it : BestIterator H) :
    (us.foldl BestIterator.unlock it).invalid = it.invalid := by
  induction us generalizing it with
  | nil => rfl
  | cons a us ih => rw [List.foldl_cons, ih, BestIterator.unlock_invalid]

theorem BestIterator.nextLoop_invalid : ∀ (fuel : Nat) (it : BestIterator H), (it.nextLoop fuel).1.invalid = it.invalid
  | 0, _ => rfl
  | fuel + 1, it => by
    rw [BestIterator.nextLoop]
    split
    · rfl
    · simp only
      split
      · exact BestIterator.nextLoop_invalid fuel _
      · split
        · exact BestIterator.nextLoop_invalid fuel _
        · exact BestIterator.foldl_unlock_invalid _ _

theorem mem_foldl_hashSetInsert (us s : List H) (x : H) :
    x ∈ us.foldl (fun invalid hash => hashSetInsert hash invalid) s ↔ x ∈ s ∨ x ∈ us := by
  induction us generalizing s with
  | nil => simp
  | cons u us ih => rw [List.foldl_cons, ih, mem_hashSetInsert, List.mem_cons, or_assoc]

/-- `report_invalid` marks the `unlocks` of the reported transaction, when the map has it, and nothing else. -/
theorem BestIterator.mem_reportInvalid_invalid (it : BestIterator H) (tx : Transaction H) (x : H) :
    x ∈ (it.reportInvalid tx).invalid ↔ x ∈ it.invalid ∨ ∃ rt, it.all.lookup tx.hash = some rt ∧ x ∈ rt.unlocks := by
  unfold BestIterator.reportInvalid
  split
  · rename_i rt hl
    simp [mem_foldl_hashSetInsert, hl]
  · rename_i hl
    simp [hl]

theorem BestIterator.reportInvalid_eq (it : BestIterator H) (tx : Transaction H) :
    it.reportInvalid tx = { it with invalid := (it.reportInvalid tx).invalid } := by
  unfold BestIterator.reportInvalid
  split <;> rfl

/-! ## Calls of the iterator -/

/-- What the calls so far did to the iterator over `all`: `popped` left `best` in order, `yielded` of them returned and
the others marked; the returned ones' links are followed, each returned after every ready transaction linked to it. -/
structure RunInv (all : ReadyMap H) (popped yielded : List H) (it : BestIterator H) : Prop where
  tracks : Tracks all popped (inCount (links all) yielded) it
  popped_nodup : popped.Nodup
  yielded_sub : yielded.Sublist popped
  skipped : ∀ h ∈ popped, h ∉ yielded → h ∈ it.invalid
  topo : ∀ i (hi : i < yielded.length), ∀ y rt, all.lookup y = some rt → yielded[i] ∈ rt.unlocks → y ∈ yielded.take i

section Run

variable {all : ReadyMap H} (g : SoundMap all) {popped yielded : List H} {it : BestIterator H}
include g

omit g in
theorem RunInv.yielded_nodup (h : RunInv all popped yielded it) :
    yielded.Nodup :=
  h.popped_nodup.sublist h.yielded_sub

omit g in
theorem RunInv.popped_keys (h : RunInv all popped yielded it) :
    ∀ y ∈ popped, y ∈ all.keys := by
  intro y hy
  obtain ⟨rt, hl, -⟩ := h.tracks.popped_full y hy
  exact mem_keys_of_lookup hl

omit g in
theorem RunInv.yielded_keys (h : RunInv all popped yielded it) :
    ∀ y ∈ yielded, y ∈ all.keys :=
  fun y hy => h.popped_keys y (h.yielded_sub.subset hy)

/-- A reference of `best` that is marked is taken out and skipped. -/
theorem RunInv.skip (h : RunInv all popped yielded it)
    {b : TransactionRef H} (hb : b ∈ it.best) (hinv : b.transaction.hash ∈ it.invalid) :
    RunInv all (popped ++ [b.transaction.hash]) yielded { it with best := bestRemove b it.best } := by
  obtain ⟨-, -, -, hnp, -⟩ := (h.tracks.best_iff b).mp hb
  refine ⟨h.tracks.pop g hb, ?_, h.yielded_sub.trans (List.sublist_append_left _ _), fun h' hp hny => ?_, h.topo⟩
  · refine List.nodup_append.mpr ⟨h.popped_nodup, List.nodup_singleton _, fun a ha c hc => ?_⟩
    rw [List.mem_singleton.mp hc]
    rintro rfl
    exact hnp ha
  · rcases List.mem_append.mp hp with hp | hp
    · exact h.skipped h' hp hny
    · rw [List.mem_singleton.mp hp]
      exact hinv

/-- A reference of `best` that is not marked is taken out and returned, after the links of its transaction are
followed. -/
theorem RunInv.yield (h : RunInv all popped yielded it)
    {b : TransactionRef H} (hb : b ∈ it.best) {rt : ReadyTx H} (hl : all.lookup b.transaction.hash = some rt) :
    RunInv all (popped ++ [b.transaction.hash]) (yielded ++ [b.transaction.hash])
      (rt.unlocks.foldl BestIterator.unlock { it with best := bestRemove b it.best }) := by
  obtain ⟨rt', hl', hb', hnp, hfull⟩ := (h.tracks.best_iff b).mp hb
  rw [hl, Option.some.injEq] at hl'
  subst hl'
  have hnd : (yielded ++ [b.transaction.hash]).Nodup := by
    refine List.nodup_append.mpr ⟨h.yielded_nodup, List.nodup_singleton _, fun a ha c hc => ?_⟩
    rw [List.mem_singleton.mp hc]
    rintro rfl
    exact hnp (h.yielded_sub.subset ha)
  have hkeys : ∀ y ∈ yielded ++ [b.transaction.hash], y ∈ all.keys := by
    intro y hy
    rcases List.mem_append.mp hy with hy | hy
    · exact h.popped_keys y (h.yielded_sub.subset hy)
    · rw [List.mem_singleton.mp hy]
      exact mem_keys_of_lookup hl
  -- the links followed now are those of the returned transaction
  have hseen : (fun h' => inCount (links all) yielded h' + rt.unlocks.count h') =
      inCount (links all) (yielded ++ [b.transaction.hash]) := by
    funext h'
    simp [links, hl]
  have htracks := (h.tracks.pop g hb).unlocks g rt.unlocks fun h' rt'' hl'' => by
    have hle := g.seen_le hnd hkeys hl''
    rw [← hseen] at hle
    simp only at hle
    omega
  rw [hseen] at htracks
  refine ⟨htracks, ?_, h.yielded_sub.append (List.Sublist.refl _), fun h' hp hny => ?_, fun i hi y rty hly hmem => ?_⟩
  · refine List.nodup_append.mpr ⟨h.popped_nodup, List.nodup_singleton _, fun a ha c hc => ?_⟩
    rw [List.mem_singleton.mp hc]
    rintro rfl
    exact hnp ha
  · rw [BestIterator.foldl_unlock_invalid]
    simp only [List.mem_append, List.mem_singleton, not_or] at hp hny
    rcases hp with hp | hp
    · exact h.skipped h' hp hny.1
    · exact absurd hp hny.2
  · -- the returned transaction comes after every ready transaction linked to it
    rcases Nat.lt_or_ge i yielded.length with hlt | hge
    · rw [List.getElem_append_left hlt] at hmem
      rw [List.take_append_of_le_length hlt.le]
      exact h.topo i hlt y rty hly hmem
    · have hi' : i = yielded.length := by simp at hi; omega
      subst hi'
      simp only [List.getElem_append_right (le_refl _), Nat.sub_self, List.getElem_singleton] at hmem
      rw [List.take_append_of_le_length (le_refl _), List.take_length]
      exact (g.full_iff h.yielded_nodup h.yielded_keys hl).mp hfull y rty
        hly hmem

/-- One call of `next`'s loop with enough fuel, from a tracked iterator: `best` runs out and nothing is returned, or the
greatest unmarked reference of `best` is returned with its links followed, the references skipped on the way being
marked. -/
theorem RunInv.nextLoop : ∀ (fuel : Nat) {popped : List H} {it : BestIterator H},
    RunInv all popped yielded it → it.best.length < fuel → ∃ skipped : List H,
      ((it.nextLoop fuel).2 = none ∧ (it.nextLoop fuel).1.best = [] ∧
        RunInv all (popped ++ skipped) yielded (it.nextLoop fuel).1) ∨
      ∃ b, (it.nextLoop fuel).2 = some b.transaction ∧ b ∈ it.best ∧ b.transaction.hash ∉ it.invalid ∧
        (∀ r ∈ it.best, r.transaction.hash ∉ it.invalid → r.cmp b ≠ .gt) ∧
        RunInv all (popped ++ skipped ++ [b.transaction.hash]) (yielded ++ [b.transaction.hash]) (it.nextLoop fuel).1
  | 0, _, _, _, hfuel => absurd hfuel (Nat.not_lt_zero _)
  | fuel + 1, popped, it, h, hfuel => by
    rw [BestIterator.nextLoop]
    cases hbl : bestLast it.best with
    | none =>
      refine ⟨[], Or.inl ⟨rfl, (bestLast_eq_none_iff _).mp hbl, ?_⟩⟩
      rw [List.append_nil]
      exact h
    | some b =>
      obtain ⟨hb, hmax⟩ := bestLast_spec hbl
      obtain ⟨rt, hl, -, -⟩ := (h.tracks.best_iff b).mp hb
      simp only
      by_cases hinv : b.transaction.hash ∈ it.invalid
      · -- a marked reference is skipped, and the loop goes on with one reference fewer
        rw [if_pos hinv]
        have hlen : (bestRemove b it.best).length < fuel := by
          have := length_bestRemove_lt hb
          omega
        obtain ⟨skipped, hres⟩ := RunInv.nextLoop fuel (h.skip g hb hinv) hlen
        refine ⟨b.transaction.hash :: skipped, ?_⟩
        rw [← List.singleton_append, ← List.append_assoc]
        rcases hres with hnone | ⟨b', hret, hb', hinv', hgreedy, hrun⟩
        · exact Or.inl hnone
        · refine Or.inr ⟨b', hret, (mem_bestRemove.mp hb').1, hinv', fun r hr hrinv => hgreedy r ?_ hrinv, hrun⟩
          refine mem_bestRemove.mpr ⟨hr, fun hkey => hrinv ?_⟩
          rw [h.tracks.hash_eq_of_key g hr hb hkey]
          exact hinv
      · -- the first unmarked reference is returned
        have hl' : it.all.lookup b.transaction.hash = some rt := by rw [h.tracks.all_eq]; exact hl
        rw [if_neg hinv, hl']
        refine ⟨[], Or.inr ⟨b, rfl, hb, hinv, fun r hr _ => hmax r hr, ?_⟩⟩
        rw [List.append_nil]
        exact h.yield g hb hl

/-- `next` from a tracked iterator: its loop has fuel for every reference of `best`. -/
theorem RunInv.next (h : RunInv all popped yielded it) :
    ∃ skipped : List H,
      (it.next.2 = none ∧ it.next.1.best = [] ∧ RunInv all (popped ++ skipped) yielded it.next.1) ∨
      ∃ b, it.next.2 = some b.transaction ∧ b ∈ it.best ∧ b.transaction.hash ∉ it.invalid ∧
        (∀ r ∈ it.best, r.transaction.hash ∉ it.invalid → r.cmp b ≠ .gt) ∧
        RunInv all (popped ++ skipped ++ [b.transaction.hash]) (yielded ++ [b.transaction.hash]) it.next.1 :=
  h.nextLoop g (it.best.length + 1) (Nat.lt_succ_self _)

omit g in
theorem RunInv.mark (h : RunInv all popped yielded it)
    {inv : List H} (hsub : ∀ x ∈ it.invalid, x ∈ inv) : RunInv all popped yielded { it with invalid := inv } :=
  ⟨⟨h.tracks.all_eq, h.tracks.popped_full, h.tracks.best_iff, h.tracks.awaiting_eq⟩, h.popped_nodup, h.yielded_sub,
    fun x hp hy => hsub x (h.skipped x hp hy), h.topo⟩

/-- A transaction available to a tracked iterator waits in `best`. -/
theorem RunInv.mem_best_of_available (h : RunInv all popped yielded it) {y : H} {rty : ReadyTx H} (hl : all.lookup y = some rty)
    (hav : Available all yielded it.invalid y) : rty.transaction ∈ it.best := by
  obtain ⟨hny, hni, hpred⟩ := hav
  have hy : rty.transaction.transaction.hash = y := g.hash_eq y rty hl
  refine (h.tracks.best_iff _).mpr ⟨rty, by rw [hy]; exact hl, rfl, ?_, ?_⟩
  · rw [hy]
    exact fun hp => hni (h.skipped y hp hny)
  · rw [hy]
    exact (g.full_iff h.yielded_nodup h.yielded_keys hl).mpr hpred

/-- An unmarked reference of `best` is available. -/
theorem RunInv.available_of_mem_best (h : RunInv all popped yielded it) {b : TransactionRef H} (hb : b ∈ it.best) (hni : b.transaction.hash ∉ it.invalid) :
    Available all yielded it.invalid b.transaction.hash := by
  obtain ⟨rt, hl, -, hnp, hfull⟩ := (h.tracks.best_iff b).mp hb
  exact ⟨fun hy => hnp (h.yielded_sub.subset hy), hni, (g.full_iff h.yielded_nodup h.yielded_keys hl).mp hfull⟩

omit g in
/-- A transaction linked from one returned was returned after it, and so was every transaction it descends from. -/
theorem RunInv.mem_of_descends (h : RunInv all popped yielded it)
    {c d : H} (hd : Descends all c d) (hmem : d ∈ yielded) : c ∈ yielded := by
  induction hd with
  | refl => exact hmem
  | link _ hly hd ih =>
    obtain ⟨i, hi, rfl⟩ := List.getElem_of_mem hmem
    exact ih (List.take_subset _ _ (h.topo i hi _ _ hly hd))

/-- `next` returns nothing exactly when no transaction is available. -/
theorem RunInv.next_eq_none_iff (h : RunInv all popped yielded it) :
    it.next.2 = none ↔ ∀ y ∈ all.keys, ¬Available all yielded it.invalid y := by
  obtain ⟨skipped, ⟨hret, hempty, hrun⟩ | ⟨b, hret, hb, hni, -, -⟩⟩ := h.next g
  · -- the skipped references were marked, so what was available is still in the `best` left, which is empty
    refine ⟨fun _ y hy hav => ?_, fun _ => hret⟩
    obtain ⟨rty, hly⟩ := Option.isSome_iff_exists.mp (AList.lookup_isSome.mpr (AList.mem_keys.mpr hy))
    have hinv : it.next.1.invalid = it.invalid := BestIterator.nextLoop_invalid _ _
    rw [← hinv] at hav
    have hmem := hrun.mem_best_of_available g hly hav
    rw [hempty] at hmem
    exact List.not_mem_nil hmem
  · refine ⟨fun hnone => absurd (hret.symm.trans hnone) (Option.some_ne_none _), fun hnone => ?_⟩
    obtain ⟨rt, hl, -⟩ := (h.tracks.best_iff b).mp hb
    exact absurd (h.available_of_mem_best g hb hni) (hnone _ (mem_keys_of_lookup hl))

/-- What `next` returns is available, and no available transaction is greater in the order of `best`. -/
theorem RunInv.next_eq_some (h : RunInv all popped yielded it)
    {tx : Transaction H} (hnext : it.next.2 = some tx) :
    ∃ rt, all.lookup tx.hash = some rt ∧ rt.transaction.transaction = tx ∧ Available all yielded it.invalid tx.hash ∧
      ∀ y rty, all.lookup y = some rty → Available all yielded it.invalid y → rty.transaction.cmp rt.transaction ≠ .gt := by
  obtain ⟨skipped, ⟨hret, -⟩ | ⟨b, hret, hb, hni, hmax, -⟩⟩ := h.next g
  · exact absurd (hnext.symm.trans hret) (Option.some_ne_none _)
  · obtain rfl : b.transaction = tx := Option.some.inj (hret.symm.trans hnext)
    obtain ⟨rt, hl, hrt, -⟩ := (h.tracks.best_iff b).mp hb
    refine ⟨rt, hl, by rw [hrt], h.available_of_mem_best g hb hni, fun y rty hly hav => ?_⟩
    have hy : rty.transaction.transaction.hash = y := g.hash_eq y rty hly
    rw [hrt]
    exact hmax _ (h.mem_best_of_available g hly hav) (hy ▸ hav.2.1)

end Run

/-! ## Runs of calls -/

/-- What a run of calls keeps over the ready map `all`: the iterator is tracked with the hashes of the transactions
returned as its `yielded`, and each returned transaction is the one stored under its hash. -/
structure CallsInv (all : ReadyMap H) (s : BestIterator H × List (Transaction H)) : Prop where
  run : ∃ popped, RunInv all popped (s.2.map Transaction.hash) s.1
  stored : ∀ tx ∈ s.2, ∃ rt, all.lookup tx.hash = some rt ∧ rt.transaction.transaction = tx

theorem BestIterator.call_next (s : BestIterator H × List (Transaction H)) :
    call s .next = (s.1.next.1, s.2 ++ s.1.next.2.toList) := by
  simp only [call]
  split <;> rename_i hnext <;> simp [hnext]

theorem BestIterator.run_append (it : BestIterator H) (calls more : List (Call H)) :
    it.run (calls ++ more) = more.foldl call (it.run calls) := by
  simp [run, List.foldl_append]

theorem BestIterator.call_next_invalid (s : BestIterator H × List (Transaction H)) :
    (call s .next).1.invalid = s.1.invalid := by
  simp only [call_next, next, nextLoop_invalid]

/-- Calls never unmark a hash. -/
theorem BestIterator.invalid_call (s : BestIterator H × List (Transaction H)) (c : Call H) {x : H}
    (hx : x ∈ s.1.invalid) : x ∈ (call s c).1.invalid := by
  cases c with
  | next =>
    rw [call_next_invalid]
    exact hx
  | reportInvalid tx => exact (mem_reportInvalid_invalid _ _ _).mpr (Or.inl hx)

section Calls

variable {all : ReadyMap H} (g : SoundMap all) {s : BestIterator H × List (Transaction H)}
include g

theorem CallsInv.next (h : CallsInv all s) :
    CallsInv all (BestIterator.call s .next) := by
  rw [BestIterator.call_next]
  obtain ⟨popped, hrun⟩ := h.run
  obtain ⟨skipped, ⟨hret, -, hrun'⟩ | ⟨b, hret, hb, -, -, hrun'⟩⟩ := hrun.next g
  · refine ⟨⟨popped ++ skipped, ?_⟩, ?_⟩ <;> simp only [hret, Option.toList_none, List.append_nil]
    · exact hrun'
    · exact h.stored
  · obtain ⟨rt, hl, hrt, -⟩ := (hrun.tracks.best_iff b).mp hb
    refine ⟨⟨popped ++ skipped ++ [b.transaction.hash], ?_⟩, fun tx htx => ?_⟩
    · simpa [hret] using hrun'
    · simp only [hret, Option.toList_some, List.mem_append, List.mem_singleton] at htx
      rcases htx with htx | rfl
      · exact h.stored tx htx
      · exact ⟨rt, hl, by rw [hrt]⟩

omit g in
theorem CallsInv.reportInvalid (h : CallsInv all s) (tx : Transaction H) :
    CallsInv all (BestIterator.call s (.reportInvalid tx)) := by
  obtain ⟨popped, hrun⟩ := h.run
  refine ⟨⟨popped, ?_⟩, h.stored⟩
  simp only [BestIterator.call]
  rw [BestIterator.reportInvalid_eq]
  exact hrun.mark fun x hx => (BestIterator.mem_reportInvalid_invalid _ _ _).mpr (Or.inl hx)

theorem CallsInv.call (h : CallsInv all s) (c : BestIterator.Call H) :
    CallsInv all (BestIterator.call s c) := by
  cases c with
  | next => exact h.next g
  | reportInvalid tx => exact h.reportInvalid tx

theorem CallsInv.foldl (h : CallsInv all s) (calls : List (BestIterator.Call H)) :
    CallsInv all (calls.foldl BestIterator.call s) :=
  foldl_invariant (fun _ c hs => hs.call g c) calls s h

/-- A marked hash not returned is never returned by later calls. -/
theorem CallsInv.not_returned_of_marked (h : CallsInv all s) {c : H}
    (hc : c ∈ s.1.invalid) (hnot : c ∉ s.2.map Transaction.hash) (calls : List (BestIterator.Call H)) :
    c ∉ (calls.foldl BestIterator.call s).2.map Transaction.hash := by
  have hinv := foldl_invariant (P := fun s => CallsInv all s ∧ c ∈ s.1.invalid ∧ c ∉ s.2.map Transaction.hash)
    (fun s c' ⟨hs, hcs, hns⟩ => ⟨hs.call g c', BestIterator.invalid_call s c' hcs, ?_⟩) calls s ⟨h, hc, hnot⟩
  · exact hinv.2.2
  · cases c' with
    | reportInvalid tx => exact hns
    | next =>
      obtain ⟨popped, hrun⟩ := hs.run
      rw [BestIterator.call_next]
      obtain ⟨skipped, ⟨hret, -⟩ | ⟨b, hret, -, hbinv, -⟩⟩ := hrun.next g
      · simpa [hret] using hns
      · simp only [hret, Option.toList_some, List.map_append, List.mem_append, List.map_cons, List.map_nil,
          List.mem_singleton, not_or]
        exact ⟨hns, fun heq => hbinv (heq ▸ hcs)⟩

end Calls

theorem ReadyGraph.get_runInv {r : ReadyTransactions H} (hr : ReadyGraph r) : RunInv r.ready [] [] r.get := by
  refine ⟨⟨rfl, by simp, fun ref => ?_, fun h => ?_⟩, List.nodup_nil, List.Sublist.slnil, by simp, by simp⟩
  · rw [ReadyTransactions.get, hr.best_iff]
    simp
  · simp [ReadyTransactions.get]

theorem ReadyGraph.run_callsInv {r : ReadyTransactions H} (hr : ReadyGraph r) (calls : List (BestIterator.Call H)) :
    CallsInv r.ready (r.get.run calls) :=
  CallsInv.foldl hr.sound (show CallsInv r.ready (r.get, []) from ⟨⟨[], hr.get_runInv⟩, by simp⟩) calls

/-! ## A sample queue -/

/-- Four transactions: the second requires the tag of the first, the third that of the second, and the fourth is on
its own; priorities grow along the chain. -/
def sampleFirst : Transaction Nat := ⟨1, 5, 10, [], [[1]]⟩

def sampleSecond : Transaction Nat := ⟨2, 7, 10, [[1]], [[2]]⟩

def sampleThird : Transaction Nat := ⟨3, 9, 10, [[2]], []⟩

def sampleOther : Transaction Nat := ⟨4, 6, 10, [], []⟩

/-- The ready queue after importing the four in order. -/
def sampleReady : ReadyTransactions Nat :=
  [sampleFirst, sampleSecond, sampleThird, sampleOther].foldl
    (fun r tx => ((r.import ⟨tx, []⟩).map (·.1)).getD r) .empty

theorem readyGraph_sampleReady : ReadyGraph sampleReady :=
  ReadyGraph.of_graphChecks (by decide)

/-- The chain is returned in its order although priorities grow along it. -/
example : (sampleReady.get.run [.next, .next, .next, .next, .next]).2 =
    [sampleOther, sampleFirst, sampleSecond, sampleThird] := by
  decide

/-! ## The order of the returned transactions -/

/-- Over every sequence of calls on the iterator of a sound ready queue, the transactions returned are stored in the
queue, none twice, and each comes after every ready transaction whose `unlocks` names it. -/
theorem best_iterator_topological {r : ReadyTransactions H} (hr : ReadyGraph r) (calls : List (BestIterator.Call H)) :
    ((r.get.run calls).2.map Transaction.hash).Nodup ∧
      (∀ tx ∈ (r.get.run calls).2, ∃ rt, r.ready.lookup tx.hash = some rt ∧ rt.transaction.transaction = tx) ∧
      ∀ i (hi : i < (r.get.run calls).2.length) y rty, r.ready.lookup y = some rty →
        (r.get.run calls).2[i].hash ∈ rty.unlocks → y ∈ ((r.get.run calls).2.take i).map Transaction.hash := by
  obtain ⟨⟨popped, hrun⟩, hstored⟩ := hr.run_callsInv calls
  refine ⟨hrun.yielded_nodup, hstored, fun i hi y rty hly hmem => ?_⟩
  have hi' : i < ((r.get.run calls).2.map Transaction.hash).length := by simpa using hi
  have htopo := hrun.topo i hi' y rty hly (by simpa using hmem)
  rwa [← List.map_take] at htopo

theorem best_iterator_topological_sample :
    ((sampleReady.get.run [.next, .next, .next]).2.map Transaction.hash).Nodup ∧
      (∀ tx ∈ (sampleReady.get.run [.next, .next, .next]).2,
        ∃ rt, sampleReady.ready.lookup tx.hash = some rt ∧ rt.transaction.transaction = tx) ∧
      ∀ i (hi : i < (sampleReady.get.run [.next, .next, .next]).2.length) y rty,
        sampleReady.ready.lookup y = some rty → (sampleReady.get.run [.next, .next, .next]).2[i].hash ∈ rty.unlocks →
        y ∈ ((sampleReady.get.run [.next, .next, .next]).2.take i).map Transaction.hash :=
  best_iterator_topological readyGraph_sampleReady [.next, .next, .next]

/-- After any calls on the iterator of a sound ready queue, `next` returns nothing exactly when no ready transaction is
available (returned, marked, or after one not returned), and otherwise an available one that no available one exceeds in
the order of `best`. -/
theorem best_iterator_greedy {r : ReadyTransactions H} (hr : ReadyGraph r) (calls : List (BestIterator.Call H)) :
    ((r.get.run calls).1.next.2 = none ↔
      ∀ y ∈ r.ready.keys, ¬Available r.ready ((r.get.run calls).2.map Transaction.hash) (r.get.run calls).1.invalid y) ∧
    ∀ tx, (r.get.run calls).1.next.2 = some tx → ∃ rt, r.ready.lookup tx.hash = some rt ∧
      rt.transaction.transaction = tx ∧
      Available r.ready ((r.get.run calls).2.map Transaction.hash) (r.get.run calls).1.invalid tx.hash ∧
      ∀ y rty, r.ready.lookup y = some rty →
        Available r.ready ((r.get.run calls).2.map Transaction.hash) (r.get.run calls).1.invalid y →
        rty.transaction.cmp rt.transaction ≠ .gt := by
  obtain ⟨⟨popped, hrun⟩, -⟩ := hr.run_callsInv calls
  exact ⟨hrun.next_eq_none_iff hr.sound, fun tx hnext => hrun.next_eq_some hr.sound hnext⟩

theorem best_iterator_greedy_sample :
    ((sampleReady.get.run [.next]).1.next.2 = none ↔ ∀ y ∈ sampleReady.ready.keys,
      ¬Available sampleReady.ready ((sampleReady.get.run [.next]).2.map Transaction.hash)
        (sampleReady.get.run [.next]).1.invalid y) ∧
    ∀ tx, (sampleReady.get.run [.next]).1.next.2 = some tx → ∃ rt, sampleReady.ready.lookup tx.hash = some rt ∧
      rt.transaction.transaction = tx ∧
      Available sampleReady.ready ((sampleReady.get.run [.next]).2.map Transaction.hash)
        (sampleReady.get.run [.next]).1.invalid tx.hash ∧
      ∀ y rty, sampleReady.ready.lookup y = some rty →
        Available sampleReady.ready ((sampleReady.get.run [.next]).2.map Transaction.hash)
          (sampleReady.get.run [.next]).1.invalid y →
        rty.transaction.cmp rt.transaction ≠ .gt :=
  best_iterator_greedy readyGraph_sampleReady [.next]

/-- On the iterator of a sound ready queue whose links follow a rank, calls of `next` alone, at least as many as
the queue holds, return every ready transaction exactly once. -/
theorem best_iterator_drains_all {r : ReadyTransactions H} (hr : ReadyGraph r) (rank : H → ℕ)
    (hrank : ∀ y rty h rth, r.ready.lookup y = some rty → h ∈ rty.unlocks → r.ready.lookup h = some rth →
      rank y < rank h)
    (n : ℕ) (hn : r.ready.keys.length ≤ n) :
    ((r.get.run (List.replicate n .next)).2.map Transaction.hash).Perm r.ready.keys := by
  -- each call returns one more transaction until all are returned; nothing is ever marked
  have hstep : ∀ k, (r.get.run (List.replicate k .next)).1.invalid = [] ∧
      min k r.ready.keys.length ≤ (r.get.run (List.replicate k .next)).2.length := by
    intro k
    induction k with
    | zero => exact ⟨rfl, by simp⟩
    | succ k ih =>
      obtain ⟨hinv, hlen⟩ := ih
      rw [List.replicate_succ', BestIterator.run_append, List.foldl_cons, List.foldl_nil,
        BestIterator.call_next_invalid, BestIterator.call_next]
      refine ⟨hinv, ?_⟩
      obtain ⟨⟨popped, hrun⟩, -⟩ := hr.run_callsInv (List.replicate k .next)
      rcases Nat.lt_or_ge (r.get.run (List.replicate k .next)).2.length r.ready.keys.length with hlt | hge
      · have hlt' : ((r.get.run (List.replicate k .next)).2.map Transaction.hash).length < r.ready.keys.length := by
          simpa using hlt
        obtain ⟨y, hy, hav⟩ := exists_available rank hrank hlt'
        rw [← hinv] at hav
        obtain ⟨tx, htx⟩ := Option.ne_none_iff_exists'.mp fun hnone =>
          (hrun.next_eq_none_iff hr.sound).mp hnone y hy hav
        rw [htx]
        simp only [List.length_append, Option.toList_some, List.length_singleton]
        omega
      · simp only [List.length_append]
        omega
  obtain ⟨⟨popped, hrun⟩, -⟩ := hr.run_callsInv (List.replicate n .next)
  refine (List.subperm_of_subset hrun.yielded_nodup hrun.yielded_keys).perm_of_length_le ?_
  have := (hstep n).2
  simp only [List.length_map]
  omega

theorem best_iterator_drains_all_sample :
    ((sampleReady.get.run (List.replicate 4 .next)).2.map Transaction.hash).Perm sampleReady.ready.keys := by
  refine best_iterator_drains_all readyGraph_sampleReady id (fun y rty h rth hl hmem _ => ?_) 4 (by decide)
  have hlinks : ∀ e ∈ sampleReady.ready.entries, ∀ h ∈ e.2.unlocks, e.1 < h := by decide
  exact hlinks _ (AList.mem_lookup_iff.mp hl) h hmem

/-- On the iterator of a sound ready queue, once a transaction of the queue is reported invalid, a transaction it
unlocks that was not yet returned, and every one descending from it by links, is never returned, before the report or
after. -/
theorem best_iterator_skips_invalid_subtree {r : ReadyTransactions H} (hr : ReadyGraph r)
    (pre post : List (BestIterator.Call H)) (tx : Transaction H) {rt : ReadyTx H}
    (hl : r.ready.lookup tx.hash = some rt) {c d : H} (hc : c ∈ rt.unlocks)
    (hnot : c ∉ (r.get.run pre).2.map Transaction.hash) (hd : Descends r.ready c d) :
    d ∉ (r.get.run (pre ++ .reportInvalid tx :: post)).2.map Transaction.hash := by
  rw [BestIterator.run_append, List.foldl_cons]
  have hs := (hr.run_callsInv pre).reportInvalid tx
  obtain ⟨⟨popped, hrun⟩, -⟩ := hr.run_callsInv pre
  have hcs : c ∈ (BestIterator.call (r.get.run pre) (.reportInvalid tx)).1.invalid := by
    simp only [BestIterator.call]
    exact (BestIterator.mem_reportInvalid_invalid _ _ _).mpr (Or.inr ⟨rt, by rw [hrun.tracks.all_eq]; exact hl, hc⟩)
  have hnot' := hs.not_returned_of_marked hr.sound hcs hnot post
  obtain ⟨⟨popped', hrun'⟩, -⟩ := hs.foldl hr.sound post
  exact fun hmem => hnot' (hrun'.mem_of_descends hd hmem)

theorem best_iterator_skips_invalid_subtree_sample :
    3 ∉ (sampleReady.get.run ([.next] ++ .reportInvalid sampleFirst :: [.next, .next, .next])).2.map
      Transaction.hash :=
  best_iterator_skips_invalid_subtree readyGraph_sampleReady [.next] [.next, .next, .next] sampleFirst
    (by decide : sampleReady.ready.lookup sampleFirst.hash = some ⟨⟨sampleFirst, 1⟩, [2], 0⟩) (c := 2) (by decide)
    (by decide)
    (.link .refl (by decide : sampleReady.ready.lookup 2 = some ⟨⟨sampleSecond, 2⟩, [3], 0⟩) (by decide))

end CoreChain.TxPool

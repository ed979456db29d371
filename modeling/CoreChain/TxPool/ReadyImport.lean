import Mathlib
import CoreChain.Lib.Inverted
import CoreChain.Lib.Machine
import CoreChain.TxPool.Best

/-!
# Imports keep the ready graph sound

`ReadyTransactions::import` of a transaction that replaces nothing: the loop over its required tags appends its hash
to the `unlocks` of each provider, once per tag provided, and counts the others in `requires_offset`
(`linkRequires_spec`); so the transaction and its links enter the map together (`import_of_replaceHashes_nil`).

What imports keep (`QueueInv`): the graph is sound (`ReadyGraph`, which the best iterator's results assume), the
hashes in `provided_tags` and in the `unlocks` are ready, the insertion ids are at most the counter, and every link
goes from an earlier insertion to a later one. An import that replaces nothing keeps it and never hits the
`expect(HASH_READY)` of its loop (`QueueInv.import`), so every queue built from the empty one by such imports has a
sound graph without cycles, ranked by insertion id (`ready_import_graph_sound`).
-/

namespace CoreChain.TxPool

variable {H : Type}

/-! ## The links of an import -/

/-- A ready transaction with `n` more links to `hash`. -/
def ReadyTx.addLinks (rt : ReadyTx H) (n : Nat) (hash : H) : ReadyTx H :=
  { rt with unlocks := rt.unlocks ++ List.replicate n hash }

@[simp] theorem ReadyTx.addLinks_transaction (rt : ReadyTx H) (n : Nat) (hash : H) :
    (rt.addLinks n hash).transaction = rt.transaction := rfl

@[simp] theorem ReadyTx.addLinks_requiresOffset (rt : ReadyTx H) (n : Nat) (hash : H) :
    (rt.addLinks n hash).requiresOffset = rt.requiresOffset := rfl

@[simp] theorem ReadyTx.addLinks_unlocks (rt : ReadyTx H) (n : Nat) (hash : H) :
    (rt.addLinks n hash).unlocks = rt.unlocks ++ List.replicate n hash := rfl

@[simp] theorem ReadyTx.addLinks_req (rt : ReadyTx H) (n : Nat) (hash : H) :
    (rt.addLinks n hash).req = rt.req := rfl

variable [DecidableEq H]

/-- The links an import gives the ready transaction `y`: the required tags it provides. -/
def tagLinks (providedTags : AList (fun _ : Tag => H)) (tags : List Tag) (y : H) : Nat :=
  tags.countP fun tag => providedTags.lookup tag = some y

namespace ReadyTransactions

/-- The loop over the required tags succeeds when every provider is ready: it links each provider once per tag it
provides, counts the tags without one, and keeps `goes_to_best` only when no tag has one. -/
theorem linkRequires_spec (providedTags : AList (fun _ : Tag => H)) (hash : H) :
    ∀ (tags : List Tag) (ready : ReadyMap H) (requiresOffset : Nat) (goesToBest : Bool),
    (∀ tag ∈ tags, ∀ h, providedTags.lookup tag = some h → h ∈ ready) →
    ∃ ready', linkRequires providedTags hash tags ready requiresOffset goesToBest =
        some (ready', requiresOffset + tags.countP (fun tag => (providedTags.lookup tag).isNone),
          goesToBest && tags.all fun tag => (providedTags.lookup tag).isNone) ∧
      ∀ y, ready'.lookup y = (ready.lookup y).map (·.addLinks (tagLinks providedTags tags y) hash)
  | [], ready, requiresOffset, goesToBest, _ => by
    refine ⟨ready, by simp [linkRequires], fun y => ?_⟩
    cases ready.lookup y <;> simp [tagLinks, ReadyTx.addLinks]
  | tag :: tags, ready, requiresOffset, goesToBest, hprov => by
    have hprov' : ∀ tag' ∈ tags, ∀ h, providedTags.lookup tag' = some h → h ∈ ready :=
      fun tag' ht => hprov tag' (List.mem_cons_of_mem _ ht)
    cases hp : providedTags.lookup tag with
    | none =>
      -- a tag no ready transaction provides counts in `requires_offset`
      obtain ⟨ready', hlink, hlook⟩ := linkRequires_spec providedTags hash tags ready (requiresOffset + 1) goesToBest
        hprov'
      refine ⟨ready', ?_, fun y => ?_⟩
      · simp only [linkRequires, hp, hlink, List.countP_cons, List.all_cons, Option.isNone_none, if_true,
          Bool.true_and]
        rw [Nat.add_assoc, Nat.add_comm 1]
      · rw [hlook y]
        simp [hp, tagLinks]
    | some other =>
      -- the provider is ready, and gets one more link to the newcomer
      obtain ⟨t, ht⟩ := Option.isSome_iff_exists.mp (AList.lookup_isSome.mpr (hprov tag List.mem_cons_self other hp))
      have hprov1 : ∀ tag' ∈ tags, ∀ h, providedTags.lookup tag' = some h →
          h ∈ ready.insert other { t with unlocks := t.unlocks ++ [hash] } :=
        fun tag' ht' h hh => (AList.mem_insert _).mpr (Or.inr (hprov' tag' ht' h hh))
      obtain ⟨ready', hlink, hlook⟩ := linkRequires_spec providedTags hash tags
        (ready.insert other { t with unlocks := t.unlocks ++ [hash] }) requiresOffset false hprov1
      refine ⟨ready', ?_, fun y => ?_⟩
      · simp only [linkRequires, hp, ht, Option.bind_eq_bind, Option.bind_some, hlink, List.countP_cons,
          List.all_cons, Option.isNone_some, Bool.false_and, Bool.and_false]
        simp
      · rw [hlook y]
        by_cases hy : y = other
        · subst hy
          rw [AList.lookup_insert, ht]
          simp [hp, tagLinks, ReadyTx.addLinks, List.replicate_succ]
        · rw [AList.lookup_insert_ne hy]
          simp [hp, tagLinks, Ne.symm hy]

theorem replacePrevious_of_replaceHashes_nil {r : ReadyTransactions H} {tx : Transaction H}
    (hrep : r.replaceHashes tx = []) : r.replacePrevious tx = .ok (r, [], []) := by
  simp [replacePrevious, hrep]

/-- `import` of a ready transaction new to the queue that replaces nothing: the counter moves on, its provided tags map
to it, and it enters the map after the links to it, with no link of its own, and `best` when no ready transaction
provides a tag it requires. -/
theorem import_of_replaceHashes_nil {r : ReadyTransactions H} {tx : WaitingTransaction H}
    (hready : tx.isReady = true) (hnew : r.contains tx.transaction.hash = false)
    (hrep : r.replaceHashes tx.transaction = []) {ready' : ReadyMap H} {requiresOffset : Nat} {goesToBest : Bool}
    (hlink : linkRequires r.providedTags tx.transaction.hash tx.transaction.requires r.ready 0 true =
      some (ready', requiresOffset, goesToBest)) :
    r.import tx = some (⟨r.insertionId + 1,
      tx.transaction.provides.foldl (fun p tag => p.insert tag tx.transaction.hash) r.providedTags,
      ready'.insert tx.transaction.hash ⟨⟨tx.transaction, r.insertionId + 1⟩, [], requiresOffset⟩,
      if goesToBest then bestInsert ⟨tx.transaction, r.insertionId + 1⟩ r.best else r.best⟩, .ok []) := by
  have hrep' : ({ r with insertionId := r.insertionId + 1 } : ReadyTransactions H).replaceHashes tx.transaction = [] :=
    hrep
  unfold ReadyTransactions.import
  rw [if_neg (by simp [hready, hnew])]
  simp only [replacePrevious_of_replaceHashes_nil hrep', hlink]
  rfl

end ReadyTransactions

/-! ## What imports keep -/

/-- The invariant of a ready queue built by imports: a sound graph, `provided_tags` and the `unlocks` naming ready
transactions only, insertion ids at most the counter, and links from earlier insertions to later ones. -/
structure QueueInv (r : ReadyTransactions H) : Prop where
  graph : ReadyGraph r
  provided : ∀ tag h, r.providedTags.lookup tag = some h → h ∈ r.ready
  unlocks : ∀ y rty, r.ready.lookup y = some rty → ∀ h ∈ rty.unlocks, h ∈ r.ready
  ids : ∀ y rty, r.ready.lookup y = some rty → rty.transaction.insertionId ≤ r.insertionId
  forward : ∀ y rty h rth, r.ready.lookup y = some rty → h ∈ rty.unlocks → r.ready.lookup h = some rth →
    rty.transaction.insertionId < rth.transaction.insertionId

theorem queueInv_empty : QueueInv (ReadyTransactions.empty : ReadyTransactions H) := by
  refine ⟨⟨⟨by simp [ReadyTransactions.empty], by simp [ReadyTransactions.empty], by simp [ReadyTransactions.empty]⟩,
    fun ref => by simp [ReadyTransactions.empty]⟩, ?_, ?_, ?_, ?_⟩ <;> simp [ReadyTransactions.empty]

section Import

/-! ## One import -/

variable {r : ReadyTransactions H} (h : QueueInv r) {t : Transaction H} (hnew : r.ready.lookup t.hash = none)
  {ready' : ReadyMap H} (hlook : ∀ y, ready'.lookup y =
    (r.ready.lookup y).map (·.addLinks (tagLinks r.providedTags t.requires y) t.hash))
  (offset : Nat)
include h hnew hlook

omit h hnew in
/-- The map after the import: the newcomer, and each old entry with its new links. -/
theorem lookup_imported (y : H) :
    (ready'.insert t.hash ⟨⟨t, r.insertionId + 1⟩, [], offset⟩).lookup y =
      if y = t.hash then some ⟨⟨t, r.insertionId + 1⟩, [], offset⟩
      else (r.ready.lookup y).map (·.addLinks (tagLinks r.providedTags t.requires y) t.hash) := by
  by_cases hy : y = t.hash
  · subst hy
    rw [AList.lookup_insert, if_pos rfl]
  · rw [AList.lookup_insert_ne hy, if_neg hy, hlook]

omit h hnew in
theorem mem_imported (y : H) :
    y ∈ ready'.insert t.hash ⟨⟨t, r.insertionId + 1⟩, [], offset⟩ ↔ y = t.hash ∨ y ∈ r.ready := by
  rw [← AList.lookup_isSome, lookup_imported hlook, ← AList.lookup_isSome]
  by_cases hy : y = t.hash <;> simp [hy]

omit hlook in
/-- No tag the newcomer requires is its own: its hash is not ready yet. -/
theorem tagLinks_self : tagLinks r.providedTags t.requires t.hash = 0 := by
  refine List.countP_eq_zero.mpr fun tag _ hp => ?_
  have hmem := h.provided tag t.hash (of_decide_eq_true hp)
  rw [← AList.lookup_isSome, hnew] at hmem
  exact Bool.false_ne_true hmem

omit h in
/-- The links into an old transaction are the old ones. -/
theorem links_imported_ne {h' : H} (hne : h' ≠ t.hash) (y : H) :
    links (ready'.insert t.hash ⟨⟨t, r.insertionId + 1⟩, [], offset⟩) y h' = links r.ready y h' := by
  unfold links
  rw [lookup_imported hlook]
  by_cases hy : y = t.hash
  · subst hy
    simp [hnew]
  · rw [if_neg hy]
    cases r.ready.lookup y <;> simp [List.count_replicate, Ne.symm hne]

/-- The links into the newcomer are those of its required tags. -/
theorem links_imported_self (y : H) :
    links (ready'.insert t.hash ⟨⟨t, r.insertionId + 1⟩, [], offset⟩) y t.hash = tagLinks r.providedTags t.requires y := by
  unfold links
  rw [lookup_imported hlook]
  by_cases hy : y = t.hash
  · subst hy
    simp [tagLinks_self h hnew]
  · rw [if_neg hy]
    cases hly : r.ready.lookup y with
    | none =>
      -- a transaction that is not ready provides no tag
      refine (List.countP_eq_zero.mpr fun tag _ hp => ?_).symm
      have hmem := h.provided tag y (of_decide_eq_true hp)
      rw [← AList.lookup_isSome, hly] at hmem
      exact Bool.false_ne_true hmem
    | some rty =>
      have hnot : t.hash ∉ rty.unlocks := fun hmem => by
        have := h.unlocks y rty hly t.hash hmem
        rw [← AList.lookup_isSome, hnew] at this
        exact Bool.false_ne_true this
      simp [List.count_eq_zero.mpr hnot]

omit h hlook in
theorem nodup_cons_keys : (t.hash :: r.ready.keys).Nodup :=
  List.nodup_cons.mpr ⟨fun hmem => by
    rw [← AList.mem_keys, ← AList.lookup_isSome, hnew] at hmem
    exact Bool.false_ne_true hmem, AList.keys_nodup _⟩

omit h in
theorem inCount_imported (h' : H) :
    inCount (links (ready'.insert t.hash ⟨⟨t, r.insertionId + 1⟩, [], offset⟩))
        (ready'.insert t.hash ⟨⟨t, r.insertionId + 1⟩, [], offset⟩).keys h' =
      inCount (links (ready'.insert t.hash ⟨⟨t, r.insertionId + 1⟩, [], offset⟩)) (t.hash :: r.ready.keys) h' :=
  inCount_congr_mem _ (AList.keys_nodup _) (nodup_cons_keys hnew) (fun a => by
    rw [← AList.mem_keys, mem_imported hlook, List.mem_cons, AList.mem_keys]) h'

omit h in
theorem inCount_imported_ne {h' : H} (hne : h' ≠ t.hash) :
    inCount (links (ready'.insert t.hash ⟨⟨t, r.insertionId + 1⟩, [], offset⟩))
        (ready'.insert t.hash ⟨⟨t, r.insertionId + 1⟩, [], offset⟩).keys h' =
      inCount (links r.ready) r.ready.keys h' := by
  rw [inCount_imported hnew hlook, inCount_cons, links_imported_ne hnew hlook offset hne, Nat.add_comm]
  have hzero : links r.ready t.hash h' = 0 := by simp [links, hnew]
  rw [hzero, Nat.add_zero]
  exact congrArg List.sum (List.map_congr_left fun y _ => links_imported_ne hnew hlook offset hne y)

/-- The links into the newcomer are its required tags that a ready transaction provides. -/
theorem inCount_imported_self :
    inCount (links (ready'.insert t.hash ⟨⟨t, r.insertionId + 1⟩, [], offset⟩))
        (ready'.insert t.hash ⟨⟨t, r.insertionId + 1⟩, [], offset⟩).keys t.hash =
      (r.ready.keys.map fun y => tagLinks r.providedTags t.requires y).sum := by
  rw [inCount_imported hnew hlook, inCount_cons, links_imported_self h hnew hlook, tagLinks_self h hnew,
    Nat.zero_add]
  exact congrArg List.sum (List.map_congr_left fun y _ => links_imported_self h hnew hlook offset y)

omit h hnew in
/-- An entry of the map after the import is the newcomer or an old entry with its new links. -/
theorem lookup_imported_eq_some {y : H} {rt : ReadyTx H}
    (hl : (ready'.insert t.hash ⟨⟨t, r.insertionId + 1⟩, [], offset⟩).lookup y = some rt) :
    (y = t.hash ∧ rt = ⟨⟨t, r.insertionId + 1⟩, [], offset⟩) ∨
      (y ≠ t.hash ∧ ∃ rty, r.ready.lookup y = some rty ∧
        rt = rty.addLinks (tagLinks r.providedTags t.requires y) t.hash) := by
  rw [lookup_imported hlook] at hl
  by_cases hy : y = t.hash
  · rw [if_pos hy] at hl
    exact Or.inl ⟨hy, (Option.some.inj hl).symm⟩
  · rw [if_neg hy] at hl
    obtain ⟨rty, hly, hrt⟩ := Option.map_eq_some_iff.mp hl
    exact Or.inr ⟨hy, rty, hly, hrt.symm⟩

/-- The queue after an import that replaces nothing: the newcomer with `requires_offset` its tags without a ready
provider, in `best` when no tag has one. -/
theorem QueueInv.imported :
    QueueInv ⟨r.insertionId + 1, t.provides.foldl (fun p tag => p.insert tag t.hash) r.providedTags,
      ready'.insert t.hash ⟨⟨t, r.insertionId + 1⟩, [], t.requires.countP fun tag => (r.providedTags.lookup tag).isNone⟩,
      if t.requires.all fun tag => (r.providedTags.lookup tag).isNone then bestInsert ⟨t, r.insertionId + 1⟩ r.best
      else r.best⟩ := by
  -- the newcomer's key is fresh: its insertion id is past the counter
  have hfresh : ∀ y rty, r.ready.lookup y = some rty →
      rty.transaction.key ≠ (⟨t, r.insertionId + 1⟩ : TransactionRef H).key := by
    intro y rty hly hkey
    have hid := congrArg (fun k => k.2.2) hkey
    have hle := h.ids y rty hly
    simp only [TransactionRef.key] at hid
    omega
  have hprov : ∀ tag ∈ t.requires, ∀ a, r.providedTags.lookup tag = some a → a ∈ r.ready.keys :=
    fun tag _ a ha => AList.mem_keys.mp (h.provided tag a ha)
  refine ⟨⟨⟨fun y rt hl => ?_, fun y y' rt rt' hl hl' hkey => ?_, fun y rt hl => ?_⟩, fun ref => ?_⟩,
    fun tag y hl => ?_, fun y rt hl h' hmem => ?_, fun y rt hl => ?_, fun y rty h' rth hl hmem hl' => ?_⟩
  · -- each entry is stored under its hash
    rcases lookup_imported_eq_some hlook _ hl with ⟨rfl, rfl⟩ | ⟨-, rty, hly, rfl⟩
    · rfl
    · exact h.graph.sound.hash_eq y rty hly
  · -- keys are distinct: the newcomer's is fresh
    rcases lookup_imported_eq_some hlook _ hl with ⟨rfl, rfl⟩ | ⟨-, rty, hly, rfl⟩ <;>
      rcases lookup_imported_eq_some hlook _ hl' with ⟨rfl, rfl⟩ | ⟨-, rty', hly', rfl⟩
    · rfl
    · exact absurd hkey.symm (hfresh y' rty' hly')
    · exact absurd hkey (hfresh y rty hly)
    · exact h.graph.sound.key_inj y y' rty rty' hly hly' hkey
  · -- the links into each entry with its `requires_offset` are its required tags
    rcases lookup_imported_eq_some hlook _ hl with ⟨rfl, rfl⟩ | ⟨hy, rty, hly, rfl⟩
    · rw [inCount_imported_self h hnew hlook]
      exact countP_isNone_add_sum_countP _ (AList.keys_nodup _) hprov
    · rw [inCount_imported_ne hnew hlook _ hy, ReadyTx.addLinks_requiresOffset, ReadyTx.addLinks_req]
      exact h.graph.sound.count y rty hly
  · -- `best` gains the newcomer exactly when no ready transaction provides a tag it requires
    have hbest : ref ∈ (if t.requires.all fun tag => (r.providedTags.lookup tag).isNone then
          bestInsert ⟨t, r.insertionId + 1⟩ r.best else r.best) ↔
        ((t.requires.all fun tag => (r.providedTags.lookup tag).isNone) = true ∧ ref = ⟨t, r.insertionId + 1⟩) ∨
          ref ∈ r.best := by
      split
      · rename_i hall
        rw [bestInsert_of_forall_ne fun r0 hr0 => ?_, List.mem_cons]
        · simp [hall]
        · obtain ⟨rt0, hl0, rfl, -⟩ := (h.graph.best_iff r0).mp hr0
          exact hfresh _ rt0 hl0
      · rename_i hall
        simp [hall]
    rw [hbest, lookup_imported hlook]
    by_cases hh : ref.transaction.hash = t.hash
    · have hnot : ref ∉ r.best := fun hr => by
        obtain ⟨rt0, hl0, -⟩ := (h.graph.best_iff ref).mp hr
        rw [hh, hnew] at hl0
        exact absurd hl0 (Option.some_ne_none _).symm
      simp only [if_pos hh, hnot, or_false, Option.some.injEq, exists_eq_left', ReadyTx.req]
      rw [List.countP_eq_length, List.all_eq_true]
      constructor
      · rintro ⟨hall, rfl⟩
        exact ⟨rfl, hall⟩
      · rintro ⟨rfl, hall⟩
        exact ⟨hall, rfl⟩
    · have hne : ref ≠ ⟨t, r.insertionId + 1⟩ := fun heq => hh (by rw [heq])
      simp only [if_neg hh, hne, and_false, false_or, Option.map_eq_some_iff]
      rw [h.graph.best_iff]
      constructor
      · rintro ⟨rty, hly, hrt, hfull⟩
        exact ⟨_, ⟨rty, hly, rfl⟩, hrt, hfull⟩
      · rintro ⟨_, ⟨rty, hly, rfl⟩, hrt, hfull⟩
        exact ⟨rty, hly, hrt, hfull⟩
  · -- the tags the newcomer provides map to it
    rw [AList.lookup_foldl_insert] at hl
    rw [mem_imported hlook]
    split at hl
    · exact Or.inl (Option.some.inj hl).symm
    · exact Or.inr (h.provided tag y hl)
  · -- the new links name the newcomer
    rw [mem_imported hlook]
    rcases lookup_imported_eq_some hlook _ hl with ⟨rfl, rfl⟩ | ⟨-, rty, hly, rfl⟩
    · exact absurd hmem List.not_mem_nil
    · rcases List.mem_append.mp hmem with hmem | hmem
      · exact Or.inr (h.unlocks y rty hly h' hmem)
      · exact Or.inl (List.eq_of_mem_replicate hmem)
  · rcases lookup_imported_eq_some hlook _ hl with ⟨rfl, rfl⟩ | ⟨-, rty, hly, rfl⟩
    · exact le_refl _
    · exact Nat.le_succ_of_le (h.ids y rty hly)
  · -- links go forward: the newcomer's id is past every old one
    rcases lookup_imported_eq_some hlook _ hl with ⟨rfl, rfl⟩ | ⟨-, rty0, hly, rfl⟩
    · exact absurd hmem List.not_mem_nil
    · rcases List.mem_append.mp hmem with hmem | hmem
      · rcases lookup_imported_eq_some hlook _ hl' with ⟨rfl, -⟩ | ⟨-, rth0, hlh, rfl⟩
        · have hready := h.unlocks y rty0 hly _ hmem
          rw [← AList.lookup_isSome, hnew] at hready
          exact absurd hready Bool.false_ne_true
        · exact h.forward y rty0 h' rth0 hly hmem hlh
      · obtain rfl := List.eq_of_mem_replicate hmem
        rcases lookup_imported_eq_some hlook _ hl' with ⟨-, rfl⟩ | ⟨hne, -⟩
        · exact Nat.lt_succ_of_le (h.ids y rty0 hly)
        · exact absurd rfl hne

end Import

/-- An import of a ready transaction not in the queue that replaces nothing succeeds, without reaching the
`expect(HASH_READY)` of its loop, and keeps the invariant. -/
theorem QueueInv.import {r : ReadyTransactions H} (h : QueueInv r) {tx : WaitingTransaction H}
    (hready : tx.isReady = true) (hnew : r.contains tx.transaction.hash = false)
    (hrep : r.replaceHashes tx.transaction = []) :
    ∃ r', r.import tx = some (r', .ok []) ∧ QueueInv r' := by
  obtain ⟨ready', hlink, hlook⟩ := ReadyTransactions.linkRequires_spec r.providedTags tx.transaction.hash
    tx.transaction.requires r.ready 0 true fun tag _ a ha => h.provided tag a ha
  have hnone : r.ready.lookup tx.transaction.hash = none := by
    simpa [ReadyTransactions.contains] using hnew
  refine ⟨_, ReadyTransactions.import_of_replaceHashes_nil hready hnew hrep hlink, ?_⟩
  rw [Nat.zero_add, Bool.true_and]
  exact h.imported hnone hlook

/-! ## Runs of imports -/

/-- One import; `import` panics (`none`) leave the queue as it was. -/
def importStep (r : ReadyTransactions H) (tx : WaitingTransaction H) : ReadyTransactions H :=
  ((r.import tx).map (·.1)).getD r

/-- The imports followed here: a ready transaction not in the queue, providing no tag a ready transaction
provides, so that nothing is replaced. -/
def ImportsFresh (r : ReadyTransactions H) (tx : WaitingTransaction H) : Prop :=
  tx.isReady = true ∧ r.contains tx.transaction.hash = false ∧ r.replaceHashes tx.transaction = []

theorem reach_queueInv {r : ReadyTransactions H} (hr : Reach .empty importStep ImportsFresh r) : QueueInv r := by
  refine Reach.invariant queueInv_empty (fun s tx hs hfresh => ?_) hr
  obtain ⟨hready, hnew, hrep⟩ := hfresh
  obtain ⟨r', heq, hinv⟩ := hs.import hready hnew hrep
  rw [importStep, heq]
  exact hinv

/-- Every ready queue built from the empty one by imports that replace nothing has a sound graph whose links go
from earlier insertions to later ones, and its next such import succeeds. -/
theorem ready_import_graph_sound {r : ReadyTransactions H} (hr : Reach .empty importStep ImportsFresh r) :
    ReadyGraph r ∧
      (∀ y rty h rth, r.ready.lookup y = some rty → h ∈ rty.unlocks → r.ready.lookup h = some rth →
        rty.transaction.insertionId < rth.transaction.insertionId) ∧
      ∀ tx, ImportsFresh r tx → ∃ r', r.import tx = some (r', .ok []) := by
  have hinv := reach_queueInv hr
  refine ⟨hinv.graph, hinv.forward, fun tx ⟨hready, hnew, hrep⟩ => ?_⟩
  obtain ⟨r', heq, -⟩ := hinv.import hready hnew hrep
  exact ⟨r', heq⟩

theorem reach_sampleReady : Reach .empty importStep ImportsFresh sampleReady := by
  show Reach .empty importStep ImportsFresh (importStep (importStep (importStep (importStep .empty
    ⟨sampleFirst, []⟩) ⟨sampleSecond, []⟩) ⟨sampleThird, []⟩) ⟨sampleOther, []⟩)
  refine Reach.step (Reach.step (Reach.step (Reach.step Reach.init ?_) ?_) ?_) ?_ <;>
    · unfold ImportsFresh
      decide

theorem ready_import_graph_sound_sample :
    ReadyGraph sampleReady ∧
      (∀ y rty h rth, sampleReady.ready.lookup y = some rty → h ∈ rty.unlocks → sampleReady.ready.lookup h = some rth →
        rty.transaction.insertionId < rth.transaction.insertionId) ∧
      ∀ tx, ImportsFresh sampleReady tx → ∃ r', sampleReady.import tx = some (r', .ok []) :=
  ready_import_graph_sound reach_sampleReady

end CoreChain.TxPool

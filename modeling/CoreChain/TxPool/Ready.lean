import CoreChain.Lib.Vec
import CoreChain.TxPool.Future

/-!
# The ready queue of the transaction pool

The model of `substrate/client/transaction-pool/src/graph/ready.rs`. A ready transaction is linked to the ready
transactions providing the tags it requires: each of them lists it in its `unlocks`, and `requires_offset` counts
the required tags no ready transaction provides. `provided_tags` maps each tag to the one ready transaction
providing it, and `best` holds the ready transactions with nothing ready before them.

A transaction providing a tag that a ready one provides replaces it (`replace_previous`) only when its priority
exceeds the summed priority of all those it would replace; they leave with the subtree they unlock, except that the
tags the newcomer provides stay in `provided_tags`, to be overwritten by it. `prune_tags` removes the provider of a
tag after its inclusion in a block, with the providers before it whose dependants are all gone.

The worklists (`Vec::pop`) are lists with the top first, so that `append` then `pop` is `reverse ++`, and their loops
run on fuel bounded by what they can push. `best` is a list in which an element equal under the ordering of
`TransactionRef` (priority, then `valid_till`, then insertion id) stands for the element of the `BTreeSet`. The
`expect(HASH_READY)` panic, the asserts and the `assert_eq` of `prune_tags` are `none`.
-/

namespace CoreChain.TxPool

/-- `u64::MAX`, where `saturating_add` stops. -/
def u64Max : Nat := 2 ^ 64 - 1

/-- `TransactionRef`. -/
structure TransactionRef (H : Type) where
  transaction : Transaction H
  insertionId : Nat
  deriving DecidableEq, Repr

/-- What `Ord for TransactionRef` compares: two references are equal in `best` when these are. -/
def TransactionRef.key {H : Type} (r : TransactionRef H) : Nat × Nat × Nat :=
  (r.transaction.priority, r.transaction.validTill, r.insertionId)

/-- `ReadyTx`. -/
structure ReadyTx (H : Type) where
  transaction : TransactionRef H
  unlocks : List H
  requiresOffset : Nat
  deriving DecidableEq, Repr

/-- `ReadyTransactions`. -/
structure ReadyTransactions (H : Type) where
  insertionId : Nat
  providedTags : AList (fun _ : Tag => H)
  ready : AList (fun _ : H => ReadyTx H)
  best : List (TransactionRef H)

variable {H : Type} [DecidableEq H]

/-- `BTreeSet::insert`: an equal element already there is kept. -/
def bestInsert (r : TransactionRef H) (best : List (TransactionRef H)) : List (TransactionRef H) :=
  if best.any (·.key == r.key) then best else r :: best

/-- `BTreeSet::remove`. -/
def bestRemove (r : TransactionRef H) (best : List (TransactionRef H)) : List (TransactionRef H) :=
  best.filter (·.key != r.key)

/-- `remove_item`: the first occurrence goes by `swap_remove`. -/
def removeItem (l : List H) (item : H) : List H :=
  match l.findIdx? (· == item) with
  | some idx => swapRemove l idx
  | none => l

/-- The map of ready transactions. -/
abbrev ReadyMap (H : Type) := AList (fun _ : H => ReadyTx H)

namespace ReadyTransactions

/-- `ReadyTransactions::default`. -/
def empty : ReadyTransactions H :=
  ⟨0, ∅, ∅, []⟩

/-- `contains`. -/
def contains (r : ReadyTransactions H) (hash : H) : Bool :=
  (r.ready.lookup hash).isSome

/-- All the `unlocks` links of the queue: a bound on what `remove_subtree` can push. -/
def unlockCount (r : ReadyTransactions H) : Nat :=
  (r.ready.entries.map fun e => e.2.unlocks.length).sum

/-- The removal of `tx_hash` from the `unlocks` of the ready transaction providing `tag`. -/
def dropUnlock (providedTags : AList (fun _ : Tag => H)) (txHash : H) (ready : ReadyMap H) (tag : Tag) :
    ReadyMap H :=
  match providedTags.lookup tag with
  | some hash =>
    match ready.lookup hash with
    | some t => ready.insert hash { t with unlocks := removeItem t.unlocks txHash }
    | none => ready
  | none => ready

/-- The loop of `remove_subtree_with_tag_filter`. A removed transaction frees the tags it provides outside the
filter, and its dependants follow it only when it freed one. -/
def removeSubtreeLoop (filter : Option (List Tag)) :
    Nat → List H → ReadyTransactions H → List (Transaction H) → ReadyTransactions H × List (Transaction H)
  | 0, _, r, removed => (r, removed)
  | _ + 1, [], r, removed => (r, removed)
  | fuel + 1, txHash :: toRemove, r, removed =>
    match r.ready.lookup txHash with
    | none => removeSubtreeLoop filter fuel toRemove r removed
    | some tx =>
      let t := tx.transaction.transaction
      let invalidated := t.provides.filter fun tag => filter.all fun f => !f.contains tag
      let providedTags := invalidated.foldl (fun p tag => p.erase tag) r.providedTags
      let ready := t.requires.foldl (dropUnlock providedTags txHash) (r.ready.erase txHash)
      let toRemove := if invalidated.isEmpty then toRemove else tx.unlocks.reverse ++ toRemove
      removeSubtreeLoop filter fuel toRemove ⟨r.insertionId, providedTags, ready, bestRemove tx.transaction r.best⟩
        (removed ++ [t])

/-- `remove_subtree_with_tag_filter`. Every removal takes a transaction out of `ready` and pushes its links, so
the roots and the links bound the pops. -/
def removeSubtreeWithTagFilter (r : ReadyTransactions H) (toRemove : List H) (filter : Option (List Tag)) :
    ReadyTransactions H × List (Transaction H) :=
  removeSubtreeLoop filter (toRemove.length + r.unlockCount + 1) toRemove.reverse r []

/-- `remove_subtree`. -/
def removeSubtree (r : ReadyTransactions H) (hashes : List H) : ReadyTransactions H × List (Transaction H) :=
  r.removeSubtreeWithTagFilter hashes none

/-- The ready transactions that provide one of the tags of `tx`: `replace_hashes`. -/
def replaceHashes (r : ReadyTransactions H) (tx : Transaction H) : List H :=
  (tx.provides.filterMap r.providedTags.lookup).eraseDups

/-- The summed priority of the transactions to replace, saturating at `u64::MAX`. -/
def oldPriority (r : ReadyTransactions H) (hashes : List H) : Nat :=
  (hashes.filterMap r.ready.lookup).foldl (fun total t => min (total + t.transaction.transaction.priority) u64Max) 0

/-- `replace_previous`: the removed transactions, and the links the replacement inherits. -/
def replacePrevious (r : ReadyTransactions H) (tx : Transaction H) :
    Except (PoolError H) (ReadyTransactions H × List (Transaction H) × List H) :=
  let hashes := r.replaceHashes tx
  if hashes.isEmpty then .ok (r, [], [])
  else if tx.priority ≤ r.oldPriority hashes then .error (.tooLowPriority (r.oldPriority hashes) tx.priority)
  else
    let unlocks := (hashes.filterMap r.ready.lookup).flatMap (·.unlocks)
    let (r, removed) := r.removeSubtreeWithTagFilter hashes (some tx.provides)
    .ok (r, removed, unlocks)

/-- The links of `import`: a required tag a ready transaction provides adds the newcomer to its `unlocks`
(`expect(HASH_READY)`), any other counts in `requires_offset`. -/
def linkRequires (providedTags : AList (fun _ : Tag => H)) (hash : H) :
    List Tag → ReadyMap H → Nat → Bool → Option (ReadyMap H × Nat × Bool)
  | [], ready, requiresOffset, goesToBest => some (ready, requiresOffset, goesToBest)
  | tag :: tags, ready, requiresOffset, goesToBest =>
    match providedTags.lookup tag with
    | some other => do
      let t ← ready.lookup other
      linkRequires providedTags hash tags (ready.insert other { t with unlocks := t.unlocks ++ [hash] })
        requiresOffset false
    | none => linkRequires providedTags hash tags ready (requiresOffset + 1) goesToBest

/-- `import`. The insertion id is taken before `replace_previous`, so it moves on an error too. -/
def «import» (r : ReadyTransactions H) (tx : WaitingTransaction H) :
    Option (ReadyTransactions H × Except (PoolError H) (List (Transaction H))) :=
  if !tx.isReady || r.contains tx.transaction.hash then none
  else
    let t := tx.transaction
    let r := { r with insertionId := r.insertionId + 1 }
    match r.replacePrevious t with
    | .error e => some (r, .error e)
    | .ok (r, replaced, unlocks) => do
      let (ready, requiresOffset, goesToBest) ← linkRequires r.providedTags t.hash t.requires r.ready 0 true
      let providedTags := t.provides.foldl (fun p tag => p.insert tag t.hash) r.providedTags
      let ref : TransactionRef H := ⟨t, r.insertionId⟩
      let best := if goesToBest then bestInsert ref r.best else r.best
      some (⟨r.insertionId, providedTags, ready.insert t.hash ⟨ref, unlocks, requiresOffset⟩, best⟩, .ok replaced)

/-- `find_previous` over the tags a pruned transaction required: its providers drop the link to it, and those left
with no dependant have their tags pushed, to be pruned in turn. -/
def findPrevious (providedTags : AList (fun _ : Tag => H)) (hash : H) :
    List Tag → ReadyMap H → List Tag → ReadyMap H × List Tag
  | [], ready, toRemove => (ready, toRemove)
  | tag :: tags, ready, toRemove =>
    match providedTags.lookup tag with
    | none => findPrevious providedTags hash tags ready toRemove
    | some prev =>
      match ready.lookup prev with
      | none => findPrevious providedTags hash tags ready toRemove
      | some tx2 =>
        let unlocks := removeItem tx2.unlocks hash
        findPrevious providedTags hash tags (ready.insert prev { tx2 with unlocks })
          (if unlocks.isEmpty then tx2.transaction.transaction.provides.reverse ++ toRemove else toRemove)

/-- The dependants of a pruned transaction count one more tag as provided inherently, and go to `best` once
all their tags are. -/
def promoteUnlocked : List H → ReadyMap H → List (TransactionRef H) → ReadyMap H × List (TransactionRef H)
  | [], ready, best => (ready, best)
  | hash :: hashes, ready, best =>
    match ready.lookup hash with
    | none => promoteUnlocked hashes ready best
    | some t =>
      let t := { t with requiresOffset := t.requiresOffset + 1 }
      promoteUnlocked hashes (ready.insert hash t)
        (if t.requiresOffset = t.transaction.transaction.requires.length then bestInsert t.transaction best
          else best)

/-- The last loop of a pruning: the other tags of the pruned transaction leave `provided_tags`, each of which
must have mapped to it (`assert_eq`). -/
def releaseProvides (currentTag : Tag) (hash : H) :
    List Tag → AList (fun _ : Tag => H) → Option (AList (fun _ : Tag => H))
  | [], providedTags => some providedTags
  | tag :: tags, providedTags =>
    if providedTags.lookup tag = (if currentTag = tag then none else some hash) then
      releaseProvides currentTag hash tags (providedTags.erase tag)
    else none

/-- The tags of the queue's transactions, required and provided: their product bounds what a pruning pushes. -/
def pruneFuel (r : ReadyTransactions H) : Nat :=
  (r.ready.entries.map fun e => e.2.transaction.transaction.requires.length).sum *
    (r.ready.entries.map fun e => e.2.transaction.transaction.provides.length).sum + 2

/-- The loop of `prune_tags`. -/
def pruneTagsLoop :
    Nat → List Tag → ReadyTransactions H → List (Transaction H) → Option (ReadyTransactions H × List (Transaction H))
  | 0, _, r, removed => some (r, removed)
  | _ + 1, [], r, removed => some (r, removed)
  | fuel + 1, tag :: toRemove, r, removed =>
    -- `provided_tags.remove(&tag).and_then(|hash| ready.remove(&hash))`
    let providedTags := r.providedTags.erase tag
    match r.providedTags.lookup tag with
    | none => pruneTagsLoop fuel toRemove { r with providedTags } removed
    | some hash =>
      match r.ready.lookup hash with
      | none => pruneTagsLoop fuel toRemove { r with providedTags, ready := r.ready.erase hash } removed
      | some tx => do
        let t := tx.transaction.transaction
        let best := bestRemove tx.transaction r.best
        let (ready, toRemove) := findPrevious providedTags t.hash t.requires (r.ready.erase hash) toRemove
        let (ready, best) := promoteUnlocked tx.unlocks ready best
        let providedTags ← releaseProvides tag t.hash t.provides providedTags
        pruneTagsLoop fuel toRemove ⟨r.insertionId, providedTags, ready, best⟩ (removed ++ [t])

/-- `prune_tags`. -/
def pruneTags (r : ReadyTransactions H) (tag : Tag) : Option (ReadyTransactions H × List (Transaction H)) :=
  pruneTagsLoop r.pruneFuel [tag] r []

end ReadyTransactions

end CoreChain.TxPool

import Mathlib

/-!
# The future queue of the transaction pool

The model of `substrate/client/transaction-pool/src/graph/future.rs`, with the transaction record of
`base_pool.rs`. A transaction requires and provides tags; one whose required tags are not all provided by a ready
transaction (or recently pruned) waits in the future queue with its `missing_tags`, and `wanted_tags` indexes the
waiting transactions by the tags they miss. `satisfy_tags` is how a newly ready transaction releases them.

Hash sets are lists without repetition, in insertion order (the order in which the source visits a `HashSet` is
not specified). The `expect(WAITING_PROOF)` panics and the asserts are `none`.
-/

namespace CoreChain.TxPool

/-- `Tag`. -/
abbrev Tag := List UInt8

/-- `Transaction`, with the fields the pool's graph reads. -/
structure Transaction (H : Type) where
  hash : H
  priority : Nat
  validTill : Nat
  requires : List Tag
  provides : List Tag
  deriving DecidableEq, Repr

/-- The variants of `error::Error` the base pool returns. -/
inductive PoolError (H : Type) where
  | alreadyImported (hash : H)
  | rejectedFutureTransaction
  | tooLowPriority (old new : Nat)
  | cycleDetected
  deriving DecidableEq, Repr

/-- `WaitingTransaction`, without the import time that only `enforce_limits` reads. -/
structure WaitingTransaction (H : Type) where
  transaction : Transaction H
  missingTags : List Tag
  deriving DecidableEq, Repr

variable {H : Type} [DecidableEq H]

namespace WaitingTransaction

/-- `WaitingTransaction::new`: the required tags that neither a ready transaction nor a recent pruning provides. -/
def new (transaction : Transaction H) (provided : AList (fun _ : Tag => H)) (recentlyPruned : List (List Tag)) :
    WaitingTransaction H :=
  ⟨transaction, (transaction.requires.filter fun tag =>
    !((provided.lookup tag).isSome || recentlyPruned.any fun x => x.contains tag)).eraseDups⟩

/-- `satisfy_tag`. -/
def satisfyTag (tx : WaitingTransaction H) (tag : Tag) : WaitingTransaction H :=
  { tx with missingTags := tx.missingTags.erase tag }

/-- `is_ready`. -/
def isReady (tx : WaitingTransaction H) : Bool :=
  tx.missingTags.isEmpty

end WaitingTransaction

/-- `HashSet::insert` on a list without repetition. -/
def hashSetInsert {α : Type} [DecidableEq α] (a : α) (s : List α) : List α :=
  if a ∈ s then s else s ++ [a]

@[simp] theorem mem_hashSetInsert {α : Type} [DecidableEq α] (a x : α) (s : List α) :
    x ∈ hashSetInsert a s ↔ x ∈ s ∨ x = a := by
  unfold hashSetInsert
  split
  · constructor
    · exact Or.inl
    · rintro (hx | rfl) <;> assumption
  · simp

/-- `FutureTransactions`. -/
structure FutureTransactions (H : Type) where
  wantedTags : AList (fun _ : Tag => List H)
  waiting : AList (fun _ : H => WaitingTransaction H)

namespace FutureTransactions

/-- `FutureTransactions::default`. -/
def empty : FutureTransactions H :=
  ⟨∅, ∅⟩

/-- `contains`. -/
def contains (f : FutureTransactions H) (hash : H) : Bool :=
  (f.waiting.lookup hash).isSome

/-- `wanted_tags.entry(tag).or_insert_with(HashSet::new).insert(hash)`. -/
def want (hash : H) (wanted : AList (fun _ : Tag => List H)) (tag : Tag) : AList (fun _ : Tag => List H) :=
  wanted.insert tag (hashSetInsert hash ((wanted.lookup tag).getD []))

/-- `import`: the asserts that the transaction is not ready and not yet waiting are `none`. -/
def «import» (f : FutureTransactions H) (tx : WaitingTransaction H) : Option (FutureTransactions H) :=
  if tx.isReady || f.contains tx.transaction.hash then none
  else some ⟨tx.missingTags.foldl (want tx.transaction.hash) f.wantedTags, f.waiting.insert tx.transaction.hash tx⟩

/-- The inner loop of `satisfy_tags`, over the hashes that waited for `tag`: each is looked up in `waiting`
(`expect(WAITING_PROOF)`), has the tag satisfied, and leaves `waiting` once it misses nothing. -/
def satisfyHashes (tag : Tag) :
    List H → FutureTransactions H → List (WaitingTransaction H) →
      Option (FutureTransactions H × List (WaitingTransaction H))
  | [], f, becameReady => some (f, becameReady)
  | hash :: hashes, f, becameReady => do
    let tx ← f.waiting.lookup hash
    let tx := tx.satisfyTag tag
    if tx.isReady then satisfyHashes tag hashes ⟨f.wantedTags, f.waiting.erase hash⟩ (becameReady ++ [tx])
    else satisfyHashes tag hashes ⟨f.wantedTags, f.waiting.insert hash tx⟩ becameReady

/-- The outer loop of `satisfy_tags`, over the provided tags. -/
def satisfyTagsLoop :
    List Tag → FutureTransactions H → List (WaitingTransaction H) →
      Option (FutureTransactions H × List (WaitingTransaction H))
  | [], f, becameReady => some (f, becameReady)
  | tag :: tags, f, becameReady =>
    match f.wantedTags.lookup tag with
    | none => satisfyTagsLoop tags f becameReady
    | some hashes => do
      let (f, becameReady) ← satisfyHashes tag hashes ⟨f.wantedTags.erase tag, f.waiting⟩ becameReady
      satisfyTagsLoop tags f becameReady

/-- `satisfy_tags`: the transactions that became ready, removed from the queue. -/
def satisfyTags (f : FutureTransactions H) (tags : List Tag) :
    Option (FutureTransactions H × List (WaitingTransaction H)) :=
  satisfyTagsLoop tags f []

/-- Taking `hash` out of `wanted_tags[tag]`, and the entry with it once it is empty. -/
def unwant (hash : H) (wanted : AList (fun _ : Tag => List H)) (tag : Tag) : AList (fun _ : Tag => List H) :=
  match wanted.lookup tag with
  | some hashes =>
    let hashes := hashes.erase hash
    if hashes.isEmpty then wanted.erase tag else wanted.insert tag hashes
  | none => wanted

/-- `remove`: the transactions that were waiting, in the order of `hashes`. -/
def remove (f : FutureTransactions H) : List H → FutureTransactions H × List (Transaction H)
  | [] => (f, [])
  | hash :: hashes =>
    match f.waiting.lookup hash with
    | some tx =>
      let f' : FutureTransactions H :=
        ⟨tx.missingTags.foldl (unwant hash) f.wantedTags, f.waiting.erase hash⟩
      let (f'', removed) := f'.remove hashes
      (f'', tx.transaction :: removed)
    | none => f.remove hashes

/-- `prune_tags`: removes the waiting transactions that provide one of `tags`. -/
def pruneTags (f : FutureTransactions H) (tags : List Tag) : FutureTransactions H × List (Transaction H) :=
  f.remove ((f.waiting.entries.filter fun e => e.2.transaction.provides.any fun t => tags.contains t).map (·.1))

/-- `clear`. -/
def clear (f : FutureTransactions H) : FutureTransactions H × List (Transaction H) :=
  (empty, f.waiting.entries.map (·.2.transaction))

end FutureTransactions

end CoreChain.TxPool

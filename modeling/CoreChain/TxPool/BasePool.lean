import CoreChain.TxPool.Ready

/-!
# The base pool

The model of `substrate/client/transaction-pool/src/graph/base_pool.rs`: the future and ready queues together, with
the tags pruned by the last two calls of `prune_tags` (a required tag among them counts as provided). `import` puts a
transaction in the future queue while it misses tags; otherwise `import_to_ready` moves it to the ready queue and,
with it, every future transaction its tags release, one at a time from a worklist.

`enforce_limits` is left out. A panic of the queues is `none`; an error of `import` is returned with the state the
call leaves, which the source keeps too.
-/

namespace CoreChain.TxPool

/-- `RECENTLY_PRUNED_TAGS`. -/
abbrev recentlyPrunedTags : Nat := 2

/-- `BasePool`. The index into `recently_pruned` is always reduced modulo its length, so it is a `Fin`. -/
structure BasePool (H : Type) where
  rejectFutureTransactions : Bool
  future : FutureTransactions H
  ready : ReadyTransactions H
  recentlyPruned : Fin recentlyPrunedTags → List Tag
  recentlyPrunedIndex : Fin recentlyPrunedTags

/-- `Imported`. -/
inductive Imported (H : Type) where
  | ready (hash : H) (promoted : List H) (failed : List H) (removed : List (Transaction H))
  | future (hash : H)
  deriving DecidableEq, Repr

/-- `PruneStatus`. -/
structure PruneStatus (H : Type) where
  promoted : List (Imported H)
  failed : List H
  pruned : List (Transaction H)

variable {H : Type} [DecidableEq H]

namespace BasePool

/-- `BasePool::new`. -/
def new (rejectFutureTransactions : Bool) : BasePool H :=
  ⟨rejectFutureTransactions, .empty, .empty, fun _ => [], 0⟩

/-- The sets of `recently_pruned`, in index order. -/
def recentlyPrunedSets (p : BasePool H) : List (List Tag) :=
  (List.finRange recentlyPrunedTags).map p.recentlyPruned

/-- `is_imported`. -/
def isImported (p : BasePool H) (hash : H) : Bool :=
  p.future.contains hash || p.ready.contains hash

/-- The end of `import_to_ready`: a transaction pushed out by what it promoted means a cycle, and the promoted
ones leave again. -/
def importToReadyResult (p : BasePool H) (txHash : H) (promoted failed : List H) (removed : List (Transaction H)) :
    BasePool H × Except (PoolError H) (Imported H) :=
  if removed.any (·.hash == txHash) then
    ({ p with ready := (p.ready.removeSubtree promoted).1 }, .error .cycleDetected)
  else (p, .ok (.ready txHash promoted failed removed))

/-- The loop of `import_to_ready`: the candidate releases the future transactions its tags satisfy before it is
imported itself. An error of the first candidate is the call's error; a later candidate that fails is reported. -/
def importToReadyLoop (txHash : H) :
    Nat → List (WaitingTransaction H) → Bool → BasePool H → List H → List H → List (Transaction H) →
      Option (BasePool H × Except (PoolError H) (Imported H))
  | 0, _, _, p, promoted, failed, removed => some (p.importToReadyResult txHash promoted failed removed)
  | _ + 1, [], _, p, promoted, failed, removed => some (p.importToReadyResult txHash promoted failed removed)
  | fuel + 1, tx :: toImport, first, p, promoted, failed, removed => do
    let (future, unlocked) ← p.future.satisfyTags tx.transaction.provides
    let toImport := unlocked.reverse ++ toImport
    let currentHash := tx.transaction.hash
    let (ready, result) ← p.ready.import tx
    let p := { p with future, ready }
    match result with
    | .ok replaced =>
      let promoted := if first then promoted else promoted ++ [currentHash]
      let promoted := promoted.filter fun hash => replaced.all (·.hash != hash)
      importToReadyLoop txHash fuel toImport false p promoted failed (removed ++ replaced)
    | .error (.tooLowPriority old new) =>
      if first then some (p, .error (.tooLowPriority old new))
      else
        importToReadyLoop txHash fuel toImport false p (promoted.filter (· != currentHash)) failed
          (removed ++ [tx.transaction])
    | .error e =>
      if first then some (p, .error e)
      else importToReadyLoop txHash fuel toImport false p promoted (failed ++ [currentHash]) removed

/-- `import_to_ready`. Each candidate after the first left the future queue, which bounds the pops. -/
def importToReady (p : BasePool H) (tx : WaitingTransaction H) :
    Option (BasePool H × Except (PoolError H) (Imported H)) :=
  importToReadyLoop tx.transaction.hash (p.future.waiting.entries.length + 2) [tx] true p [] [] []

/-- `import`. -/
def «import» (p : BasePool H) (tx : Transaction H) : Option (BasePool H × Except (PoolError H) (Imported H)) :=
  if p.isImported tx.hash then some (p, .error (.alreadyImported tx.hash))
  else
    let w := WaitingTransaction.new tx p.ready.providedTags p.recentlyPrunedSets
    if !w.isReady then
      if p.rejectFutureTransactions then some (p, .error .rejectedFutureTransaction)
      else do
        let future ← p.future.import w
        some ({ p with future }, .ok (.future tx.hash))
    else p.importToReady w

/-- `remove_subtree`: the ready subtrees of `hashes`, then the future transactions among them. -/
def removeSubtree (p : BasePool H) (hashes : List H) : BasePool H × List (Transaction H) :=
  let (ready, removedReady) := p.ready.removeSubtree hashes
  let (future, removedFuture) := p.future.remove hashes
  ({ p with ready, future }, removedReady ++ removedFuture)

/-- `clear_future`. -/
def clearFuture (p : BasePool H) : BasePool H × List (Transaction H) :=
  let (future, removed) := p.future.clear
  ({ p with future }, removed)

/-- The loop of `prune_tags` over the tags: each releases the future transactions waiting for it, prunes its
provider from the ready queue and joins the recently pruned set. -/
def pruneTagsLoop :
    List Tag → BasePool H → List (WaitingTransaction H) → List (Transaction H) → List Tag →
      Option (BasePool H × List (WaitingTransaction H) × List (Transaction H) × List Tag)
  | [], p, toImport, pruned, recent => some (p, toImport, pruned, recent)
  | tag :: tags, p, toImport, pruned, recent => do
    let (future, unlocked) ← p.future.satisfyTags [tag]
    let (ready, removed) ← p.ready.pruneTags tag
    pruneTagsLoop tags { p with future, ready } (toImport ++ unlocked) (pruned ++ removed)
      (hashSetInsert tag recent)

/-- The promotions at the end of `prune_tags`: a failed one is reported, not returned. -/
def promoteLoop :
    List (WaitingTransaction H) → BasePool H → List (Imported H) → List H →
      Option (BasePool H × List (Imported H) × List H)
  | [], p, promoted, failed => some (p, promoted, failed)
  | tx :: toImport, p, promoted, failed => do
    let (p, result) ← p.importToReady tx
    match result with
    | .ok res => promoteLoop toImport p (promoted ++ [res]) failed
    | .error _ => promoteLoop toImport p promoted (failed ++ [tx.transaction.hash])

/-- `prune_tags`. The set at the current index is cleared and refilled with `tags`, and the index moves on. -/
def pruneTags (p : BasePool H) (tags : List Tag) : Option (BasePool H × PruneStatus H) := do
  let index := p.recentlyPrunedIndex
  let p := { p with recentlyPrunedIndex := index + 1 }
  let (future, futuresRemoved) := p.future.pruneTags tags
  let (p, toImport, pruned, recent) ← pruneTagsLoop tags { p with future } [] [] []
  let p := { p with recentlyPruned := Function.update p.recentlyPruned index recent }
  let (p, promoted, failed) ← promoteLoop toImport p [] (futuresRemoved.map (·.hash))
  some (p, ⟨promoted, failed, pruned⟩)

end BasePool

/-! ## Runs -/

/-- The calls of the pool. -/
inductive Call (H : Type) where
  | «import» (tx : Transaction H)
  | removeSubtree (hashes : List H)
  | pruneTags (tags : List Tag)
  | clearFuture
  deriving DecidableEq, Repr

/-- One call: the pool it leaves, whatever it returns; `none` on a panic. -/
def Call.apply : Call H → BasePool H → Option (BasePool H)
  | .import tx, p => (p.import tx).map (·.1)
  | .removeSubtree hashes, p => some (p.removeSubtree hashes).1
  | .pruneTags tags, p => (p.pruneTags tags).map (·.1)
  | .clearFuture, p => some p.clearFuture.1

/-- A run of calls from `p`. -/
def run (p : BasePool H) : List (Call H) → Option (BasePool H)
  | [] => some p
  | c :: cs => (c.apply p).bind fun p => run p cs

end CoreChain.TxPool

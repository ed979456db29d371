import CoreChain.Overlay.Changeset

/-!
# Overlayed changes

The model of `OverlayedChanges` in `substrate/primitives/state-machine/src/overlayed_changes/mod.rs`: the
changeset of the top trie, one changeset for every child trie, and the offchain overlay. A child changeset is made
on the first write to its trie by `spawn_child`, at the depth, the client transactions and the mode of the top
one. A transactional call goes to the top changeset first, whose error is returned; the children and the offchain
overlay must then follow, and their failure is an `expect` (`none` here). A rollback drops the child changesets
it leaves empty (`retain_map`).

A child trie is named by its storage key (`ChildInfo` is the default child trie of that key); the children are a
list of pairs, the trie written last in front. The prefix of `clear_prefix` is a predicate on keys.
-/

namespace CoreChain.Overlay

/-- `OffchainOverlayedChange`. -/
inductive OffchainOverlayedChange where
  | remove
  | setValue (value : List UInt8)
  deriving DecidableEq, Repr

/-- `STORAGE_PREFIX` of the offchain storage, the bytes of `storage`. -/
def storagePrefix : List UInt8 :=
  [115, 116, 111, 114, 97, 103, 101]

/-- `OverlayedChanges`: the changesets of the top trie and of the child tries, and the offchain overlay. -/
structure OverlayedChanges (K : Type _) where
  top : OverlayedMap K StorageEntry
  children : List (K × OverlayedMap K StorageEntry)
  offchain : OverlayedMap (List UInt8 × K) OffchainOverlayedChange

/-- A call on the overlayed changes, as the externalities make them. -/
inductive ChangesOp (K : Type _) where
  | setStorage (key : K) (value : Option (List UInt8))
  | setChildStorage (storageKey key : K) (value : Option (List UInt8))
  | clearChildStorage (storageKey : K)
  | clearPrefix (startsWith : K → Bool)
  | clearChildPrefix (storageKey : K) (startsWith : K → Bool)
  | appendStorage (key : K) (element init : List UInt8)
  | setOffchainStorage (key : K) (value : Option (List UInt8))
  | startTransaction
  | commitTransaction
  | rollbackTransaction
  | enterRuntime
  | exitRuntime

variable (c : CompactCodec) {K : Type _} [DecidableEq K]

namespace OverlayedChanges

/-- `Default`: nothing changed, no transaction open, in client mode. -/
def empty : OverlayedChanges K :=
  ⟨OverlayedMap.empty, [], OverlayedMap.empty⟩

/-- `transaction_depth`: the top changeset's. -/
def transactionDepth (s : OverlayedChanges K) : Nat :=
  s.top.transactionDepth

/-- The changeset of a child trie, `children.entry(storage_key).or_insert_with(|| top.spawn_child())`. -/
def childChangeset (s : OverlayedChanges K) (storageKey : K) : OverlayedMap K StorageEntry :=
  (s.children.lookup storageKey).getD s.top.spawnChild

/-- The changes with the changeset of a child trie put in its entry. -/
def withChild (s : OverlayedChanges K) (storageKey : K) (changeset : OverlayedMap K StorageEntry) :
    OverlayedChanges K :=
  { s with children := (storageKey, changeset) :: s.children.filter fun p => p.1 ≠ storageKey }

/-- `set_storage`. -/
def setStorage (s : OverlayedChanges K) (key : K) (value : Option (List UInt8)) : Option (OverlayedChanges K) :=
  (s.top.set c key value).map fun top => { s with top }

/-- `append_storage`; `init` is the value to append to when the overlay has none. -/
def appendStorage (s : OverlayedChanges K) (key : K) (element init : List UInt8) : Option (OverlayedChanges K) :=
  (s.top.appendStorage c key element init).map fun top => { s with top }

/-- `set_child_storage`. -/
def setChildStorage (s : OverlayedChanges K) (storageKey key : K) (value : Option (List UInt8)) :
    Option (OverlayedChanges K) :=
  ((s.childChangeset storageKey).set c key value).map (s.withChild storageKey)

/-- `clear_child_storage`: every key of the child trie is set to `None`; the count of those that had a value. -/
def clearChildStorage (s : OverlayedChanges K) (storageKey : K) : Option (Nat × OverlayedChanges K) :=
  ((s.childChangeset storageKey).clearWhere c fun _ _ => true).map fun r => (r.1, s.withChild storageKey r.2)

/-- `clear_prefix`, with `startsWith` for `key.starts_with(prefix)`. -/
def clearPrefix (s : OverlayedChanges K) (startsWith : K → Bool) : Option (Nat × OverlayedChanges K) :=
  (s.top.clearWhere c fun key _ => startsWith key).map fun r => (r.1, { s with top := r.2 })

/-- `clear_child_prefix`. -/
def clearChildPrefix (s : OverlayedChanges K) (storageKey : K) (startsWith : K → Bool) :
    Option (Nat × OverlayedChanges K) :=
  ((s.childChangeset storageKey).clearWhere c fun key _ => startsWith key).map fun r =>
    (r.1, s.withChild storageKey r.2)

/-- `set_offchain_storage`: a value is set under `STORAGE_PREFIX`, `None` removes it. -/
def setOffchainStorage (s : OverlayedChanges K) (key : K) (value : Option (List UInt8)) :
    Option (OverlayedChanges K) :=
  let change := match value with
    | some value => OffchainOverlayedChange.setValue value
    | none => .remove
  (s.offchain.setOffchain (storagePrefix, key) change).map fun offchain => { s with offchain }

/-- `start_transaction`. -/
def startTransaction (s : OverlayedChanges K) : OverlayedChanges K :=
  ⟨s.top.startTransaction, s.children.map fun p => (p.1, p.2.startTransaction), s.offchain.startTransaction⟩

/-- `rollback_transaction`: the children and the offchain overlay roll back in step with the top changeset, and a
child left empty is dropped. -/
def rollbackTransaction (s : OverlayedChanges K) : Option (Except NoOpenTransaction (OverlayedChanges K)) :=
  match s.top.rollbackTransaction c with
  | some (.ok top) => do
    let children ← s.children.mapM fun p => ((p.2.rollbackTransaction c).bind Except.toOption).map (p.1, ·)
    let offchain ← (s.offchain.closeTransactionOffchain true).bind Except.toOption
    pure (.ok ⟨top, children.filter fun p => !p.2.isEmpty, offchain⟩)
  | some (.error e) => some (.error e)
  | none => none

/-- `commit_transaction`. -/
def commitTransaction (s : OverlayedChanges K) : Option (Except NoOpenTransaction (OverlayedChanges K)) :=
  match s.top.commitTransaction c with
  | some (.ok top) => do
    let children ← s.children.mapM fun p => ((p.2.commitTransaction c).bind Except.toOption).map (p.1, ·)
    let offchain ← (s.offchain.closeTransactionOffchain false).bind Except.toOption
    pure (.ok ⟨top, children, offchain⟩)
  | some (.error e) => some (.error e)
  | none => none

/-- `enter_runtime`. -/
def enterRuntime (s : OverlayedChanges K) : Option (Except AlreadyInRuntime (OverlayedChanges K)) :=
  match s.top.enterRuntime with
  | .ok top => do
    let children ← s.children.mapM fun p => p.2.enterRuntime.toOption.map (p.1, ·)
    let offchain ← s.offchain.enterRuntime.toOption
    pure (.ok ⟨top, children, offchain⟩)
  | .error e => some (.error e)

/-- `exit_runtime`. -/
def exitRuntime (s : OverlayedChanges K) : Option (Except NotInRuntime (OverlayedChanges K)) :=
  match s.top.exitRuntime c with
  | some (.ok top) => do
    let children ← s.children.mapM fun p => ((p.2.exitRuntime c).bind Except.toOption).map (p.1, ·)
    let offchain ← s.offchain.exitRuntimeOffchain.bind Except.toOption
    pure (.ok ⟨top, children, offchain⟩)
  | some (.error e) => some (.error e)
  | none => none

/-- One call. A call that returns an error leaves the changes as they are. -/
def applyOp (s : OverlayedChanges K) : ChangesOp K → Option (OverlayedChanges K)
  | .setStorage key value => s.setStorage c key value
  | .setChildStorage storageKey key value => s.setChildStorage c storageKey key value
  | .clearChildStorage storageKey => (s.clearChildStorage c storageKey).map Prod.snd
  | .clearPrefix startsWith => (s.clearPrefix c startsWith).map Prod.snd
  | .clearChildPrefix storageKey startsWith => (s.clearChildPrefix c storageKey startsWith).map Prod.snd
  | .appendStorage key element init => s.appendStorage c key element init
  | .setOffchainStorage key value => s.setOffchainStorage key value
  | .startTransaction => some s.startTransaction
  | .commitTransaction => (s.commitTransaction c).map fun r => r.toOption.getD s
  | .rollbackTransaction => (s.rollbackTransaction c).map fun r => r.toOption.getD s
  | .enterRuntime => s.enterRuntime.map fun r => r.toOption.getD s
  | .exitRuntime => (s.exitRuntime c).map fun r => r.toOption.getD s

/-- The calls one after the other. -/
def runOps (s : OverlayedChanges K) (ops : List (ChangesOp K)) : Option (OverlayedChanges K) :=
  ops.foldlM (applyOp c) s

end OverlayedChanges

end CoreChain.Overlay

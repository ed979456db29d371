import Mathlib
import CoreChain.StateDb.NonCanonical

/-!
# The pruning window of the state database

The model of `substrate/client/state-db/src/pruning.rs`, and of the loop of `StateDbSync::prune` in
`substrate/client/state-db/src/lib.rs`. Each canonicalized block still in the window has a death row: the keys its
changeset deleted, which are deleted from the database when the block is pruned. The window keeps its rows in one of
two queues:

- `Mem`, for a database without reference counting, keeps every row in memory with an index from each key to the
  block whose row holds it, and takes a key out of its row when a later block inserts it again;
- `DbBacked` keeps the first rows in a cache and reads the others from the journal in the database.

Every call writes its changes into a `CommitSet`, which the caller applies to the database (`Db.apply`, as
`apply_state_commit` of the client database does). The meta column holds `LAST_PRUNED`, the journal record of each
block in the window and `LAST_CANONICAL`, which the non-canonical overlay writes in the same commit; they are kept
typed here, in place of their SCALE bytes. Reads of the database do not fail, and an index out of range or an
underflow of `block - base` is `none`, where the source panics.
-/

namespace CoreChain.StateDb.Pruning

/-- `DeathRow`: the keys to delete when the block is pruned (a `HashSet`, kept duplicate-free). -/
structure DeathRow (H K : Type) where
  hash : H
  deleted : List K
  deriving DecidableEq, Repr

/-- `JournalRecord`. -/
structure JournalRecord (H K : Type) where
  hash : H
  inserted : List K
  deleted : List K
  deriving DecidableEq, Repr

/-- The death row of a journal record: its deleted keys collected into a set. -/
def JournalRecord.toDeathRow {H K : Type} [DecidableEq K] (record : JournalRecord H K) : DeathRow H K :=
  ⟨record.hash, record.deleted.dedup⟩

@[simp] theorem JournalRecord.toDeathRow_hash {H K : Type} [DecidableEq K] (record : JournalRecord H K) :
    record.toDeathRow.hash = record.hash := rfl

/-- The meta keys the window deletes: `LAST_PRUNED`, and `to_journal_key(block)`. -/
inductive MetaKey where
  | lastPruned
  | journal (block : Nat)
  deriving DecidableEq, Repr

/-- A write to the meta column, key and value: those of the window, and `LAST_CANONICAL`, which the overlay writes
into the same commit. -/
inductive MetaWrite (H K : Type) where
  | lastPruned (number : Nat)
  | journal (block : Nat) (record : JournalRecord H K)
  | lastCanonical (hash : H) (number : Nat)
  deriving DecidableEq, Repr

/-- `CommitSet`, with the meta writes above. -/
structure CommitSet (H K : Type) where
  data : ChangeSet K
  metaInserted : List (MetaWrite H K)
  metaDeleted : List MetaKey
  deriving DecidableEq, Repr

/-- The errors of `StateDbError` the window returns. -/
inductive PruningError where
  | invalidBlockNumber
  | blockUnavailable
  deriving DecidableEq, Repr

/-- `HaveBlock`. -/
inductive HaveBlock where
  | no
  | maybe
  | yes
  deriving DecidableEq, Repr

/-- `From<bool> for HaveBlock`. -/
def HaveBlock.ofBool (b : Bool) : HaveBlock :=
  if b then .yes else .no

/-- `DEFAULT_MAX_BLOCK_CONSTRAINT`. -/
def defaultMaxBlockConstraint : Nat := 256

/-! ## The database -/

/-- The meta column as the window reads and writes it: `LAST_PRUNED`, `LAST_CANONICAL` and the journal of the
window. -/
structure MetaDb (H K : Type) where
  lastPruned : Option Nat
  lastCanonical : Option (H × Nat)
  journal : AList (fun _ : Nat => JournalRecord H K)

/-- The database: the state column, and the meta column. -/
structure Db (H K : Type) where
  state : K → Option (List UInt8)
  stateMeta : MetaDb H K

namespace MetaDb

variable {H K : Type}

/-- One meta write. -/
def setMeta (m : MetaDb H K) : MetaWrite H K → MetaDb H K
  | .lastPruned number => { m with lastPruned := some number }
  | .journal block record => { m with journal := m.journal.insert block record }
  | .lastCanonical hash number => { m with lastCanonical := some (hash, number) }

/-- One meta delete. -/
def removeMeta (m : MetaDb H K) : MetaKey → MetaDb H K
  | .lastPruned => { m with lastPruned := none }
  | .journal block => { m with journal := m.journal.erase block }

/-- The meta changes of a commit: its inserts, then its deletes. -/
def apply (m : MetaDb H K) (commit : CommitSet H K) : MetaDb H K :=
  commit.metaDeleted.foldl removeMeta (commit.metaInserted.foldl setMeta m)

end MetaDb

namespace Db

variable {H K : Type} [DecidableEq K]

/-- The state column after a changeset: its inserts, then its deletes. -/
def applyData (state : K → Option (List UInt8)) (data : ChangeSet K) : K → Option (List UInt8) :=
  data.deleted.foldl (fun state k => Function.update state k none)
    (data.inserted.foldl (fun state kv => Function.update state kv.1 (some kv.2)) state)

/-- `apply_state_commit` of the client database: the state changes, then the meta inserts, then the meta
deletes. -/
def apply (db : Db H K) (commit : CommitSet H K) : Db H K :=
  ⟨applyData db.state commit.data, db.stateMeta.apply commit⟩

end Db

variable {H K : Type} [DecidableEq K]

/-- `load_death_row_from_db`. -/
def loadDeathRowFromDb (db : Db H K) (block : Nat) : Option (DeathRow H K) :=
  (db.stateMeta.journal.lookup block).map JournalRecord.toDeathRow

/-- The loop of `load_batch_from_db`: up to `n` rows from `block` on, up to the first block without a record. -/
def loadRows (db : Db H K) : Nat → Nat → List (DeathRow H K)
  | 0, _ => []
  | n + 1, block =>
    match loadDeathRowFromDb db block with
    | none => []
    | some row => row :: loadRows db n (block + 1)

/-- `load_batch_from_db`. -/
def loadBatchFromDb (db : Db H K) (cache : List (DeathRow H K)) (base cacheCapacity : Nat) : List (DeathRow H K) :=
  cache ++ loadRows db cacheCapacity (base + cache.length)

/-! ## The queue of death rows -/

/-- `DeathRowQueue`. The database of `DbBacked` is the one the calls read, passed to them. -/
inductive DeathRowQueue (H K : Type) [DecidableEq K] where
  | mem (deathRows : List (DeathRow H K)) (deathIndex : AList (fun _ : K => Nat))
  | dbBacked (cache : List (DeathRow H K)) (cacheCapacity : Nat) (last : Option Nat)

namespace DeathRowQueue

/-- One re-inserted key in `import`: it leaves the index, and the row the index names. -/
def removeReinserted (base : Nat) (acc : List (DeathRow H K) × AList (fun _ : K => Nat)) (k : K) :
    Option (List (DeathRow H K) × AList (fun _ : K => Nat)) :=
  match acc.2.lookup k with
  | none => some acc
  | some block =>
    -- `death_rows[(block - base) as usize]` panics below `base` and past the end
    if block < base then none
    else acc.1[block - base]?.map fun row =>
      (acc.1.set (block - base) { row with deleted := row.deleted.erase k }, acc.2.erase k)

/-- `import`: a new block at the back of the queue. -/
def «import» (q : DeathRowQueue H K) (base num : Nat) (record : JournalRecord H K) : Option (DeathRowQueue H K) :=
  match q with
  | .dbBacked cache cacheCapacity _ =>
    let cache :=
      if num = base + cache.length ∧ cache.length < cacheCapacity then cache ++ [record.toDeathRow] else cache
    some (.dbBacked cache cacheCapacity (some num))
  | .mem deathRows deathIndex => do
    let (deathRows, deathIndex) ← record.inserted.foldlM (removeReinserted base) (deathRows, deathIndex)
    let importedBlock := base + deathRows.length
    let deathIndex := record.deleted.foldl (fun index k => index.insert k importedBlock) deathIndex
    pure (.mem (deathRows ++ [record.toDeathRow]) deathIndex)

/-- `pop_front`: the row of block `base`, if the window has one. -/
def popFront (q : DeathRowQueue H K) (db : Db H K) (base : Nat) : DeathRowQueue H K × Option (DeathRow H K) :=
  match q with
  | .dbBacked cache cacheCapacity last =>
    let cache := if cache.isEmpty then loadBatchFromDb db cache base cacheCapacity else cache
    match cache with
    | [] => (.dbBacked [] cacheCapacity last, none)
    | row :: cache => (.dbBacked cache cacheCapacity last, some row)
  | .mem deathRows deathIndex =>
    match deathRows with
    | [] => (.mem [] deathIndex, none)
    | row :: deathRows => (.mem deathRows (row.deleted.foldl (fun index k => index.erase k) deathIndex), some row)

/-- `have_block` of the block at `index` in the queue; `none` past the end of `Mem`, where the source panics. -/
def haveBlock [DecidableEq H] (q : DeathRowQueue H K) (hash : H) (index : Nat) : Option HaveBlock :=
  match q with
  | .dbBacked cache _ _ =>
    match cache[index]? with
    | some row => some (.ofBool (row.hash = hash))
    -- the block is not in the cache but it still may exist on disk
    | none => some .maybe
  | .mem deathRows _ => deathRows[index]?.map fun row => .ofBool (row.hash = hash)

/-- `len`: the number of blocks in the window. -/
def len (q : DeathRowQueue H K) (base : Nat) : Nat :=
  match q with
  | .dbBacked _ _ last => last.elim 0 fun l => l + 1 - base
  | .mem deathRows _ => deathRows.length

/-- The loop of `new_mem`: the journal records from `block` on, imported one after another up to the first block
without one. Each record read is one of the journal's, so one more step than it has records is enough `fuel`. -/
def newMemLoop (db : Db H K) (base : Nat) : Nat → Nat → DeathRowQueue H K → Option (DeathRowQueue H K)
  | 0, _, q => some q
  | fuel + 1, block, q =>
    match db.stateMeta.journal.lookup block with
    | none => some q
    | some record => (q.import base block record).bind (newMemLoop db base fuel (block + 1))

/-- `new_mem`. -/
def newMem (db : Db H K) (base : Nat) : Option (DeathRowQueue H K) :=
  newMemLoop db base (db.stateMeta.journal.entries.length + 1) base (.mem [] ∅)

/-- `new_db_backed`: the cache holds from one to `DEFAULT_MAX_BLOCK_CONSTRAINT` rows. -/
def newDbBacked (db : Db H K) (base : Nat) (last : Option Nat) (windowSize : Nat) : DeathRowQueue H K :=
  let cacheCapacity := max 1 (min windowSize defaultMaxBlockConstraint)
  .dbBacked (loadBatchFromDb db [] base cacheCapacity) cacheCapacity last

end DeathRowQueue

/-! ## The window -/

/-- `RefWindow`: the queue, and the number of the next block to prune. -/
structure RefWindow (H K : Type) [DecidableEq K] where
  queue : DeathRowQueue H K
  base : Nat

namespace RefWindow

/-- `RefWindow::new`: the window the database's journal describes; `none` where a record's import panics. -/
def new (db : Db H K) (windowSize : Nat) (countInsertions : Bool) : Option (RefWindow H K) :=
  let base := (db.stateMeta.lastPruned.map (· + 1)).getD 0
  let lastCanonicalizedNumber := db.stateMeta.lastCanonical.map (·.2)
  if countInsertions then (DeathRowQueue.newMem db base).map fun queue => ⟨queue, base⟩
  else some ⟨DeathRowQueue.newDbBacked db base lastCanonicalizedNumber windowSize, base⟩

/-- `window_size`. -/
def windowSize (w : RefWindow H K) : Nat :=
  w.queue.len w.base

/-- `is_empty`. -/
def isEmpty (w : RefWindow H K) : Bool :=
  w.windowSize = 0

/-- `next_hash`: the hash of the next block to prune; the database-backed queue loads its cache first. -/
def nextHash (w : RefWindow H K) (db : Db H K) : RefWindow H K × Option H :=
  match w.queue with
  | .dbBacked cache cacheCapacity last =>
    let cache := if cache.isEmpty then loadBatchFromDb db cache w.base cacheCapacity else cache
    ({ w with queue := .dbBacked cache cacheCapacity last }, cache.head?.map (·.hash))
  | .mem deathRows _ => (w, deathRows.head?.map (·.hash))

/-- `have_block`: whether the block of `number` in the window is `hash`. -/
def haveBlock [DecidableEq H] (w : RefWindow H K) (hash : H) (number : Nat) : Option HaveBlock :=
  if w.isEmpty ∨ number < w.base ∨ number ≥ w.base + w.windowSize then some .no
  else w.queue.haveBlock hash (number - w.base)

/-- `prune_one`: the row of block `base` goes into the commit's deletions, with the journal record of the block;
the window is left with the queue `pop_front` leaves where there is none. -/
def pruneOne (w : RefWindow H K) (db : Db H K) (commit : CommitSet H K) :
    RefWindow H K × Except PruningError (CommitSet H K) :=
  match w.queue.popFront db w.base with
  | (queue, some pruned) =>
    ({ queue, base := w.base + 1 },
      .ok { commit with
        data := { commit.data with deleted := commit.data.deleted ++ pruned.deleted }
        metaInserted := commit.metaInserted ++ [.lastPruned w.base]
        metaDeleted := commit.metaDeleted ++ [.journal w.base] })
  | (queue, none) => ({ w with queue }, .error .blockUnavailable)

/-- The end of `note_canonical`: the journal record of the block, with the keys the commit inserts where the queue
counts insertions and the keys it deletes, taken out of the commit; the record is written and imported. -/
def noteRecord (w : RefWindow H K) (hash : H) (number : Nat) (commit : CommitSet H K) :
    Option (RefWindow H K × CommitSet H K) :=
  let inserted :=
    match w.queue with
    | .mem _ _ => commit.data.inserted.map (·.1)
    | .dbBacked _ _ _ => []
  let record : JournalRecord H K := ⟨hash, inserted, commit.data.deleted⟩
  let commit :=
    { commit with
      data := { commit.data with deleted := [] }
      metaInserted := commit.metaInserted ++ [.journal number record] }
  (w.queue.import w.base number record).map fun queue => ({ w with queue }, commit)

/-- `note_canonical`: block `number` joins the window. A first block after an empty window at `0` is the target of
a warp sync, whose parent counts as pruned. -/
def noteCanonical (w : RefWindow H K) (hash : H) (number : Nat) (commit : CommitSet H K) :
    Option (Except PruningError (RefWindow H K × CommitSet H K)) :=
  if w.base = 0 ∧ w.isEmpty ∧ 0 < number then
    (noteRecord { w with base := number } hash number
      { commit with metaInserted := commit.metaInserted ++ [.lastPruned (number - 1)] }).map .ok
  else if w.base + w.windowSize ≠ number then some (.error .invalidBlockNumber)
  else (noteRecord w hash number commit).map .ok

/-! ## Pruning under a constraint -/

/-- The loop of `StateDbSync::prune` in `Constrained` mode, given the window, `max_blocks` and pins: blocks are pruned
from the front while the window exceeds `maxBlocks` and its next block is unpinned. Each step prunes a block, so the
window's size is enough `fuel`; errors of `next_hash` and `prune_one` end the loop. -/
def pruneLoop [DecidableEq H] (db : Db H K) (maxBlocks : Nat) (pinned : List H) :
    Nat → RefWindow H K → CommitSet H K → RefWindow H K × CommitSet H K
  | 0, w, commit => (w, commit)
  | fuel + 1, w, commit =>
    if w.windowSize ≤ maxBlocks then (w, commit)
    else
      match w.nextHash db with
      | (w, next) =>
        if (next.map pinned.contains).getD false then (w, commit)
        else
          match w.pruneOne db commit with
          | (w, .ok commit) => pruneLoop db maxBlocks pinned fuel w commit
          | (w, .error _) => (w, commit)

/-- `StateDbSync::prune`: `max_blocks` of `None` keeps no block. -/
def prune [DecidableEq H] (w : RefWindow H K) (db : Db H K) (maxBlocks : Option Nat) (pinned : List H)
    (commit : CommitSet H K) : RefWindow H K × CommitSet H K :=
  pruneLoop db (maxBlocks.getD 0) pinned w.windowSize w commit

/-- The window's part of `StateDbSync::canonicalize_block` in `Constrained` mode, after the overlay has
canonicalized block `hash` of `number` and written `commit`: the block is noted in the window, which is then
pruned. -/
def canonicalizeBlock [DecidableEq H] (w : RefWindow H K) (db : Db H K) (maxBlocks : Option Nat) (pinned : List H)
    (hash : H) (number : Nat) (commit : CommitSet H K) :
    Option (Except PruningError (RefWindow H K × CommitSet H K)) :=
  (w.noteCanonical hash number commit).map fun r => r.map fun (w, commit) => w.prune db maxBlocks pinned commit

end RefWindow

/-! ## Canonicalizations on the window and the database -/

/-- A canonicalization passed to the window: the block, the changeset the overlay wrote for it, and the blocks
pinned at the time. -/
structure Canonicalization (H K : Type) where
  hash : H
  number : Nat
  changeset : ChangeSet K
  pinned : List H

/-- The commit the overlay hands on for a canonicalized block: its changeset, and `LAST_CANONICAL`. -/
def Canonicalization.commit (c : Canonicalization H K) : CommitSet H K :=
  ⟨c.changeset, [.lastCanonical c.hash c.number], []⟩

/-- One canonicalization, with the commit the window returns applied to the database. A call that fails returns no
commit and leaves the window as it was; one that panics is taken to change nothing. -/
def canonicalizeStep [DecidableEq H] (maxBlocks : Option Nat) (s : RefWindow H K × Db H K) (c : Canonicalization H K) :
    RefWindow H K × Db H K :=
  match s.1.canonicalizeBlock s.2 maxBlocks c.pinned c.hash c.number c.commit with
  | some (.ok (w, commit)) => (w, s.2.apply commit)
  | _ => s

end CoreChain.StateDb.Pruning

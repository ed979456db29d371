import Mathlib

/-!
# The non-canonical overlay of the state database

The model of `substrate/client/state-db/src/noncanonical.rs`. Blocks not yet canonicalized are kept in levels, one
level per block number from the one after the last canonicalized block; each block records the keys it inserted,
whose values are kept in a reference-counted map, and its parent in `parents`. Canonicalizing a block of the front
level discards its siblings with their descendants, except those that are pinned, which wait in
`pinned_insertions` with a count of the pins below them.

The meta column is keyed by `MetaKey` and written as `MetaValue`, in place of their SCALE bytes. The panics of the
source (its `expect`s) are `none`.
-/

namespace CoreChain.StateDb

/-- `MAX_BLOCKS_PER_LEVEL`. -/
def maxBlocksPerLevel : Nat := 32

/-- `ChangeSet`. -/
structure ChangeSet (K : Type) where
  inserted : List (K × List UInt8)
  deleted : List K
  deriving DecidableEq, Repr

/-- The keys of the meta column the overlay writes: `LAST_CANONICAL`, and `to_journal_key(block, index)`. -/
inductive MetaKey where
  | lastCanonical
  | journal (block index : Nat)
  deriving DecidableEq, Repr

/-- `JournalRecord`. -/
structure JournalRecord (H K : Type) where
  hash : H
  parentHash : H
  inserted : List (K × List UInt8)
  deleted : List K
  deriving DecidableEq, Repr

/-- What the overlay writes under a meta key. -/
inductive MetaValue (H K : Type) where
  | lastCanonical (hash : H) (number : Nat)
  | journal (record : JournalRecord H K)
  deriving DecidableEq, Repr

/-- `CommitSet`, with its meta changes as keys and values. -/
structure CommitSet (H K : Type) where
  data : ChangeSet K
  metaInserted : List (MetaKey × MetaValue H K)
  metaDeleted : List MetaKey
  deriving DecidableEq, Repr

/-- `CommitSet::default`. -/
def CommitSet.empty {H K : Type} : CommitSet H K :=
  ⟨⟨[], []⟩, [], []⟩

/-- The errors of `StateDbError` the overlay returns. -/
inductive StateDbError where
  | invalidBlock
  | invalidBlockNumber
  | invalidParent
  | tooManySiblingBlocks (number : Nat)
  | blockAlreadyExists
  deriving DecidableEq, Repr

/-- `BlockOverlay`. -/
structure BlockOverlay (H K : Type) where
  hash : H
  journalIndex : Nat
  journalKey : MetaKey
  inserted : List K
  deleted : List K
  deriving DecidableEq, Repr

/-- The bits of a `u64`. -/
def u64Max : Nat := 2 ^ 64 - 1

/-- `trailing_ones` of the low `bits` bits. -/
def trailingOnes : Nat → Nat → Nat
  | 0, _ => 0
  | bits + 1, n => if n % 2 = 1 then trailingOnes bits (n / 2) + 1 else 0

/-- `OverlayLevel`: the blocks of one number, and the bitmask of the journal indices they use. -/
structure OverlayLevel (H K : Type) where
  blocks : List (BlockOverlay H K)
  usedIndices : Nat
  deriving DecidableEq, Repr

namespace OverlayLevel

variable {H K : Type}

/-- `OverlayLevel::new`. -/
def new : OverlayLevel H K :=
  ⟨[], 0⟩

/-- `OverlayLevel::push`. -/
def push (level : OverlayLevel H K) (overlay : BlockOverlay H K) : OverlayLevel H K :=
  ⟨level.blocks ++ [overlay], level.usedIndices ||| 1 <<< overlay.journalIndex⟩

/-- `OverlayLevel::available_index`: the lowest unused index. -/
def availableIndex (level : OverlayLevel H K) : Nat :=
  trailingOnes 64 level.usedIndices

/-- `OverlayLevel::remove`: the block at `index` and the level without it; `none` past the end, where the source
panics. -/
def remove (level : OverlayLevel H K) (index : Nat) : Option (BlockOverlay H K × OverlayLevel H K) :=
  level.blocks[index]?.map fun overlay =>
    (overlay, ⟨level.blocks.eraseIdx index, level.usedIndices &&& (u64Max ^^^ 1 <<< overlay.journalIndex)⟩)

end OverlayLevel

/-- `NonCanonicalOverlay`. -/
structure NonCanonicalOverlay (H K : Type) [DecidableEq H] [DecidableEq K] where
  lastCanonicalized : Option (H × Nat)
  levels : List (OverlayLevel H K)
  parents : AList (fun _ : H => H)
  values : AList (fun _ : K => Nat × List UInt8)
  pinned : AList (fun _ : H => Nat)
  pinnedInsertions : AList (fun _ : H => List K × Nat)
  pinnedCanonincalized : List H

variable {H K : Type} [DecidableEq H] [DecidableEq K]

/-! ## The reference-counted values -/

/-- `insert_values`. -/
def insertValues (values : AList (fun _ : K => Nat × List UInt8)) (inserted : List (K × List UInt8)) :
    AList (fun _ : K => Nat × List UInt8) :=
  inserted.foldl (fun values kv =>
    let entry := (values.lookup kv.1).getD (0, kv.2)
    values.insert kv.1 (entry.1 + 1, entry.2)) values

/-- `discard_values`: a key whose count drops to zero is removed; a missing key is left alone. -/
def discardValues (values : AList (fun _ : K => Nat × List UInt8)) (inserted : List K) :
    AList (fun _ : K => Nat × List UInt8) :=
  inserted.foldl (fun values k =>
    match values.lookup k with
    | some (counter, v) => if counter - 1 = 0 then values.erase k else values.insert k (counter - 1, v)
    -- `debug_assert!(false, "Trying to discard missing value")`
    | none => values) values

/-! ## Discarding descendants -/

/-- The `position` of the first block whose parent is `hash`; `none` where a block has no parent entry, at the
`expect` of the source. -/
def findChild (parents : AList (fun _ : H => H)) (hash : H) : List (BlockOverlay H K) → Option (Option Nat)
  | [] => some none
  | overlay :: overlays =>
    match parents.lookup overlay.hash with
    | none => none
    | some parent => if parent = hash then some (some 0) else (findChild parents hash overlays).map (·.map (· + 1))

/-- `discard_descendants` of `hash` from the `levels` below it: each child on the first level is removed, its own
descendants first, and kept in `pinned_insertions` with the pins in its subtree, or discarded; the number of pins comes
back. The levels are passed apart from the overlay. Each call that finds a child removes it, so one more step than there
are blocks is enough `fuel`. -/
def discardDescendants : Nat → List (OverlayLevel H K) → NonCanonicalOverlay H K → H →
    Option (List (OverlayLevel H K) × NonCanonicalOverlay H K × Nat)
  | 0, levels, o, _ => some (levels, o, 0)
  | _ + 1, [], o, _ => some ([], o, 0)
  | fuel + 1, level :: rest, o, hash =>
    match findChild o.parents hash level.blocks with
    | none => none
    | some none => some (level :: rest, o, 0)
    | some (some i) =>
      match level.remove i with
      | none => none
      | some (overlay, level) =>
        match discardDescendants fuel rest o overlay.hash with
        | none => none
        | some (rest, o, numPinned) =>
          let numPinned := if (o.pinned.lookup overlay.hash).isSome then numPinned + 1 else numPinned
          let o :=
            if numPinned ≠ 0 then
              -- save to be discarded later
              { o with pinnedInsertions := o.pinnedInsertions.insert overlay.hash (overlay.inserted, numPinned) }
            else { o with parents := o.parents.erase overlay.hash, values := discardValues o.values overlay.inserted }
          -- the `while` goes on with the rest of the level
          (discardDescendants fuel (level :: rest) o hash).map fun r => (r.1, r.2.1, numPinned + r.2.2)

/-- `discard_journals`: the journal keys of the descendants of `hash` in `levels`, each block's before those of its
descendants. -/
def discardJournals (parents : AList (fun _ : H => H)) : List (OverlayLevel H K) → H → Option (List MetaKey)
  | [], _ => some []
  | level :: rest, hash =>
    level.blocks.foldlM (fun acc overlay =>
      match parents.lookup overlay.hash with
      | none => none
      | some parent =>
        if parent = hash then (discardJournals parents rest overlay.hash).map fun js => acc ++ overlay.journalKey :: js
        else some acc) []

/-- The number of blocks in the levels. -/
def blockCount (levels : List (OverlayLevel H K)) : Nat :=
  (levels.map (·.blocks.length)).sum

namespace NonCanonicalOverlay

/-- The overlay of an empty database. -/
def empty : NonCanonicalOverlay H K :=
  ⟨none, [], ∅, ∅, ∅, ∅, []⟩

/-- `front_block_number`. -/
def frontBlockNumber (o : NonCanonicalOverlay H K) : Nat :=
  (o.lastCanonicalized.map (·.2 + 1)).getD 0

/-- `get`. -/
def get (o : NonCanonicalOverlay H K) (key : K) : Option (List UInt8) :=
  (o.values.lookup key).map (·.2)

/-- `have_block`. -/
def haveBlock (o : NonCanonicalOverlay H K) (hash : H) : Bool :=
  (o.parents.lookup hash).isSome

/-! ## Inserting -/

/-- The checks of `insert` on the number and the parent, with the last canonicalized block it assumes for the first
block: the overlay after them and the meta it writes. -/
def insertChecks (o : NonCanonicalOverlay H K) (number : Nat) (parentHash : H) :
    Except StateDbError (NonCanonicalOverlay H K × List (MetaKey × MetaValue H K)) :=
  let frontBlockNumber := o.frontBlockNumber
  if o.levels.isEmpty ∧ o.lastCanonicalized.isNone ∧ number > 0 then
    -- assume that parent was canonicalized
    .ok ({ o with lastCanonicalized := some (parentHash, number - 1) },
      [(.lastCanonical, .lastCanonical parentHash (number - 1))])
  else if o.lastCanonicalized.isSome then
    if number < frontBlockNumber ∨ number > frontBlockNumber + o.levels.length then .error .invalidBlockNumber
    -- a block of the front level is a child of the last canonicalized block
    else if number = frontBlockNumber then
      if (o.lastCanonicalized.map fun c => decide (c.1 = parentHash ∧ c.2 = number - 1)).getD false then .ok (o, [])
      else .error .invalidParent
    -- above it, a block whose parent the overlay has
    else if (o.parents.lookup parentHash).isSome then .ok (o, [])
    else .error .invalidParent
  else .ok (o, [])

/-- `insert`: every error returns before the first write; `none` where the level's `expect` panics. -/
def insert (o : NonCanonicalOverlay H K) (hash : H) (number : Nat) (parentHash : H) (changeset : ChangeSet K) :
    Option (Except StateDbError (NonCanonicalOverlay H K × CommitSet H K)) :=
  let frontBlockNumber := o.frontBlockNumber
  match insertChecks o number parentHash with
  | .error e => some (.error e)
  | .ok (o, metaInserted) =>
    let isNew := o.levels.isEmpty || number == frontBlockNumber + o.levels.length
    let levels := if isNew then o.levels ++ [OverlayLevel.new] else o.levels
    let levelIndex := if isNew then o.levels.length else number - frontBlockNumber
    match levels[levelIndex]? with
    -- `expect("number is [front_block_number .. front_block_number + levels.len()) ...")`
    | none => none
    | some level =>
      if level.blocks.length ≥ maxBlocksPerLevel then some (.error (.tooManySiblingBlocks number))
      else if level.blocks.any (·.hash = hash) then some (.error .blockAlreadyExists)
      else
        let index := level.availableIndex
        let journalKey := MetaKey.journal number index
        let overlay : BlockOverlay H K := ⟨hash, index, journalKey, changeset.inserted.map (·.1), changeset.deleted⟩
        let journalRecord : JournalRecord H K := ⟨hash, parentHash, changeset.inserted, changeset.deleted⟩
        some (.ok
          ({ o with
              levels := levels.set levelIndex (level.push overlay)
              parents := o.parents.insert hash parentHash
              values := insertValues o.values changeset.inserted },
            { (CommitSet.empty : CommitSet H K) with metaInserted := metaInserted ++ [(journalKey, .journal journalRecord)] }))

/-! ## Pinning -/

/-- `pin`. -/
def pin (o : NonCanonicalOverlay H K) (hash : H) : NonCanonicalOverlay H K :=
  { o with pinned := o.pinned.insert hash ((o.pinned.lookup hash).getD 0 + 1) }

/-- The walk of `unpin` up the parents: each block kept in `pinned_insertions` loses a pin, and one left with none is
discarded; it stops at the first block not kept. Each step takes a pin off, so one more step than there are pins is
enough `fuel`. -/
def unpinWalk : Nat → Option H → NonCanonicalOverlay H K → NonCanonicalOverlay H K
  | 0, _, o => o
  | _ + 1, none, o => o
  | fuel + 1, some hash, o =>
    let parent := o.parents.lookup hash
    match o.pinnedInsertions.lookup hash with
    | none => o
    | some (inserted, count) =>
      if count - 1 = 0 then
        unpinWalk fuel parent
          { o with
            pinnedInsertions := o.pinnedInsertions.erase hash
            values := discardValues o.values inserted
            parents := o.parents.erase hash }
      else unpinWalk fuel parent { o with pinnedInsertions := o.pinnedInsertions.insert hash (inserted, count - 1) }

/-- The pins kept in `pinned_insertions`. -/
def pinCount (o : NonCanonicalOverlay H K) : Nat :=
  (o.pinnedInsertions.entries.map (·.2.2)).sum

/-- `unpin`: the walk starts where the last pin of a block is taken off. -/
def unpin (o : NonCanonicalOverlay H K) (hash : H) : NonCanonicalOverlay H K :=
  match o.pinned.lookup hash with
  | some refs =>
    if refs - 1 = 0 then unpinWalk (o.pinCount + 1) (some hash) { o with pinned := o.pinned.erase hash }
    else { o with pinned := o.pinned.insert hash (refs - 1) }
  | none => o

/-- `sync`: the pins of the blocks canonicalized since the last sync are taken off. -/
def sync (o : NonCanonicalOverlay H K) : NonCanonicalOverlay H K :=
  { o.pinnedCanonincalized.foldl unpin o with pinnedCanonincalized := [] }

/-! ## Canonicalizing -/

/-- One block of the front level in `canonicalize`, at position `i`: the canonical one gives its changes to the
commit, any other is discarded with its descendants; either is kept in `pinned_insertions` if pins remain in its
subtree. -/
def canonicalizeStep (index : Nat) (acc : NonCanonicalOverlay H K × CommitSet H K × List MetaKey)
    (overlay : BlockOverlay H K) (i : Nat) : Option (NonCanonicalOverlay H K × CommitSet H K × List MetaKey) := do
  let (o, commit, discardedJournals) := acc
  let (o, commit, discardedJournals, pinnedChildren) ←
    if i = index then do
      -- `expect("For each key in overlays there's a value in values")`
      let inserted ← overlay.inserted.mapM fun k => (o.values.lookup k).map fun v => (k, v.2)
      pure (o, { commit with data := ⟨commit.data.inserted ++ inserted, commit.data.deleted ++ overlay.deleted⟩ },
        discardedJournals, 0)
    else do
      let js ← discardJournals o.parents o.levels overlay.hash
      let (levels, o, pinnedChildren) ←
        discardDescendants (blockCount o.levels + 1) o.levels o overlay.hash
      pure ({ o with levels := levels }, commit, discardedJournals ++ js, pinnedChildren)
  let pinnedChildren := if (o.pinned.lookup overlay.hash).isSome then pinnedChildren + 1 else pinnedChildren
  let o :=
    if pinnedChildren ≠ 0 then
      { o with pinnedInsertions := o.pinnedInsertions.insert overlay.hash (overlay.inserted, pinnedChildren) }
    else { o with parents := o.parents.erase overlay.hash, values := discardValues o.values overlay.inserted }
  pure (o, commit, discardedJournals ++ [overlay.journalKey])

/-- `canonicalize`: the overlay after it, the commit with its changes, and the number of the block. The front level
is taken off before the block is looked up in it, and stays off when it is not there. -/
def canonicalize (o : NonCanonicalOverlay H K) (hash : H) (commit : CommitSet H K) :
    Option (NonCanonicalOverlay H K × CommitSet H K × Except StateDbError Nat) :=
  match o.levels with
  | [] => some (o, commit, .error .invalidBlock)
  | level :: levels =>
    let o := { o with levels := levels }
    match level.blocks.findIdx? (·.hash = hash) with
    | none => some (o, commit, .error .invalidBlock)
    | some index => do
      -- force pin the canonicalized block, so that it is not discarded before the commit is on disk
      let o := { o.pin hash with pinnedCanonincalized := o.pinnedCanonincalized ++ [hash] }
      let (o, commit, discardedJournals) ←
        (level.blocks.zipIdx).foldlM (fun acc p => canonicalizeStep index acc p.1 p.2) (o, commit, [])
      let canonicalized := (hash, o.frontBlockNumber)
      pure ({ o with lastCanonicalized := some canonicalized },
        { commit with
          metaDeleted := commit.metaDeleted ++ discardedJournals
          metaInserted := commit.metaInserted ++ [(.lastCanonical, .lastCanonical canonicalized.1 canonicalized.2)] },
        .ok canonicalized.2)

/-! ## Reverting -/

/-- `revert_one`: the last level is dropped. -/
def revertOne (o : NonCanonicalOverlay H K) : Option (NonCanonicalOverlay H K × CommitSet H K) :=
  match o.levels.getLast? with
  | none => none
  | some level =>
    some (level.blocks.foldl (fun acc overlay =>
        ({ acc.1 with
            parents := acc.1.parents.erase overlay.hash
            values := discardValues acc.1.values overlay.inserted },
          { acc.2 with metaDeleted := acc.2.metaDeleted ++ [overlay.journalKey] }))
      ({ o with levels := o.levels.dropLast }, CommitSet.empty))

/-- The last level, by index, that holds a block `hash`, with its position there. -/
def findLast (hash : H) : List (OverlayLevel H K) → Option (Nat × Nat)
  | [] => none
  | level :: levels =>
    match findLast hash levels with
    | some (levelIndex, index) => some (levelIndex + 1, index)
    | none => (level.blocks.findIdx? (·.hash = hash)).map fun index => (0, index)

/-- `remove`: a block without children is dropped, and an empty last level with it. -/
def remove (o : NonCanonicalOverlay H K) (hash : H) : Option (NonCanonicalOverlay H K × CommitSet H K) :=
  let levelCount := o.levels.length
  let removed : Option (Option (NonCanonicalOverlay H K × List MetaKey)) :=
    match findLast hash o.levels with
    | none => some none
    | some (levelIndex, index) =>
      -- check that it does not have any children
      if levelIndex ≠ levelCount - 1 ∧ o.parents.entries.any (·.2 = hash) then none
      else match o.levels[levelIndex]? >>= (·.remove index) with
        | none => some none
        | some (overlay, level) =>
          some (some ({ o with
              levels := o.levels.set levelIndex level
              parents := o.parents.erase overlay.hash
              values := discardValues o.values overlay.inserted }, [overlay.journalKey]))
  match removed with
  | none => none
  | some r =>
    let o := (r.map (·.1)).getD o
    let o := if (o.levels.getLast?.map (·.blocks.isEmpty)).getD false then { o with levels := o.levels.dropLast } else o
    match r with
    | some (_, deleted) => some (o, { (CommitSet.empty : CommitSet H K) with metaDeleted := deleted })
    | none => none

/-! ## Runs

The calls on the overlay one after another: a call that returns an error keeps what it changed before it, and a
panic ends the run. -/

/-- A call on the overlay. -/
inductive Call (H K : Type) where
  | insert (hash : H) (number : Nat) (parentHash : H) (changeset : ChangeSet K)
  | canonicalize (hash : H)
  | revertOne
  | remove (hash : H)
  | pin (hash : H)
  | unpin (hash : H)
  | sync
  deriving DecidableEq, Repr

/-- One call: `none` where the source panics. -/
def Call.apply (o : NonCanonicalOverlay H K) : Call H K → Option (NonCanonicalOverlay H K)
  | .insert hash number parentHash changeset =>
    (o.insert hash number parentHash changeset).map fun r =>
      match r with
      | .ok r => r.1
      | .error _ => o
  | .canonicalize hash => (o.canonicalize hash CommitSet.empty).map (·.1)
  | .revertOne => some ((o.revertOne.map (·.1)).getD o)
  | .remove hash => some (((o.remove hash).map (·.1)).getD o)
  | .pin hash => some (o.pin hash)
  | .unpin hash => some (o.unpin hash)
  | .sync => some o.sync

/-- The calls one after another. -/
def run : NonCanonicalOverlay H K → List (Call H K) → Option (NonCanonicalOverlay H K)
  | o, [] => some o
  | o, call :: calls => (call.apply o).bind fun o => run o calls

end NonCanonicalOverlay

end CoreChain.StateDb

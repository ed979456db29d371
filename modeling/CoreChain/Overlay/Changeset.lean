import CoreChain.Lib.Compact
import CoreChain.Overlay.Map

/-!
# The storage changeset

The model of `OverlayedChangeSet` (`OverlayedMap<StorageKey, StorageEntry>`) in
`substrate/primitives/state-machine/src/overlayed_changes/changeset.rs`, with `StorageAppend` of `ext.rs`.

A version is set, removed, or appended to. An `Append` keeps the bytes of a SCALE list whose length prefix is
written lazily: `materializedLength` is the length the bytes start with (`none`: no prefix yet), `currentLength`
the number of elements. The first append of a transaction to an `Append` takes the parent's buffer instead of
copying it, and records the parent's size in `parentSize`; a rollback, an overwrite by `set` and a commit that
drops the parent hand the buffer back, cut to that size (`restoreAppendToParent`).

The length codec of `parity-scale-codec` is the parameter `c`. Lengths are `u32` and wrap, as in a release build.
-/

namespace CoreChain.Overlay

/-- `StorageEntry`. -/
inductive StorageEntry where
  | set (value : List UInt8)
  | remove
  | append (data : List UInt8) (currentLength : UInt32) (materializedLength : Option UInt32)
      (parentSize : Option Nat)
  deriving DecidableEq, Repr

variable (c : CompactCodec)

/-- `Compact::<u32>::compact_len`. -/
def compactLen (l : UInt32) : Nat :=
  (c.encode l).length

/-- The bytes of the length prefix `materializedLength` says the data starts with. -/
def lengthPrefix : Option UInt32 → List UInt8
  | some l => c.encode l
  | none => []

/-- `StorageAppend::extract_length`. -/
def extractLength (data : List UInt8) : Option UInt32 :=
  (c.decode data).map Prod.fst

/-- `StorageAppend::replace_length`: `splice` the new length over the old one, which is taken to be `0`, with no
bytes, when it is `none`. -/
def replaceLength (data : List UInt8) (oldLength : Option UInt32) (newLength : UInt32) : List UInt8 :=
  c.encode newLength ++ data.drop ((oldLength.map (compactLen c)).getD 0)

namespace StorageEntry

/-- `materialize_in_place`: write the current length over the prefix, unless it is there already. -/
def materializeInPlace : StorageEntry → StorageEntry
  | .append data currentLength materializedLength parentSize =>
    if materializedLength = some currentLength then .append data currentLength materializedLength parentSize
    else .append (replaceLength c data materializedLength currentLength) currentLength (some currentLength) parentSize
  | e => e

/-- `to_option`: the value, materialized. -/
def toOption (e : StorageEntry) : Option (List UInt8) :=
  match e.materializeInPlace c with
  | .set data => some data
  | .append data .. => some data
  | .remove => none

/-- The version `set` writes. -/
def ofValue : Option (List UInt8) → StorageEntry
  | some v => .set v
  | none => .remove

end StorageEntry

/-- `restore_append_to_parent`: the parent gets the data back, with the child's prefix, cut to the parent's size
corrected by the difference of the two prefixes. A parent that is not an `Append` is left alone. -/
def restoreAppendToParent (parent : StorageEntry) (currentData : List UInt8) (currentMaterialized : Option UInt32)
    (targetParentSize : Nat) : StorageEntry :=
  match parent with
  | .append _ currentLength parentMaterialized parentSize =>
    let prev := (parentMaterialized.map (compactLen c)).getD 0
    let new := (currentMaterialized.map (compactLen c)).getD 0
    let targetParentSize :=
      if new ≤ prev then targetParentSize - (prev - new) else targetParentSize + (new - prev)
    .append (currentData.take targetParentSize) currentLength currentMaterialized parentSize
  | parent => parent

/-- The `Append` an append starts on a value: the value with the element, if the value starts with a length,
and the one-element list otherwise. -/
def appendTo (value element : List UInt8) : StorageEntry :=
  match extractLength c value with
  | some len => .append (value ++ element) (len + 1) (some len) none
  | none => .append element 1 none none

/-! ## Versions of one key -/

/-- `OverlayedEntry::set` on the versions: an overwritten `Append` that took its parent's buffer gives it back.
`none` is the `expect` on the parent. -/
def setEntry (value : Option (List UInt8)) (firstWriteInTx : Bool) (transactions : List StorageEntry) :
    Option (List StorageEntry) :=
  match transactions with
  | [] => some [.ofValue value]
  | old :: rest =>
    if firstWriteInTx then some (.ofValue value :: old :: rest)
    else
      match old, rest with
      | .append data _ materializedLength (some parentSize), parent :: rest =>
        some (.ofValue value :: restoreAppendToParent c parent data materializedLength parentSize :: rest)
      | .append _ _ _ (some _), [] => none
      | _, rest => some (.ofValue value :: rest)

/-- `OverlayedEntry::append` on the versions. The first append of a transaction to an `Append` moves the parent's
buffer into the new version. -/
def appendEntry (element : List UInt8) (firstWriteInTx : Bool) (init : List UInt8)
    (transactions : List StorageEntry) : List StorageEntry :=
  match transactions with
  | [] => [appendTo c init element]
  | old :: rest =>
    if firstWriteInTx then
      match old with
      | .remove => .append element 1 none none :: old :: rest
      | .append data currentLength materializedLength parentSize =>
        .append (data ++ element) (currentLength + 1) materializedLength (some data.length) ::
          .append [] currentLength materializedLength parentSize :: rest
      | .set prev => appendTo c prev element :: old :: rest
    else
      match old with
      | .remove => .append element 1 none none :: rest
      | .set data => appendTo c data element :: rest
      | .append data currentLength materializedLength parentSize =>
        .append (data ++ element) (currentLength + 1) materializedLength parentSize :: rest

/-- `OverlayedEntry::value`: the newest version, materialized in place. `none` is the `expect` on an entry
without versions. -/
def entryValue (transactions : List StorageEntry) : Option (Option (List UInt8) × List StorageEntry) :=
  match transactions with
  | [] => none
  | top :: rest => some (top.toOption c, top.materializeInPlace c :: rest)

/-- A rollback in `close_transaction`: the dropped version gives back the buffer it took. -/
def rollbackEntry : List StorageEntry → Option (List StorageEntry)
  | [] => none
  | .append data _ materializedLength (some parentSize) :: rest =>
    match rest with
    | parent :: rest => some (restoreAppendToParent c parent data materializedLength parentSize :: rest)
    | [] => none
  | _ :: rest => some rest

/-- The merge in `close_transaction`: an `Append` that took the buffer of an `Append` replaces it, keeping the parent's
`parentSize`; otherwise the committed version replaces its parent, and a replaced `Append` that had taken its own
parent's buffer gives it back. -/
def commitEntry : List StorageEntry → Option (List StorageEntry)
  | committed :: parent :: rest =>
    match committed, parent with
    | .append data currentLength materializedLength (some _), .append _ _ _ keepMe =>
      some (.append data currentLength materializedLength keepMe :: rest)
    | committed, .append data _ materializedLength (some parentSize) =>
      match rest with
      | grandparent :: rest =>
        some (committed :: restoreAppendToParent c grandparent data materializedLength parentSize :: rest)
      | [] => some [committed]
    | committed, _ => some (committed :: rest)
  | _ => none

/-! ## The changeset -/

section Changeset

variable {K : Type _} [DecidableEq K]

namespace OverlayedMap

/-- `OverlayedChangeSet::set`. -/
def set (m : OverlayedMap K StorageEntry) (key : K) (value : Option (List UInt8)) :
    Option (OverlayedMap K StorageEntry) :=
  m.writeWith key (setEntry c value)

/-- `append_storage`; `init` is the value to append to when the overlay has none, the backend's. -/
def appendStorage (m : OverlayedMap K StorageEntry) (key : K) (element init : List UInt8) :
    Option (OverlayedMap K StorageEntry) :=
  m.writeWith key fun firstWriteInTx transactions => some (appendEntry c element firstWriteInTx init transactions)

/-- `OverlayedChangeSet::close_transaction`. -/
def closeTransaction (m : OverlayedMap K StorageEntry) (rollback : Bool) :
    Option (Except NoOpenTransaction (OverlayedMap K StorageEntry)) :=
  m.closeTransactionWith (rollbackEntry c) (commitEntry c) rollback

/-- `commit_transaction`. -/
def commitTransaction (m : OverlayedMap K StorageEntry) :
    Option (Except NoOpenTransaction (OverlayedMap K StorageEntry)) :=
  m.closeTransaction c false

/-- `rollback_transaction`. -/
def rollbackTransaction (m : OverlayedMap K StorageEntry) :
    Option (Except NoOpenTransaction (OverlayedMap K StorageEntry)) :=
  m.closeTransaction c true

/-- `OverlayedChangeSet::exit_runtime`. -/
def exitRuntime (m : OverlayedMap K StorageEntry) : Option (Except NotInRuntime (OverlayedMap K StorageEntry)) :=
  m.exitRuntimeWith (rollbackEntry c) (commitEntry c)

/-- One key of `clear_where`: a key the predicate matches is set to `None`, and counted if its value was set
or appended to (`value_ref`, whose `expect` is `none`). -/
def clearKey (predicate : K → List StorageEntry → Bool) (st : Nat × OverlayedMap K StorageEntry) (key : K) :
    Option (Nat × OverlayedMap K StorageEntry) :=
  match st.2.changes.lookup key with
  | none => some st
  | some transactions =>
    if predicate key transactions then do
      let top ← transactions.head?
      let m ← st.2.set c key none
      pure (if top = .remove then st.1 else st.1 + 1, m)
    else some st

/-- `clear_where`: every key of the changes that the predicate matches is set to `None`; the count of those that
had a value. -/
def clearWhere (m : OverlayedMap K StorageEntry) (predicate : K → List StorageEntry → Bool) :
    Option (Nat × OverlayedMap K StorageEntry) :=
  m.changes.keys.foldlM (clearKey c predicate) (0, m)

/-- `get(key)` and `value()`: the value of the key, materialized in place, if the overlay has it. -/
def storage (m : OverlayedMap K StorageEntry) (key : K) :
    Option (Option (Option (List UInt8)) × OverlayedMap K StorageEntry) :=
  match m.get key with
  | none => some (none, m)
  | some transactions =>
    (entryValue c transactions).map fun r => (some r.1, { m with changes := m.changes.insert key r.2 })

end OverlayedMap

/-- `Ext::storage`: the overlay's value of the key, or the backend's when the overlay has none. -/
def Ext.storage (backend : K → Option (List UInt8)) (m : OverlayedMap K StorageEntry) (key : K) :
    Option (Option (List UInt8) × OverlayedMap K StorageEntry) :=
  (m.storage c key).map fun r => (r.1.getD (backend key), r.2)

/-! ## Calls from the externalities -/

/-- A call on the changeset, as `FuzzAppendState::process_item` makes them through `Ext`; `clearWhere` is
`clear_where` with a predicate on keys, as `clear_prefix` gives it. -/
inductive Op (K : Type _) where
  | set (key : K) (value : Option (List UInt8))
  | append (key : K) (element : List UInt8)
  | clearWhere (predicate : K → Bool)
  | startTransaction
  | commitTransaction
  | rollbackTransaction
  | read (key : K)

/-- One call. `storage_append` appends to the backend's value when the overlay has none; a commit or rollback
with no transaction open returns an error and changes nothing. -/
def applyOp (backend : K → Option (List UInt8)) (m : OverlayedMap K StorageEntry) :
    Op K → Option (OverlayedMap K StorageEntry)
  | .set key value => m.set c key value
  | .append key element => m.appendStorage c key element ((backend key).getD [])
  | .clearWhere predicate => (m.clearWhere c fun key _ => predicate key).map Prod.snd
  | .startTransaction => some m.startTransaction
  | .commitTransaction => (m.commitTransaction c).map fun r => r.toOption.getD m
  | .rollbackTransaction => (m.rollbackTransaction c).map fun r => r.toOption.getD m
  | .read key => (Ext.storage c backend m key).map Prod.snd

/-- The calls one after the other, from an empty changeset. -/
def runOps (backend : K → Option (List UInt8)) (ops : List (Op K)) : Option (OverlayedMap K StorageEntry) :=
  ops.foldlM (applyOp c backend) OverlayedMap.empty

end Changeset

end CoreChain.Overlay

import CoreChain.StateDb.NonCanonical

/-!
# Pins of the state database

The model of `StateDbSync` of `substrate/client/state-db/src/lib.rs` in the modes without a pruning window:
`ArchiveAll` writes every change at once, `ArchiveCanonical` keeps the non-canonical blocks in the overlay. Pins are
counted here and passed to the overlay on the first and off on the last.

The overlay keeps a block canonicalized since the last `sync` with a pin of its own, so that its values are served
until the commit is on disk. But the walk of `unpin` up the parents takes one pin off every block kept in
`pinned_insertions`, whatever pins it holds (`unpinWalk_takes_parent`): a discarded block whose parent was just
canonicalized takes the parent's values with it when its last pin goes (`unpin_drops_canonicalized`).
-/

namespace CoreChain.StateDb

/-- `PruningMode`, without `Constrained`. -/
inductive PruningMode where
  | archiveAll
  | archiveCanonical
  deriving DecidableEq, Repr

/-- `PinError`. -/
inductive PinError where
  | invalidBlock
  deriving DecidableEq, Repr

/-- `StateDbSync`. -/
structure StateDbSync (H K : Type) [DecidableEq H] [DecidableEq K] where
  mode : PruningMode
  nonCanonical : NonCanonicalOverlay H K
  pinned : AList (fun _ : H => Nat)

variable {H K : Type} [DecidableEq H] [DecidableEq K]

namespace StateDbSync

/-- `insert_block`. -/
def insertBlock (s : StateDbSync H K) (hash : H) (number : Nat) (parentHash : H) (changeset : ChangeSet K) :
    Option (Except StateDbError (StateDbSync H K × CommitSet H K)) :=
  match s.mode with
  -- write changes immediately
  | .archiveAll => some (.ok (s, { (CommitSet.empty : CommitSet H K) with data := { changeset with deleted := [] } }))
  | .archiveCanonical =>
    (s.nonCanonical.insert hash number parentHash changeset).map fun r =>
      r.map fun r => ({ s with nonCanonical := r.1 }, r.2)

/-- `canonicalize_block`: the state after it, even where it fails. -/
def canonicalizeBlock (s : StateDbSync H K) (hash : H) : Option (StateDbSync H K × Except StateDbError (CommitSet H K)) :=
  match s.mode with
  | .archiveAll => some (s, .ok CommitSet.empty)
  | .archiveCanonical =>
    (s.nonCanonical.canonicalize hash CommitSet.empty).map fun r =>
      ({ s with nonCanonical := r.1 },
        -- nothing canonical is ever deleted
        r.2.2.map fun _ => { r.2.1 with data := { r.2.1.data with deleted := [] } })

/-- `pin`, with `hint` what the caller knows of a block the overlay does not have. -/
def pin (s : StateDbSync H K) (hash : H) (hint : Bool) : StateDbSync H K × Except PinError Unit :=
  match s.mode with
  | .archiveAll => (s, .ok ())
  | .archiveCanonical =>
    if s.nonCanonical.haveBlock hash || hint then
      let refs := (s.pinned.lookup hash).getD 0
      let s := if refs = 0 then { s with nonCanonical := s.nonCanonical.pin hash } else s
      ({ s with pinned := s.pinned.insert hash (refs + 1) }, .ok ())
    else (s, .error .invalidBlock)

/-- `unpin`. -/
def unpin (s : StateDbSync H K) (hash : H) : StateDbSync H K :=
  match s.pinned.lookup hash with
  | some refs =>
    if refs - 1 = 0 then { s with pinned := s.pinned.erase hash, nonCanonical := s.nonCanonical.unpin hash }
    else { s with pinned := s.pinned.insert hash (refs - 1) }
  | none => s

/-- `sync`. -/
def sync (s : StateDbSync H K) : StateDbSync H K :=
  { s with nonCanonical := s.nonCanonical.sync }

/-- `get`: the overlay first, then the database `db`. -/
def get (s : StateDbSync H K) (key : K) (db : K → Option (List UInt8)) : Option (List UInt8) :=
  match s.nonCanonical.get key with
  | some value => some value
  | none => db key

end StateDbSync

/-! ## The walk of `unpin` -/

namespace NonCanonicalOverlay

/-- The walk never gives a block an entry in `pinned_insertions` that it did not have. -/
theorem unpinWalk_lookup_none {p : H} : ∀ (fuel : Nat) (start : Option H) (o : NonCanonicalOverlay H K),
    o.pinnedInsertions.lookup p = none → (unpinWalk fuel start o).pinnedInsertions.lookup p = none
  | 0, _, _, h => h
  | _ + 1, none, _, h => h
  | fuel + 1, some hash, o, h => by
    cases hq : o.pinnedInsertions.lookup hash with
    | none => simpa [unpinWalk, hq] using h
    | some entry =>
      obtain ⟨inserted, count⟩ := entry
      -- `p` has no entry and `hash` has one
      have hp : p ≠ hash := by
        rintro rfl
        rw [h] at hq
        cases hq
      by_cases hlast : count - 1 = 0
      · simp only [unpinWalk, hq, if_pos hlast]
        apply unpinWalk_lookup_none
        simp [AList.lookup_erase_ne hp, h]
      · simp only [unpinWalk, hq, if_neg hlast]
        apply unpinWalk_lookup_none
        simp [AList.lookup_insert_ne hp, h]

/-- When the last pin of a block kept in `pinned_insertions` goes, the walk takes one pin off its parent: a parent
kept with one pin is discarded, whatever pins it holds itself. -/
theorem unpinWalk_takes_parent {o : NonCanonicalOverlay H K} {h p : H} {inserted insertedP : List K}
    (hh : o.pinnedInsertions.lookup h = some (inserted, 1)) (hp : o.parents.lookup h = some p) (hne : p ≠ h)
    (hpp : o.pinnedInsertions.lookup p = some (insertedP, 1)) (fuel : Nat) :
    (unpinWalk (fuel + 2) (some h) o).pinnedInsertions.lookup p = none := by
  -- the first step discards `h` and goes on to `p`
  have hstep : unpinWalk (fuel + 2) (some h) o = unpinWalk (fuel + 1) (some p)
      { o with
        pinnedInsertions := o.pinnedInsertions.erase h
        values := discardValues o.values inserted
        parents := o.parents.erase h } := by
    simp [unpinWalk, hh, hp]
  -- `p` still has its one pin there, and the next step discards it
  have hpp' : (o.pinnedInsertions.erase h).lookup p = some (insertedP, 1) := by
    rw [AList.lookup_erase_ne hne, hpp]
  rw [hstep]
  simp only [unpinWalk, hpp', Nat.sub_self, if_true]
  apply unpinWalk_lookup_none
  simp [AList.lookup_erase]

end NonCanonicalOverlay

/-! ## Runs -/

/-- A call on `StateDbSync`. -/
inductive SyncCall (H K : Type) where
  | insertBlock (hash : H) (number : Nat) (parentHash : H) (changeset : ChangeSet K)
  | canonicalizeBlock (hash : H)
  | pin (hash : H) (hint : Bool)
  | unpin (hash : H)
  | sync
  deriving DecidableEq, Repr

/-- One call: an error keeps what the call changed before it, and `none` where the source panics. -/
def SyncCall.apply (s : StateDbSync H K) : SyncCall H K → Option (StateDbSync H K)
  | .insertBlock hash number parentHash changeset =>
    (s.insertBlock hash number parentHash changeset).map fun r =>
      match r with
      | .ok r => r.1
      | .error _ => s
  | .canonicalizeBlock hash => (s.canonicalizeBlock hash).map (·.1)
  | .pin hash hint => some (s.pin hash hint).1
  | .unpin hash => some (s.unpin hash)
  | .sync => some s.sync

/-- The calls one after another. -/
def runSync : StateDbSync H K → List (SyncCall H K) → Option (StateDbSync H K)
  | s, [] => some s
  | s, call :: calls => (call.apply s).bind fun s => runSync s calls

/-- In `ArchiveCanonical` mode: block `1` inserting key `7`, its children `2` and `3`, and a pin on `3`. Canonicalizing
`1` then `2` discards `3`, kept on its pin; unpinning it discards `1` too, before any `sync`: the overlay still counts
its own pin on `1` but has dropped the value of `7`, and `get` goes to the database, which may not hold `1`'s commit
yet. -/
theorem unpin_drops_canonicalized :
    ∃ s, runSync ⟨.archiveCanonical, NonCanonicalOverlay.empty, ∅⟩
        [.insertBlock 1 1 0 ⟨[(7, [42])], []⟩, .insertBlock 2 2 1 ⟨[], []⟩, .insertBlock 3 2 1 ⟨[], []⟩,
          .pin 3 false, .canonicalizeBlock 1, .canonicalizeBlock 2, .unpin 3] = some s ∧
      s.nonCanonical.pinnedCanonincalized = [1, 2] ∧ s.nonCanonical.pinned.lookup 1 = some 1 ∧
      s.nonCanonical.get 7 = none := by
  refine ⟨_, rfl, ?_⟩
  decide

end CoreChain.StateDb

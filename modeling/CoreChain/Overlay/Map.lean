import Mathlib
import CoreChain.Lib.Machine

/-!
# Transactional overlays

The model of `OverlayedMap` in `substrate/primitives/state-machine/src/overlayed_changes/changeset.rs`. For every
changed key it keeps the versions of its value, one for each open transaction that wrote it and one committed,
newest first (an `OverlayedEntry`); for every open transaction, innermost first, the keys it wrote. Writing a key
pushes a version on its first write in a transaction and overwrites the newest one after that; closing a
transaction goes through its dirty keys, dropping their newest version on rollback and merging it into the
enclosing transaction on commit.

- `writeWith`: a write, with what the entry does to its versions as a parameter; `setOffchain` is one;
- `closeTransactionWith`: `close_transaction_offchain` and `close_transaction`, which differ only in what a
  rollback and a merge do to the versions of one key (`popTransaction` and `mergeOffchain` for the first);
- `enterRuntime`, `exitRuntimeWith`: the boundary between transactions the client opened and the runtime's;
- every operation acts on each key through its `view` alone: `writeWith_actsLocally`, `closeKey_actsLocally`,
  `view_closeTransactionWith`.

Extrinsic indices are not modelled. An `expect` that fires is `none`.
-/

namespace CoreChain.Overlay

/-- `ExecutionMode`. -/
inductive ExecutionMode where
  | client
  | runtime
  deriving DecidableEq, Repr

/-- `NoOpenTransaction`. -/
structure NoOpenTransaction where
  deriving DecidableEq, Repr

/-- `AlreadyInRuntime`. -/
structure AlreadyInRuntime where
  deriving DecidableEq, Repr

/-- `NotInRuntime`. -/
structure NotInRuntime where
  deriving DecidableEq, Repr

/-- `OverlayedMap`: `changes` maps a key to its versions, newest first; `dirtyKeys` holds the keys written in each
open transaction, innermost first, so that its length is the transaction depth. -/
structure OverlayedMap (K V : Type _) where
  changes : AList (fun _ : K => List V)
  dirtyKeys : List (List K)
  numClientTransactions : Nat
  executionMode : ExecutionMode

variable {K V : Type _}

/-! ## Versions of one key -/

/-- `OverlayedEntry::set_offchain` on the versions: a new version on the first write in a transaction, or on the
first write at all; otherwise the newest version is overwritten. -/
def setOffchainEntry (value : V) (firstWriteInTx : Bool) (transactions : List V) : List V :=
  if firstWriteInTx || transactions.isEmpty then value :: transactions else value :: transactions.tail

/-- `pop_transaction`, as a rollback does it. -/
def popTransaction : List V → Option (List V)
  | [] => none
  | _ :: rest => some rest

/-- The merge of `close_transaction_offchain`: the newest version replaces the one before it. -/
def mergeOffchain : List V → Option (List V)
  | v :: _ :: rest => some (v :: rest)
  | _ => none

section Map

variable [DecidableEq K]

/-- `insert_dirty`: the key joins the innermost dirty set; whether a transaction is open and this is the key's
first write in it. -/
def insertDirty (dirtyKeys : List (List K)) (key : K) : List (List K) × Bool :=
  match dirtyKeys with
  | [] => ([], false)
  | dk :: rest => if key ∈ dk then (dk :: rest, false) else ((key :: dk) :: rest, true)

/-- One key of the loop of `close_transaction`, given what a rollback and a merge do to its versions. The state is
the changes and the dirty sets of the transactions that stay open. -/
def closeKey (rollbackEntry commitEntry : List V → Option (List V)) (rollback : Bool)
    (st : AList (fun _ : K => List V) × List (List K)) (key : K) :
    Option (AList (fun _ : K => List V) × List (List K)) := do
  let transactions ← st.1.lookup key
  if rollback then
    let transactions ← rollbackEntry transactions
    pure (if transactions.isEmpty then st.1.erase key else st.1.insert key transactions, st.2)
  else
    -- a predecessor is a write of the key in the enclosing transaction, or a committed version at the outermost one
    let dirty := insertDirty st.2 key
    let hasPredecessor := if st.2.isEmpty then decide (1 < transactions.length) else !dirty.2
    if hasPredecessor then
      let transactions ← commitEntry transactions
      pure (st.1.insert key transactions, dirty.1)
    else pure (st.1, dirty.1)

namespace OverlayedMap

/-- `Default`: no changes and no open transaction, in client mode. -/
def empty : OverlayedMap K V :=
  ⟨∅, [], 0, .client⟩

/-- `transaction_depth`. -/
def transactionDepth (m : OverlayedMap K V) : Nat :=
  m.dirtyKeys.length

/-- `has_open_runtime_transactions`. -/
def hasOpenRuntimeTransactions (m : OverlayedMap K V) : Bool :=
  decide (m.numClientTransactions < m.transactionDepth)

/-- `is_empty`. -/
def isEmpty (m : OverlayedMap K V) : Bool :=
  m.changes.entries.isEmpty

/-- `spawn_child`: no changes, at the same depth and in the same mode. -/
def spawnChild (m : OverlayedMap K V) : OverlayedMap K V :=
  ⟨∅, List.replicate m.transactionDepth [], m.numClientTransactions, m.executionMode⟩

/-- `get`: the versions of the key. -/
def get (m : OverlayedMap K V) (key : K) : Option (List V) :=
  m.changes.lookup key

/-- A write of `key` (`changes.entry(key).or_default()` and `insert_dirty`): `f` says what the write does to the
versions, given whether it is the first in the transaction. -/
def writeWith (m : OverlayedMap K V) (key : K) (f : Bool → List V → Option (List V)) :
    Option (OverlayedMap K V) :=
  let dirty := insertDirty m.dirtyKeys key
  (f dirty.2 ((m.changes.lookup key).getD [])).map fun transactions =>
    { m with changes := m.changes.insert key transactions, dirtyKeys := dirty.1 }

/-- `set_offchain`. -/
def setOffchain (m : OverlayedMap K V) (key : K) (value : V) : Option (OverlayedMap K V) :=
  m.writeWith key fun firstWriteInTx transactions => some (setOffchainEntry value firstWriteInTx transactions)

/-- `start_transaction`. -/
def startTransaction (m : OverlayedMap K V) : OverlayedMap K V :=
  { m with dirtyKeys := [] :: m.dirtyKeys }

/-- `close_transaction`: the runtime may not close a transaction the client opened; otherwise every dirty key of
the innermost transaction goes through `closeKey`. -/
def closeTransactionWith (rollbackEntry commitEntry : List V → Option (List V)) (m : OverlayedMap K V)
    (rollback : Bool) : Option (Except NoOpenTransaction (OverlayedMap K V)) :=
  if m.executionMode = .runtime ∧ m.hasOpenRuntimeTransactions = false then some (.error ⟨⟩)
  else
    match m.dirtyKeys with
    | [] => some (.error ⟨⟩)
    | dk :: rest =>
      (dk.foldlM (closeKey rollbackEntry commitEntry rollback) (m.changes, rest)).map fun st =>
        .ok { m with changes := st.1, dirtyKeys := st.2 }

/-- `enter_runtime`: the transactions open now are the client's. -/
def enterRuntime (m : OverlayedMap K V) : Except AlreadyInRuntime (OverlayedMap K V) :=
  match m.executionMode with
  | .runtime => .error ⟨⟩
  | .client => .ok { m with executionMode := .runtime, numClientTransactions := m.transactionDepth }

/-- The loop of `exit_runtime`: roll back while the runtime has a transaction open, for at most `fuel` rounds. -/
def rollbackRuntimeWith (rollbackEntry commitEntry : List V → Option (List V)) :
    Nat → OverlayedMap K V → Option (OverlayedMap K V)
  | 0, m => some m
  | fuel + 1, m =>
    if m.hasOpenRuntimeTransactions then
      match m.closeTransactionWith rollbackEntry commitEntry true with
      | some (.ok m') => rollbackRuntimeWith rollbackEntry commitEntry fuel m'
      | _ => none
    else some m

/-- `exit_runtime`: back in client mode, the transactions the runtime left open are rolled back. Each round
closes one, so the depth bounds the rounds. -/
def exitRuntimeWith (rollbackEntry commitEntry : List V → Option (List V)) (m : OverlayedMap K V) :
    Option (Except NotInRuntime (OverlayedMap K V)) :=
  match m.executionMode with
  | .client => some (.error ⟨⟩)
  | .runtime =>
    (rollbackRuntimeWith rollbackEntry commitEntry m.transactionDepth { m with executionMode := .client }).map
      .ok

/-- `close_transaction_offchain`. -/
def closeTransactionOffchain (m : OverlayedMap K V) (rollback : Bool) :
    Option (Except NoOpenTransaction (OverlayedMap K V)) :=
  m.closeTransactionWith popTransaction mergeOffchain rollback

/-- `exit_runtime_offchain`. -/
def exitRuntimeOffchain (m : OverlayedMap K V) : Option (Except NotInRuntime (OverlayedMap K V)) :=
  m.exitRuntimeWith popTransaction mergeOffchain

/-- `drain_committed`: the newest version of every key; `none` where its `assert!` or `expect` fires. -/
def drainCommitted (m : OverlayedMap K V) : Option (List (K × V)) :=
  if m.transactionDepth = 0 then m.changes.entries.mapM fun e => e.2.head?.map (e.1, ·) else none

/-! ## One key at a time -/

/-- What the map holds for one key: its versions, if it has an entry, and whether each open transaction,
innermost first, wrote it. -/
def view (m : OverlayedMap K V) (key : K) : Option (List V) × List Bool :=
  (m.changes.lookup key, m.dirtyKeys.map fun dk => decide (key ∈ dk))

end OverlayedMap

/-- `insert_dirty` as seen from the key: it is marked in the innermost transaction, and it was not before. -/
def markFirst : List Bool → List Bool × Bool
  | [] => ([], false)
  | b :: bs => (true :: bs, !b)

/-- A write as seen from the key written. -/
def writeLocal (f : Bool → List V → Option (List V)) (e : Option (List V) × List Bool) :
    Option (Option (List V) × List Bool) :=
  (f (markFirst e.2).2 (e.1.getD [])).map fun transactions => (some transactions, (markFirst e.2).1)

/-- `closeKey` as seen from the key: its versions and its flags in the transactions that stay open. -/
def closeLocal (rollbackEntry commitEntry : List V → Option (List V)) (rollback : Bool) :
    Option (List V) × List Bool → Option (Option (List V) × List Bool)
  | (none, _) => none
  | (some transactions, flags) =>
    if rollback then
      (rollbackEntry transactions).map fun vs => (if vs.isEmpty then none else some vs, flags)
    else if (if flags.isEmpty then decide (1 < transactions.length) else !(markFirst flags).2) then
      (commitEntry transactions).map fun vs => (some vs, (markFirst flags).1)
    else some (some transactions, (markFirst flags).1)

theorem insertDirty_self (dirtyKeys : List (List K)) (key : K) :
    ((insertDirty dirtyKeys key).1.map fun dk => decide (key ∈ dk), (insertDirty dirtyKeys key).2) =
      markFirst (dirtyKeys.map fun dk => decide (key ∈ dk)) := by
  cases dirtyKeys with
  | nil => rfl
  | cons dk rest => by_cases h : key ∈ dk <;> simp [insertDirty, markFirst, h]

theorem insertDirty_other (dirtyKeys : List (List K)) {key k : K} (h : k ≠ key) :
    ((insertDirty dirtyKeys key).1.map fun dk => decide (k ∈ dk)) = dirtyKeys.map fun dk => decide (k ∈ dk) := by
  cases dirtyKeys with
  | nil => rfl
  | cons dk rest => by_cases hk : key ∈ dk <;> simp [insertDirty, hk, h]

namespace OverlayedMap

@[simp] theorem view_fst (m : OverlayedMap K V) (key : K) : (m.view key).1 = m.changes.lookup key :=
  rfl

@[simp] theorem length_view_snd (m : OverlayedMap K V) (key : K) :
    (m.view key).2.length = m.transactionDepth := by
  simp [view, transactionDepth]

theorem writeWith_actsLocally (f : Bool → List V → Option (List V)) :
    ActsLocally view (fun (m : OverlayedMap K V) key => m.writeWith key f) (fun _ => writeLocal f) := by
  intro m x l hl
  have hself := insertDirty_self m.dirtyKeys x
  simp only [writeLocal, view, ← hself, Option.map_eq_some_iff] at hl
  obtain ⟨vs, hvs, rfl⟩ := hl
  refine ⟨{ m with changes := m.changes.insert x vs, dirtyKeys := (insertDirty m.dirtyKeys x).1 },
    by simp only [writeWith, hvs, Option.map_some], ?_, fun k hk => ?_⟩
  · simp [view, AList.lookup_insert]
  · simp [view, AList.lookup_insert_ne hk, insertDirty_other m.dirtyKeys hk]

theorem writeWith_numClientTransactions {m m' : OverlayedMap K V} {key : K}
    {f : Bool → List V → Option (List V)} (h : m.writeWith key f = some m') :
    m'.numClientTransactions = m.numClientTransactions ∧ m'.executionMode = m.executionMode := by
  simp only [writeWith, Option.map_eq_some_iff] at h
  obtain ⟨_, _, rfl⟩ := h
  exact ⟨rfl, rfl⟩

theorem transactionDepth_writeWith {m m' : OverlayedMap K V} {key : K} {f : Bool → List V → Option (List V)}
    (h : m.writeWith key f = some m') : m'.transactionDepth = m.transactionDepth := by
  simp only [writeWith, Option.map_eq_some_iff] at h
  obtain ⟨_, _, rfl⟩ := h
  cases hd : m.dirtyKeys with
  | nil => simp [transactionDepth, insertDirty, hd]
  | cons dk rest => by_cases hk : key ∈ dk <;> simp [transactionDepth, insertDirty, hd, hk]

@[simp] theorem view_startTransaction (m : OverlayedMap K V) (key : K) :
    m.startTransaction.view key = ((m.view key).1, false :: (m.view key).2) := by
  simp [startTransaction, view]

end OverlayedMap

/-- The state of the loop of `close_transaction`, seen from one key. -/
def closeView (st : AList (fun _ : K => List V) × List (List K)) (key : K) : Option (List V) × List Bool :=
  (st.1.lookup key, st.2.map fun dk => decide (key ∈ dk))

theorem closeKey_actsLocally (rollbackEntry commitEntry : List V → Option (List V)) (rollback : Bool) :
    ActsLocally closeView (closeKey (K := K) rollbackEntry commitEntry rollback)
      (fun _ => closeLocal rollbackEntry commitEntry rollback) := by
  rintro ⟨changes, dirtyKeys⟩ x l hl
  have hself := insertDirty_self dirtyKeys x
  simp only [closeView] at hl
  cases hx : changes.lookup x with
  | none => simp [hx, closeLocal] at hl
  | some transactions =>
    rw [hx] at hl
    cases rollback with
    | true =>
      simp only [closeLocal, if_true, Option.map_eq_some_iff] at hl
      obtain ⟨vs, hvs, rfl⟩ := hl
      refine ⟨(if vs.isEmpty then changes.erase x else changes.insert x vs, dirtyKeys),
        by simp [closeKey, hx, hvs], ?_, fun k hk => ?_⟩
      · by_cases he : vs.isEmpty
        · simp [closeView, he, AList.lookup_erase]
        · simp [closeView, he, AList.lookup_insert]
      · by_cases he : vs.isEmpty
        · simp [closeView, he, AList.lookup_erase_ne hk]
        · simp [closeView, he, AList.lookup_insert_ne hk]
    | false =>
      have hflags : markFirst (dirtyKeys.map fun dk => decide (x ∈ dk)) =
          ((insertDirty dirtyKeys x).1.map fun dk => decide (x ∈ dk), (insertDirty dirtyKeys x).2) := hself.symm
      have hempty : (dirtyKeys.map fun dk => decide (x ∈ dk)).isEmpty = dirtyKeys.isEmpty := by simp
      simp only [closeLocal, Bool.false_eq_true, if_false, hflags, hempty] at hl
      by_cases hpred : (if dirtyKeys.isEmpty then decide (1 < transactions.length)
          else !(insertDirty dirtyKeys x).2) = true
      · rw [if_pos hpred, Option.map_eq_some_iff] at hl
        obtain ⟨vs, hvs, rfl⟩ := hl
        refine ⟨(changes.insert x vs, (insertDirty dirtyKeys x).1), ?_, by simp [closeView, AList.lookup_insert],
          fun k hk => ?_⟩
        · simp only [closeKey, hx, Option.bind_eq_bind, Option.bind_some, Bool.false_eq_true, if_false]
          rw [if_pos hpred, hvs]
          rfl
        · simp [closeView, AList.lookup_insert_ne hk, insertDirty_other dirtyKeys hk]
      · rw [if_neg hpred, Option.some.injEq] at hl
        subst hl
        refine ⟨(changes, (insertDirty dirtyKeys x).1), ?_, by simp [closeView, hx], fun k hk => ?_⟩
        · simp only [closeKey, hx, Option.bind_eq_bind, Option.bind_some, Bool.false_eq_true, if_false]
          rw [if_neg hpred]
          rfl
        · simp [closeView, insertDirty_other dirtyKeys hk]

theorem insertDirty_nodup (dirtyKeys : List (List K)) (key : K) (h : ∀ dk ∈ dirtyKeys, dk.Nodup) :
    ∀ dk ∈ (insertDirty dirtyKeys key).1, dk.Nodup := by
  cases dirtyKeys with
  | nil => simp [insertDirty]
  | cons d rest =>
    by_cases hk : key ∈ d
    · simpa [insertDirty, hk] using h
    · simp only [insertDirty, hk, if_false, List.mem_cons]
      rintro dk (rfl | hdk)
      · exact List.nodup_cons.mpr ⟨hk, h d List.mem_cons_self⟩
      · exact h dk (List.mem_cons_of_mem d hdk)

theorem length_insertDirty (dirtyKeys : List (List K)) (key : K) :
    (insertDirty dirtyKeys key).1.length = dirtyKeys.length := by
  cases dirtyKeys with
  | nil => rfl
  | cons d rest => by_cases hk : key ∈ d <;> simp [insertDirty, hk]

/-- `closeKey` touches the dirty sets only through `insert_dirty`. -/
theorem closeKey_dirtyKeys {rollbackEntry commitEntry : List V → Option (List V)} {rollback : Bool}
    {st st' : AList (fun _ : K => List V) × List (List K)} {key : K}
    (h : closeKey rollbackEntry commitEntry rollback st key = some st') :
    st'.2 = st.2 ∨ st'.2 = (insertDirty st.2 key).1 := by
  simp only [closeKey, Option.bind_eq_bind, Option.bind_eq_some_iff] at h
  obtain ⟨transactions, -, h⟩ := h
  cases rollback with
  | true =>
    simp only [if_true, Option.bind_eq_some_iff, Option.pure_def, Option.some.injEq] at h
    obtain ⟨_, -, rfl⟩ := h
    exact Or.inl rfl
  | false =>
    simp only [Bool.false_eq_true, if_false] at h
    by_cases hp : (if st.2.isEmpty then decide (1 < transactions.length) else !(insertDirty st.2 key).2) = true
    · rw [if_pos hp] at h
      simp only [Option.bind_eq_some_iff, Option.pure_def, Option.some.injEq] at h
      obtain ⟨_, -, rfl⟩ := h
      exact Or.inr rfl
    · rw [if_neg hp, Option.pure_def, Option.some.injEq] at h
      subst h
      exact Or.inr rfl

/-- The loop of `close_transaction` keeps the number of dirty sets, and keeps them free of duplicates. -/
theorem foldlM_closeKey_dirtyKeys {rollbackEntry commitEntry : List V → Option (List V)} {rollback : Bool} :
    ∀ (keys : List K) (st st' : AList (fun _ : K => List V) × List (List K)),
      keys.foldlM (closeKey rollbackEntry commitEntry rollback) st = some st' →
      st'.2.length = st.2.length ∧ ((∀ dk ∈ st.2, dk.Nodup) → ∀ dk ∈ st'.2, dk.Nodup)
  | [], st, st', h => by
    cases h
    exact ⟨rfl, id⟩
  | key :: keys, st, st', h => by
    simp only [List.foldlM_cons, Option.bind_eq_bind, Option.bind_eq_some_iff] at h
    obtain ⟨st₁, h₁, h⟩ := h
    obtain ⟨hlen, hnd⟩ := foldlM_closeKey_dirtyKeys keys st₁ st' h
    rcases closeKey_dirtyKeys h₁ with he | he
    · rw [he] at hlen hnd
      exact ⟨hlen, hnd⟩
    · rw [he, length_insertDirty] at hlen
      rw [he] at hnd
      exact ⟨hlen, fun hst => hnd (insertDirty_nodup st.2 key hst)⟩

namespace OverlayedMap

/-- Closing the innermost transaction, when the runtime may close it, its dirty keys are distinct and each of them
can be closed: every one of them goes through `closeLocal`, and every other key keeps its versions and loses its
innermost flag. -/
theorem view_closeTransactionWith {rollbackEntry commitEntry : List V → Option (List V)} {rollback : Bool}
    {m : OverlayedMap K V} {dk : List K} {rest : List (List K)} (hd : m.dirtyKeys = dk :: rest)
    (hguard : ¬(m.executionMode = .runtime ∧ m.hasOpenRuntimeTransactions = false)) (hnd : dk.Nodup)
    (hall : ∀ x ∈ dk, ∃ l, closeLocal rollbackEntry commitEntry rollback ((m.view x).1, (m.view x).2.tail) = some l) :
    ∃ m', m.closeTransactionWith rollbackEntry commitEntry rollback = some (.ok m') ∧
      m'.numClientTransactions = m.numClientTransactions ∧ m'.executionMode = m.executionMode ∧
      m'.transactionDepth = rest.length ∧ ((∀ d ∈ rest, d.Nodup) → ∀ d ∈ m'.dirtyKeys, d.Nodup) ∧
      ∀ k, (k ∈ dk → closeLocal rollbackEntry commitEntry rollback ((m.view k).1, (m.view k).2.tail) =
          some (m'.view k)) ∧
        (k ∉ dk → m'.view k = ((m.view k).1, (m.view k).2.tail)) := by
  have htail : ∀ k, ((m.view k).1, (m.view k).2.tail) = closeView (m.changes, rest) k := by
    intro k
    simp [view, closeView, hd]
  obtain ⟨st, hst, hk⟩ := foldlM_of_actsLocally (closeKey_actsLocally rollbackEntry commitEntry rollback) dk
    (m.changes, rest) hnd (fun x hx => by rw [← htail x]; exact hall x hx)
  obtain ⟨hlen, hnd'⟩ := foldlM_closeKey_dirtyKeys dk (m.changes, rest) st hst
  refine ⟨{ m with changes := st.1, dirtyKeys := st.2 }, ?_, rfl, rfl, hlen, hnd', fun k => ?_⟩
  · rw [closeTransactionWith, if_neg hguard]
    simp [hd, hst]
  · rw [htail k]
    exact hk k

end OverlayedMap

omit [DecidableEq K] in
theorem OverlayedMap.enterRuntime_client {m : OverlayedMap K V} (h : m.executionMode = .client) :
    m.enterRuntime = .ok { m with executionMode := .runtime, numClientTransactions := m.transactionDepth } := by
  unfold OverlayedMap.enterRuntime
  rw [h]

omit [DecidableEq K] in
theorem OverlayedMap.enterRuntime_runtime {m : OverlayedMap K V} (h : m.executionMode = .runtime) :
    m.enterRuntime = .error ⟨⟩ := by
  unfold OverlayedMap.enterRuntime
  rw [h]

theorem OverlayedMap.exitRuntimeWith_client {rollbackEntry commitEntry : List V → Option (List V)}
    {m : OverlayedMap K V} (h : m.executionMode = .client) :
    m.exitRuntimeWith rollbackEntry commitEntry = some (.error ⟨⟩) := by
  unfold OverlayedMap.exitRuntimeWith
  rw [h]

/-- The runtime may not close a transaction the client opened, and there is nothing to close with none open. -/
theorem OverlayedMap.closeTransactionWith_error {rollbackEntry commitEntry : List V → Option (List V)}
    {m : OverlayedMap K V}
    (h : (m.executionMode = .runtime ∧ m.hasOpenRuntimeTransactions = false) ∨ m.dirtyKeys = []) (rollback : Bool) :
    m.closeTransactionWith rollbackEntry commitEntry rollback = some (.error ⟨⟩) := by
  unfold OverlayedMap.closeTransactionWith
  by_cases hg : m.executionMode = .runtime ∧ m.hasOpenRuntimeTransactions = false
  · rw [if_pos hg]
  · rw [if_neg hg, h.resolve_left hg]

/-! ## Draining -/

theorem mapM_head_entries :
    ∀ (l : List (Sigma fun _ : K => List V)), (∀ e ∈ l, e.2 ≠ []) →
      ∃ r, l.mapM (fun e => e.2.head?.map (e.1, ·)) = some r ∧ ∀ k, r.lookup k = (l.dlookup k).bind List.head?
  | [], _ => ⟨[], rfl, fun k => rfl⟩
  | ⟨key, vs⟩ :: l, hl => by
    obtain ⟨v, vs', rfl⟩ := List.exists_cons_of_ne_nil (hl ⟨key, vs⟩ List.mem_cons_self)
    obtain ⟨r, hr, hk⟩ := mapM_head_entries l (fun e he => hl e (List.mem_cons_of_mem _ he))
    refine ⟨(key, v) :: r, by simp [hr], fun k => ?_⟩
    by_cases h : k = key
    · subst h
      simp [List.lookup]
    · have hne : (k == key) = false := beq_false_of_ne h
      rw [List.dlookup_cons_ne l ⟨key, v :: vs'⟩ h, ← hk k]
      simp [List.lookup, hne]

namespace OverlayedMap

/-- With no transaction open and no entry without versions, `drain_committed` gives every key's newest version. -/
theorem drainCommitted_eq {m : OverlayedMap K V} (hd : m.transactionDepth = 0)
    (hne : ∀ k vs, m.changes.lookup k = some vs → vs ≠ []) :
    ∃ l, m.drainCommitted = some l ∧ ∀ k, l.lookup k = (m.changes.lookup k).bind List.head? := by
  have hentries : ∀ e ∈ m.changes.entries, e.2 ≠ [] := by
    rintro ⟨k, vs⟩ he
    exact hne k vs (AList.mem_lookup_iff.mpr he)
  obtain ⟨l, hl, hk⟩ := mapM_head_entries m.changes.entries hentries
  exact ⟨l, by simp [drainCommitted, hd, hl], fun k => hk k⟩

end OverlayedMap

/-! ## Two overlays in step -/

section Rel

variable {W : Type _} {R : List V → List W → Prop}

/-- Two overlays with the same transactions, whose entries are related by `R` key by key. -/
structure OverlayedMap.Rel (R : List V → List W → Prop) (m₁ : OverlayedMap K V) (m₂ : OverlayedMap K W) :
    Prop where
  dirtyKeys : m₁.dirtyKeys = m₂.dirtyKeys
  numClientTransactions : m₁.numClientTransactions = m₂.numClientTransactions
  executionMode : m₁.executionMode = m₂.executionMode
  entries : ∀ k, Option.Rel R (m₁.changes.lookup k) (m₂.changes.lookup k)

/-- The results of two `close_transaction`s in step: both fail, or both succeed in step. -/
def ResultRel {α β ε : Type _} (r : α → β → Prop) : Except ε α → Except ε β → Prop
  | .ok a, .ok b => r a b
  | .error _, .error _ => True
  | _, _ => False

theorem resultRel_ok_right {α β ε : Type _} {r : α → β → Prop} {a : Except ε α} {b : β}
    (h : ResultRel r a (.ok b)) : ∃ a', a = .ok a' ∧ r a' b := by
  cases a with
  | ok a' => exact ⟨a', rfl, h⟩
  | error _ => exact (h : False).elim

theorem resultRel_error_right {α β ε : Type _} {r : α → β → Prop} {a : Except ε α} {e : ε}
    (h : ResultRel (β := β) r a (.error e)) : ∃ e', a = .error e' := by
  cases a with
  | ok _ => exact (h : False).elim
  | error e' => exact ⟨e', rfl⟩

theorem OverlayedMap.Rel.transactionDepth {m₁ : OverlayedMap K V} {m₂ : OverlayedMap K W}
    (h : OverlayedMap.Rel R m₁ m₂) : m₁.transactionDepth = m₂.transactionDepth := by
  unfold OverlayedMap.transactionDepth
  rw [h.dirtyKeys]

theorem OverlayedMap.Rel.hasOpenRuntimeTransactions {m₁ : OverlayedMap K V} {m₂ : OverlayedMap K W}
    (h : OverlayedMap.Rel R m₁ m₂) : m₁.hasOpenRuntimeTransactions = m₂.hasOpenRuntimeTransactions := by
  unfold OverlayedMap.hasOpenRuntimeTransactions
  rw [h.numClientTransactions, h.transactionDepth]

theorem OverlayedMap.Rel.enterRuntime {m₁ : OverlayedMap K V} {m₂ : OverlayedMap K W}
    (h : OverlayedMap.Rel R m₁ m₂) : ResultRel (OverlayedMap.Rel R) m₁.enterRuntime m₂.enterRuntime := by
  unfold OverlayedMap.enterRuntime
  rw [← h.executionMode]
  cases m₁.executionMode with
  | runtime => trivial
  | client => exact ⟨h.dirtyKeys, h.transactionDepth, rfl, h.entries⟩

theorem OverlayedMap.Rel.spawnChild {m₁ : OverlayedMap K V} {m₂ : OverlayedMap K W}
    (h : OverlayedMap.Rel R m₁ m₂) : OverlayedMap.Rel R m₁.spawnChild m₂.spawnChild :=
  ⟨by simp [OverlayedMap.spawnChild, h.transactionDepth], h.numClientTransactions, h.executionMode,
    fun _ => by simp [OverlayedMap.spawnChild]⟩

theorem rel_getD {α β : Type _} {r : α → β → Prop} {a : Option α} {b : Option β} {x : α} {y : β}
    (h : Option.Rel r a b) (hxy : r x y) : r (a.getD x) (b.getD y) := by
  cases h with
  | none => exact hxy
  | some h => exact h

theorem rel_insert {a : AList (fun _ : K => List V)} {b : AList (fun _ : K => List W)}
    (h : ∀ k, Option.Rel R (a.lookup k) (b.lookup k)) (key : K) {vs : List V} {ws : List W} (hvw : R vs ws) :
    ∀ k, Option.Rel R ((a.insert key vs).lookup k) ((b.insert key ws).lookup k) := by
  intro k
  by_cases hk : k = key
  · subst hk
    rw [AList.lookup_insert, AList.lookup_insert]
    exact .some hvw
  · rw [AList.lookup_insert_ne hk, AList.lookup_insert_ne hk]
    exact h k

theorem rel_erase {a : AList (fun _ : K => List V)} {b : AList (fun _ : K => List W)}
    (h : ∀ k, Option.Rel R (a.lookup k) (b.lookup k)) (key : K) :
    ∀ k, Option.Rel R ((a.erase key).lookup k) ((b.erase key).lookup k) := by
  intro k
  by_cases hk : k = key
  · subst hk
    rw [AList.lookup_erase, AList.lookup_erase]
    exact .none
  · rw [AList.lookup_erase_ne hk, AList.lookup_erase_ne hk]
    exact h k

theorem OverlayedMap.Rel.writeWith {m₁ : OverlayedMap K V} {m₂ : OverlayedMap K W} (h : OverlayedMap.Rel R m₁ m₂)
    (key : K) {f₁ : Bool → List V → Option (List V)} {f₂ : Bool → List W → Option (List W)}
    (hf : ∀ first, Option.Rel R (f₁ first ((m₁.changes.lookup key).getD []))
      (f₂ first ((m₂.changes.lookup key).getD []))) :
    Option.Rel (OverlayedMap.Rel R) (m₁.writeWith key f₁) (m₂.writeWith key f₂) := by
  have hab := hf (insertDirty m₁.dirtyKeys key).2
  simp only [OverlayedMap.writeWith, ← h.dirtyKeys]
  generalize f₁ (insertDirty m₁.dirtyKeys key).2 ((m₁.changes.lookup key).getD []) = a at hab ⊢
  generalize f₂ (insertDirty m₁.dirtyKeys key).2 ((m₂.changes.lookup key).getD []) = b at hab ⊢
  cases hab with
  | none => exact .none
  | some hvw => exact .some ⟨rfl, h.numClientTransactions, h.executionMode, rel_insert h.entries key hvw⟩

theorem OverlayedMap.Rel.startTransaction {m₁ : OverlayedMap K V} {m₂ : OverlayedMap K W}
    (h : OverlayedMap.Rel R m₁ m₂) : OverlayedMap.Rel R m₁.startTransaction m₂.startTransaction :=
  ⟨by simp [OverlayedMap.startTransaction, h.dirtyKeys], h.numClientTransactions, h.executionMode, h.entries⟩

/-- The states of two loops of `close_transaction` in step. -/
def CloseRel (R : List V → List W → Prop) (s₁ : AList (fun _ : K => List V) × List (List K))
    (s₂ : AList (fun _ : K => List W) × List (List K)) : Prop :=
  s₁.2 = s₂.2 ∧ ∀ k, Option.Rel R (s₁.1.lookup k) (s₂.1.lookup k)

section Close

variable (hlen : ∀ vs ws, R vs ws → vs.length = ws.length)
  {rollback₁ commit₁ : List V → Option (List V)} {rollback₂ commit₂ : List W → Option (List W)}
  (hr : ∀ vs ws, R vs ws → Option.Rel R (rollback₁ vs) (rollback₂ ws))
  (hc : ∀ vs ws, R vs ws → Option.Rel R (commit₁ vs) (commit₂ ws))
include hlen hr hc

/-- Closing one key keeps two loops in step, when rollbacks and merges keep the versions in step. -/
theorem closeKey_rel (rollback : Bool) (s₁ : AList (fun _ : K => List V) × List (List K))
    (s₂ : AList (fun _ : K => List W) × List (List K)) (key : K) (h : CloseRel R s₁ s₂) :
    Option.Rel (CloseRel R) (closeKey rollback₁ commit₁ rollback s₁ key) (closeKey rollback₂ commit₂ rollback s₂ key) := by
  obtain ⟨hd, he⟩ := h
  have hk := he key
  unfold closeKey
  revert hk
  cases s₁.1.lookup key with
  | none =>
    cases s₂.1.lookup key with
    | none => exact fun _ => .none
    | some _ => exact fun hk => by cases hk
  | some vs =>
    cases s₂.1.lookup key with
    | none => exact fun hk => by cases hk
    | some ws =>
      intro hk
      cases hk with
      | @some _ _ hvw =>
      dsimp only [bind, Option.bind]
      cases rollback with
      | true =>
        rw [if_pos rfl, if_pos rfl]
        have hrr := hr vs ws hvw
        generalize rollback₁ vs = a at hrr ⊢
        generalize rollback₂ ws = b at hrr ⊢
        cases hrr with
        | none => exact .none
        | @some a b hab =>
          have hempty : a.isEmpty = b.isEmpty := by
            have hl := hlen a b hab
            cases a <;> cases b <;> simp_all
          dsimp only [bind, Option.bind, pure]
          rw [hempty]
          refine .some ⟨hd, ?_⟩
          split
          · exact rel_erase he key
          · exact rel_insert he key hab
      | false =>
        rw [if_neg Bool.false_ne_true, if_neg Bool.false_ne_true, ← hd, ← hlen vs ws hvw]
        by_cases hp : (if s₁.2.isEmpty then decide (1 < vs.length) else !(insertDirty s₁.2 key).2) = true
        · rw [if_pos hp, if_pos hp]
          have hcc := hc vs ws hvw
          generalize commit₁ vs = a at hcc ⊢
          generalize commit₂ ws = b at hcc ⊢
          cases hcc with
          | none => exact .none
          | @some a b hab => exact .some ⟨rfl, rel_insert he key hab⟩
        · rw [if_neg hp, if_neg hp]
          exact .some ⟨rfl, he⟩

theorem OverlayedMap.Rel.closeTransactionWith {m₁ : OverlayedMap K V} {m₂ : OverlayedMap K W}
    (h : OverlayedMap.Rel R m₁ m₂) (rollback : Bool) :
    Option.Rel (ResultRel (OverlayedMap.Rel R)) (m₁.closeTransactionWith rollback₁ commit₁ rollback)
      (m₂.closeTransactionWith rollback₂ commit₂ rollback) := by
  have hopen := h.hasOpenRuntimeTransactions
  unfold OverlayedMap.closeTransactionWith
  by_cases hg : m₁.executionMode = .runtime ∧ m₁.hasOpenRuntimeTransactions = false
  · rw [if_pos hg, if_pos (by rwa [← h.executionMode, ← hopen])]
    exact .some trivial
  · rw [if_neg hg, if_neg (by rwa [← h.executionMode, ← hopen]), ← h.dirtyKeys]
    cases m₁.dirtyKeys with
    | nil => exact .some trivial
    | cons dk rest =>
      have hfold := foldlM_rel (closeKey_rel hlen hr hc rollback) dk (m₁.changes, rest) (m₂.changes, rest)
        ⟨rfl, h.entries⟩
      dsimp only
      generalize dk.foldlM (closeKey rollback₁ commit₁ rollback) (m₁.changes, rest) = a at hfold ⊢
      generalize dk.foldlM (closeKey rollback₂ commit₂ rollback) (m₂.changes, rest) = b at hfold ⊢
      cases hfold with
      | none => exact .none
      | @some a b hab => exact .some ⟨hab.1, h.numClientTransactions, h.executionMode, hab.2⟩

/-- The loop of `exit_runtime` keeps two overlays in step. -/
theorem OverlayedMap.Rel.rollbackRuntimeWith : ∀ (fuel : Nat) {m₁ : OverlayedMap K V} {m₂ : OverlayedMap K W},
    OverlayedMap.Rel R m₁ m₂ → Option.Rel (OverlayedMap.Rel R) (m₁.rollbackRuntimeWith rollback₁ commit₁ fuel)
      (m₂.rollbackRuntimeWith rollback₂ commit₂ fuel)
  | 0, _, _, h => .some h
  | fuel + 1, m₁, m₂, h => by
    rw [OverlayedMap.rollbackRuntimeWith, OverlayedMap.rollbackRuntimeWith, ← h.hasOpenRuntimeTransactions]
    by_cases ho : m₁.hasOpenRuntimeTransactions = true
    · rw [if_pos ho, if_pos ho]
      have hcl := OverlayedMap.Rel.closeTransactionWith hlen hr hc h true
      generalize m₁.closeTransactionWith rollback₁ commit₁ true = a at hcl ⊢
      generalize m₂.closeTransactionWith rollback₂ commit₂ true = b at hcl ⊢
      cases hcl with
      | none => exact .none
      | @some a b hab =>
        cases a with
        | ok m₁' =>
          cases b with
          | ok m₂' => exact OverlayedMap.Rel.rollbackRuntimeWith fuel hab
          | error _ => exact (hab : False).elim
        | error _ =>
          cases b with
          | ok _ => exact (hab : False).elim
          | error _ => exact .none
    · rw [if_neg ho, if_neg ho]
      exact .some h

theorem OverlayedMap.Rel.exitRuntimeWith {m₁ : OverlayedMap K V} {m₂ : OverlayedMap K W}
    (h : OverlayedMap.Rel R m₁ m₂) :
    Option.Rel (ResultRel (OverlayedMap.Rel R)) (m₁.exitRuntimeWith rollback₁ commit₁)
      (m₂.exitRuntimeWith rollback₂ commit₂) := by
  unfold OverlayedMap.exitRuntimeWith
  rw [← h.executionMode, ← h.transactionDepth]
  cases m₁.executionMode with
  | client => exact .some trivial
  | runtime =>
    have hclient : OverlayedMap.Rel R { m₁ with executionMode := .client } { m₂ with executionMode := .client } :=
      ⟨h.dirtyKeys, h.numClientTransactions, rfl, h.entries⟩
    have hl := OverlayedMap.Rel.rollbackRuntimeWith hlen hr hc m₁.transactionDepth hclient
    generalize OverlayedMap.rollbackRuntimeWith rollback₁ commit₁ m₁.transactionDepth
      { m₁ with executionMode := .client } = a at hl ⊢
    generalize OverlayedMap.rollbackRuntimeWith rollback₂ commit₂ m₁.transactionDepth
      { m₂ with executionMode := .client } = b at hl ⊢
    cases hl with
    | none => exact .none
    | some hab => exact .some hab

end Close

end Rel

end Map

end CoreChain.Overlay

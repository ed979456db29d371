import CoreChain.Overlay.Append
import CoreChain.Overlay.Naive

/-!
# The changeset keeps one map per transaction

The storage changeset is checked against the reference of `fuzzing.rs`, `SimpleOverlay`: one full map for every
open transaction, with `storage_append` rewriting the whole value. Every sequence of calls (`set`, `append_storage`,
`clear_where`, `start_transaction`, `commit_transaction`, `rollback_transaction` and reads) leaves the changeset
reading as the maps do, and at depth zero `drain_committed` gives the committed map.

The proof goes through the overlay of plain values that `set_offchain` and `close_transaction_offchain` keep.
`Simulates c ms n` says that some values overlay is held by the changeset `ms`, version by version
(`OverlayedMap.Rel (Holds c)`), and holds the maps `n` (`Refines`). Every call keeps it (`Simulates.applyOp`),
hence every run does (`Simulates.runOps`); reads and the drain of a state it holds of are those of the maps.
-/

namespace CoreChain.Overlay

/-! ## The reference -/

/-- `StorageAppend::append`, with which `SimpleOverlay` appends: `append_or_new` adds the element and rewrites the
length; when the value does not start with a length, or the new length does not fit a `u32`, the value becomes
`[value]`, as `sp_io::storage::append` documents. -/
def StorageAppend.append (c : CompactCodec) (current element : List UInt8) : List UInt8 :=
  match c.decode current with
  | some (n, rest) => if n.toNat + 1 < 2 ^ 32 then c.encode (n + 1) ++ rest ++ element else c.encode 1 ++ element
  | none => c.encode 1 ++ element

/-- Below the largest length, the append of the changeset, with its `u32` length that wraps, is
`StorageAppend::append`. -/
theorem StorageAppend.append_eq_appendValue {c : CompactCodec} {current : List UInt8}
    (h : ∀ n rest, c.decode current = some (n, rest) → n.toNat + 1 < 2 ^ 32) (element : List UInt8) :
    StorageAppend.append c current element = appendValue c current element := by
  unfold StorageAppend.append appendValue
  cases hd : c.decode current with
  | none => rfl
  | some r =>
    obtain ⟨n, rest⟩ := r
    exact if_pos (h n rest hd)

section Reference

variable {K : Type _} [DecidableEq K] (append : List UInt8 → List UInt8 → List UInt8)

namespace NaiveOverlay

/-- A call on the maps, with `append` for `storage_append`. An append rewrites the value it finds: the innermost
map's, the backend's when the key was never written, no bytes when it was removed. -/
def applyOp (backend : K → Option (List UInt8)) (n : NaiveOverlay K (Option (List UInt8))) :
    Op K → NaiveOverlay K (Option (List UInt8))
  | .set key value => n.write key value
  | .append key element => n.write key (some (append (((n.top key).getD (backend key)).getD []) element))
  | .clearWhere predicate => n.clear predicate none
  | .startTransaction => n.start
  | .commitTransaction => n.commit
  | .rollbackTransaction => n.rollback
  | .read _ => n

/-- The calls one after the other, from no map written. -/
def runOps (backend : K → Option (List UInt8)) (ops : List (Op K)) : NaiveOverlay K (Option (List UInt8)) :=
  ops.foldl (applyOp append backend) empty

/-- A read: the innermost map's value, or the backend's when the key was never written. -/
def read (backend : K → Option (List UInt8)) (n : NaiveOverlay K (Option (List UInt8))) (key : K) :
    Option (List UInt8) :=
  (n.top key).getD (backend key)

end NaiveOverlay

end Reference

variable {c : CompactCodec}

/-! ## Versions against values -/

namespace Holds

variable {vs : List StorageEntry} {ws : List (Option (List UInt8))}

theorem rollback_rel (h : Holds c vs ws) : Option.Rel (Holds c) (rollbackEntry c vs) (popTransaction ws) := by
  cases vs with
  | nil =>
    cases h
    exact .none
  | cons v vs =>
    obtain ⟨w, ws, rfl⟩ := h.exists_cons
    obtain ⟨vs', hr, h'⟩ := h.rollback
    rw [hr]
    exact .some h'

theorem commit_rel (h : Holds c vs ws) : Option.Rel (Holds c) (commitEntry c vs) (mergeOffchain ws) := by
  cases vs with
  | nil =>
    cases h
    exact .none
  | cons v₀ vs =>
    obtain ⟨w₀, ws, rfl⟩ := h.exists_cons
    have hlen := h.length
    cases vs with
    | nil =>
      obtain rfl : ws = [] := List.eq_nil_of_length_eq_zero (by simpa using hlen.symm)
      exact .none
    | cons v₁ vs =>
      obtain ⟨w₁, ws, rfl⟩ : ∃ w₁ ws', ws = w₁ :: ws' := by
        cases ws with
        | nil => simp at hlen
        | cons w₁ ws => exact ⟨w₁, ws, rfl⟩
      obtain ⟨vs', hm, h'⟩ := h.merge
      rw [hm]
      exact .some h'

end Holds

/-! ## The changeset against the values -/

section Simulation

variable {K : Type _} [DecidableEq K] {ms : OverlayedMap K StorageEntry}
  {mv : OverlayedMap K (Option (List UInt8))} {n : NaiveOverlay K (Option (List UInt8))}

namespace OverlayedMap.Rel

/-- A key the changeset has versions of has the values they hold, newest first, and has some. -/
theorem lookup_cons (h : OverlayedMap.Rel (Holds c) ms mv) (hn : Refines mv n) {key : K}
    {vs : List StorageEntry} (hk : ms.changes.lookup key = some vs) :
    ∃ v vs' w ws, vs = v :: vs' ∧ mv.changes.lookup key = some (w :: ws) ∧ Holds c (v :: vs') (w :: ws) := by
  have hkr := h.entries key
  rw [hk] at hkr
  obtain ⟨ws, hmv, hvw⟩ := rel_some_left hkr
  obtain ⟨w, ws', rfl⟩ := List.exists_cons_of_ne_nil (hn.nonempty key ws hmv)
  obtain ⟨v, vs', rfl⟩ := hvw.exists_cons_left
  exact ⟨v, vs', w, ws', rfl, hmv, hvw⟩

theorem set (h : OverlayedMap.Rel (Holds c) ms mv) (key : K) (value : Option (List UInt8)) :
    Option.Rel (OverlayedMap.Rel (Holds c)) (ms.set c key value) (mv.setOffchain key value) := by
  unfold OverlayedMap.set OverlayedMap.setOffchain
  refine h.writeWith key fun first => ?_
  obtain ⟨vs', hvs', h'⟩ := (rel_getD (h.entries key) Holds.nil).write_set value first
  rw [hvs']
  exact .some h'

/-- `append_storage` writes to the values what the append makes of the newest one. -/
theorem appendStorage (hc : c.Lawful) (h : OverlayedMap.Rel (Holds c) ms mv) (key : K) (element init : List UInt8) :
    Option.Rel (OverlayedMap.Rel (Holds c)) (ms.appendStorage c key element init)
      (mv.setOffchain key (some (appendValue c (currentValue init ((mv.changes.lookup key).getD [])) element))) := by
  unfold OverlayedMap.appendStorage OverlayedMap.setOffchain
  exact h.writeWith key fun first => .some ((rel_getD (h.entries key) Holds.nil).write_append hc element init first)

theorem closeTransaction (h : OverlayedMap.Rel (Holds c) ms mv) (rollback : Bool) :
    Option.Rel (ResultRel (OverlayedMap.Rel (Holds c))) (ms.closeTransaction c rollback)
      (mv.closeTransactionOffchain rollback) :=
  OverlayedMap.Rel.closeTransactionWith (fun _ _ hv => hv.length) (fun _ _ hv => hv.rollback_rel)
    (fun _ _ hv => hv.commit_rel) h rollback

/-- A read gives the innermost map's value, and the changeset it leaves, materialized, still holds the values. -/
theorem storage (h : OverlayedMap.Rel (Holds c) ms mv) (hn : Refines mv n) (key : K) :
    ∃ ms', ms.storage c key = some (n.top key, ms') ∧ OverlayedMap.Rel (Holds c) ms' mv := by
  cases hms : ms.changes.lookup key with
  | none =>
    have hmv : mv.changes.lookup key = none := by
      have hkr := h.entries key
      rw [hms] at hkr
      exact rel_none_left hkr
    have htop : n.top key = none := by rw [hn.lookup_head key, hmv]; rfl
    refine ⟨ms, ?_, h⟩
    simp [OverlayedMap.storage, OverlayedMap.get, hms, htop]
  | some vs =>
    obtain ⟨v, vs', w, ws, rfl, hmv, hvw⟩ := h.lookup_cons hn hms
    have htop : n.top key = some w := by rw [hn.lookup_head key, hmv]; rfl
    refine ⟨{ ms with changes := ms.changes.insert key (v.materializeInPlace c :: vs') }, ?_, ?_⟩
    · simp [OverlayedMap.storage, OverlayedMap.get, hms, entryValue, htop, hvw.toOption]
    · refine ⟨h.dirtyKeys, h.numClientTransactions, h.executionMode, fun k => ?_⟩
      by_cases hk : k = key
      · subst hk
        rw [AList.lookup_insert, hmv]
        exact .some hvw.materializeInPlace
      · rw [AList.lookup_insert_ne hk]
        exact h.entries k

end OverlayedMap.Rel

/-- One key of `clear_where` against clearing the values: both clear the key or neither does, while the values
hold some maps. -/
theorem clearKey_simulates (predicate : K → Bool) (st : Nat × OverlayedMap K StorageEntry)
    (mv : OverlayedMap K (Option (List UInt8))) (key : K)
    (h : OverlayedMap.Rel (Holds c) st.2 mv ∧ ∃ n : NaiveOverlay K (Option (List UInt8)), Refines mv n) :
    Option.Rel (fun st mv => OverlayedMap.Rel (Holds c) st.2 mv ∧ ∃ n : NaiveOverlay K _, Refines mv n)
      (OverlayedMap.clearKey c (fun k _ => predicate k) st key)
      (if (mv.changes.lookup key).isSome && predicate key then mv.setOffchain key none else some mv) := by
  obtain ⟨hr, n, hn⟩ := h
  unfold OverlayedMap.clearKey
  cases hms : st.2.changes.lookup key with
  | none =>
    have hkr := hr.entries key
    rw [hms] at hkr
    rw [rel_none_left hkr]
    exact .some ⟨hr, n, hn⟩
  | some vs =>
    obtain ⟨v, vs', w, ws, rfl, hmv, -⟩ := hr.lookup_cons hn hms
    rw [hmv, Option.isSome_some, Bool.true_and]
    dsimp only
    by_cases hp : predicate key = true
    · rw [if_pos hp, if_pos hp]
      obtain ⟨mv', hmv', hn'⟩ := hn.setOffchain key none
      have hs := hr.set key none
      rw [hmv'] at hs
      obtain ⟨ms', hms', hr'⟩ := rel_some_right hs
      simp only [List.head?_cons, hms', hmv', Option.bind_eq_bind, Option.bind_some, Option.pure_def]
      exact .some ⟨hr', n.write key none, hn'⟩
    · rw [if_neg hp, if_neg hp]
      exact .some ⟨hr, n, hn⟩

/-- `clear_where` with a predicate on keys clears the values of the keys of the changeset. -/
theorem OverlayedMap.Rel.clearWhere (h : OverlayedMap.Rel (Holds c) ms mv) (hn : Refines mv n)
    (predicate : K → Bool) :
    ∃ r mv', ms.clearWhere c (fun k _ => predicate k) = some r ∧ OverlayedMap.Rel (Holds c) r.2 mv' ∧
      Refines mv' (n.clear predicate none) ∧ mv'.executionMode = mv.executionMode ∧
      mv'.numClientTransactions = mv.numClientTransactions := by
  -- the loop runs over the keys of the changeset, which are the keys of the values
  have hkeys : ∀ k, (mv.changes.lookup k).isSome → k ∈ ms.changes.keys := by
    intro k hk
    rw [← AList.mem_keys, ← AList.lookup_isSome, isSome_eq_of_rel (h.entries k)]
    exact hk
  obtain ⟨mv', hmv', hn'⟩ := hn.clearWith ms.changes.keys hkeys predicate none
  have hmode := OverlayedMap.clearWith_executionMode hmv'
  have hfold := foldlM_rel (clearKey_simulates predicate) ms.changes.keys (0, ms) mv ⟨h, n, hn⟩
  unfold OverlayedMap.clearWith at hmv'
  rw [hmv'] at hfold
  obtain ⟨r, hr, hrel, -⟩ := rel_some_right hfold
  exact ⟨r, mv', hr, hrel, hn', hmode⟩

/-! ## The changeset against the maps -/

/-- The changeset `ms` holds the maps `n`: it holds, version by version, an overlay of values that holds them, and
the client is in control. -/
def Simulates (c : CompactCodec) (ms : OverlayedMap K StorageEntry) (n : NaiveOverlay K (Option (List UInt8))) :
    Prop :=
  ∃ mv, OverlayedMap.Rel (Holds c) ms mv ∧ Refines mv n ∧ mv.executionMode = .client

theorem simulates_empty : Simulates c (OverlayedMap.empty : OverlayedMap K StorageEntry) NaiveOverlay.empty :=
  ⟨OverlayedMap.empty, ⟨rfl, rfl, rfl, fun _ => .none⟩, refines_empty, rfl⟩

namespace Simulates

/-- A write that the values overlay makes in step with the changeset is the maps' write. -/
theorem of_setOffchain (hn : Refines mv n) (hcl : mv.executionMode = .client) {a : Option (OverlayedMap K StorageEntry)}
    {key : K} {value : Option (List UInt8)} (hs : Option.Rel (OverlayedMap.Rel (Holds c)) a (mv.setOffchain key value)) :
    ∃ ms', a = some ms' ∧ Simulates c ms' (n.write key value) := by
  obtain ⟨mv', hmv', hn'⟩ := hn.setOffchain key value
  have hmode := (OverlayedMap.writeWith_numClientTransactions hmv').2
  rw [hmv'] at hs
  obtain ⟨ms', hms', hr'⟩ := rel_some_right hs
  exact ⟨ms', hms', mv', hr', hn', hmode.trans hcl⟩

theorem clearWhere (h : Simulates c ms n) (predicate : K → Bool) :
    ∃ r, ms.clearWhere c (fun k _ => predicate k) = some r ∧ Simulates c r.2 (n.clear predicate none) := by
  obtain ⟨mv, hr, hn, hcl⟩ := h
  obtain ⟨r, mv', hms, hr', hn', hmode, -⟩ := hr.clearWhere hn predicate
  exact ⟨r, hms, mv', hr', hn', hmode.trans hcl⟩

/-- A commit or a rollback is the maps': a failed one, with no transaction open, keeps the changeset as it is, and
the maps have nothing to close. -/
theorem closeTransaction (h : Simulates c ms n) (rollback : Bool) :
    ∃ ms', (ms.closeTransaction c rollback).map (fun r => r.toOption.getD ms) = some ms' ∧
      Simulates c ms' (if rollback then n.rollback else n.commit) := by
  obtain ⟨mv, hr, hn, hcl⟩ := h
  have hrel := hr.closeTransaction rollback
  cases hd : mv.dirtyKeys with
  | nil =>
    obtain ⟨hv, hcommit, hrollback⟩ := hn.closeTransactionOffchain_none_open hd rollback
    rw [hv] at hrel
    obtain ⟨r, hms, hres⟩ := rel_some_right hrel
    obtain ⟨e, rfl⟩ := resultRel_error_right hres
    refine ⟨ms, by rw [hms]; rfl, mv, hr, ?_, hcl⟩
    cases rollback
    · rw [if_neg Bool.false_ne_true, hcommit]
      exact hn
    · rw [if_pos rfl, hrollback]
      exact hn
  | cons dk rest =>
    have hguard : ¬(mv.executionMode = .runtime ∧ mv.hasOpenRuntimeTransactions = false) := by
      rw [hcl]
      exact fun hg => nomatch hg.1
    obtain ⟨mv', hv, hn', -, -, hmode⟩ := hn.closeTransactionOffchain hd hguard rollback
    rw [hv] at hrel
    obtain ⟨r, hms, hres⟩ := rel_some_right hrel
    obtain ⟨ms', rfl, hr'⟩ := resultRel_ok_right hres
    exact ⟨ms', by rw [hms]; rfl, mv', hr', hn', hmode.trans hcl⟩

/-- A read gives what the maps read, and keeps the changeset holding them. -/
theorem storage (h : Simulates c ms n) (backend : K → Option (List UInt8)) (key : K) :
    ∃ ms', Ext.storage c backend ms key = some (n.read backend key, ms') ∧ Simulates c ms' n := by
  obtain ⟨mv, hr, hn, hcl⟩ := h
  obtain ⟨ms', hms', hr'⟩ := hr.storage hn key
  exact ⟨ms', by simp [Ext.storage, hms', NaiveOverlay.read], mv, hr', hn, hcl⟩

/-- The step lemma: every call keeps the changeset holding the maps. -/
theorem applyOp (hc : c.Lawful) (backend : K → Option (List UInt8)) (h : Simulates c ms n) (op : Op K) :
    ∃ ms', Overlay.applyOp c backend ms op = some ms' ∧ Simulates c ms' (n.applyOp (appendValue c) backend op) := by
  cases op with
  | set key value =>
    obtain ⟨mv, hr, hn, hcl⟩ := h
    exact of_setOffchain hn hcl (hr.set key value)
  | append key element =>
    obtain ⟨mv, hr, hn, hcl⟩ := h
    -- the changeset appends to its newest value or to the backend's, as the maps do
    have hcur : currentValue ((backend key).getD []) ((mv.changes.lookup key).getD []) =
        ((n.top key).getD (backend key)).getD [] := by
      rw [hn.lookup_head key]
      cases (mv.changes.lookup key).getD [] <;> rfl
    have hs := hr.appendStorage hc key element ((backend key).getD [])
    rw [hcur] at hs
    exact of_setOffchain hn hcl hs
  | clearWhere predicate =>
    obtain ⟨r, hr, h'⟩ := h.clearWhere predicate
    exact ⟨r.2, by simp [Overlay.applyOp, hr], h'⟩
  | startTransaction =>
    obtain ⟨mv, hr, hn, hcl⟩ := h
    exact ⟨_, rfl, mv.startTransaction, hr.startTransaction, hn.startTransaction, hcl⟩
  | commitTransaction => exact h.closeTransaction false
  | rollbackTransaction => exact h.closeTransaction true
  | read key =>
    obtain ⟨ms', hms', h'⟩ := h.storage backend key
    exact ⟨ms', by simp [Overlay.applyOp, hms'], h'⟩

/-- The run lemma: every run keeps the changeset holding the maps. -/
theorem runOps (hc : c.Lawful) (backend : K → Option (List UInt8)) (ops : List (Op K)) :
    ∃ ms, Overlay.runOps c backend ops = some ms ∧ Simulates c ms (NaiveOverlay.runOps (appendValue c) backend ops) :=
  foldlM_simulates (fun _ _ op h => h.applyOp hc backend op) ops _ _ simulates_empty

/-- With no transaction open, `drain_committed` gives, materialized, the committed map. -/
theorem drainCommitted (h : Simulates c ms n) (hd : ms.transactionDepth = 0) :
    ∃ l, ms.drainCommitted = some l ∧ ∀ key, (l.lookup key).map (StorageEntry.toOption c) = n.committed key := by
  obtain ⟨mv, hr, hn, -⟩ := h
  have hne : ∀ k vs, ms.changes.lookup k = some vs → vs ≠ [] := by
    intro k vs hk
    obtain ⟨v, vs', -, -, rfl, -, -⟩ := hr.lookup_cons hn hk
    exact List.cons_ne_nil v vs'
  obtain ⟨l, hl, hk⟩ := OverlayedMap.drainCommitted_eq hd hne
  have hb : n.below = [] := by
    have hdepth := hn.depth
    rw [← hr.transactionDepth, hd] at hdepth
    exact List.eq_nil_of_length_eq_zero hdepth
  refine ⟨l, hl, fun key => ?_⟩
  rw [hk key, NaiveOverlay.committed_of_below_nil hb, hn.lookup_head key]
  cases hms : ms.changes.lookup key with
  | none =>
    have hkr := hr.entries key
    rw [hms] at hkr
    rw [rel_none_left hkr]
    rfl
  | some vs =>
    obtain ⟨v, vs', w, ws, rfl, hmv, hvw⟩ := hr.lookup_cons hn hms
    rw [hmv]
    exact congrArg some hvw.toOption

end Simulates

/-- The changeset refines the maps: after any calls, every key reads, materialized, as the maps say, and at depth
zero the drained changes, materialized, are the committed map. -/
theorem changeset_refines_naive (hc : c.Lawful) (backend : K → Option (List UInt8)) (ops : List (Op K)) :
    ∃ ms, runOps c backend ops = some ms ∧
      (∀ key, ∃ ms', Ext.storage c backend ms key = some ((NaiveOverlay.runOps (appendValue c) backend ops).read backend key, ms')) ∧
      (ms.transactionDepth = 0 → ∃ l, ms.drainCommitted = some l ∧
        ∀ key, (l.lookup key).map (StorageEntry.toOption c) = (NaiveOverlay.runOps (appendValue c) backend ops).committed key) := by
  obtain ⟨ms, hms, h⟩ := Simulates.runOps hc backend ops
  refine ⟨ms, hms, fun key => ?_, h.drainCommitted⟩
  obtain ⟨ms', hread, -⟩ := h.storage backend key
  exact ⟨ms', hread⟩

/-- A value that starts with the length `u32::MAX`: the changeset's append wraps the length to `0`, where
`StorageAppend::append` fails and gives the list of the element alone. -/
theorem storageAppend_length_overflow (element : List UInt8) :
    ((runOps scaleCompact (fun _ : Nat => some [3, 255, 255, 255, 255]) [.append 0 element]).bind fun ms =>
        (Ext.storage scaleCompact (fun _ : Nat => some [3, 255, 255, 255, 255]) ms 0).map Prod.fst) =
      some (some (0 :: element)) ∧
    (NaiveOverlay.runOps (StorageAppend.append scaleCompact) (fun _ : Nat => some [3, 255, 255, 255, 255])
        [.append 0 element]).read (fun _ : Nat => some [3, 255, 255, 255, 255]) 0 = some (4 :: element) := by
  constructor
  · rfl
  · rfl

end Simulation

end CoreChain.Overlay

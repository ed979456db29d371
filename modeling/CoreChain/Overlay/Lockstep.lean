import CoreChain.Overlay.Changes
import CoreChain.Overlay.Refinement

/-!
# The changesets of the overlayed changes move in lockstep

`OverlayedChanges` keeps its top changeset, its child changesets and its offchain overlay at one transaction
depth, with one count of client transactions and one mode, and starts, closes, enters and leaves the runtime on all
of them together; the `expect`s of `mod.rs` say that the others then cannot fail.

`OverlayedChanges.Sound` is the invariant that makes this true. Every storage changeset is `Consistent`: it holds,
version by version, an overlay of values that lays out some maps, so a dirty key has a version for every
transaction that wrote it and an `Append` that took its parent's buffer has that parent. The offchain overlay lays
out some maps. All of them are in `Lockstep` with the top changeset, and in runtime mode the client's transactions
are open. Every call keeps it (`Sound.applyOp`), so every run does (`Sound.runOps`) and no `expect` fires. In
runtime mode a close fails when only the client's transactions are open (`Sound.closeTransaction_client`), and
leaving the runtime rolls back exactly what was opened since entering it (`Sound.runtime_segment`).
-/

namespace CoreChain.Overlay

variable {c : CompactCodec} {K : Type _}

/-! ## Overlays in lockstep -/

section Lockstep

variable {V K' V' K'' V'' : Type _}

/-- Two overlays at one depth, with the same client transactions and in the same mode. -/
structure OverlayedMap.Lockstep (m : OverlayedMap K V) (m' : OverlayedMap K' V') : Prop where
  transactionDepth : m.transactionDepth = m'.transactionDepth
  numClientTransactions : m.numClientTransactions = m'.numClientTransactions
  executionMode : m.executionMode = m'.executionMode

namespace OverlayedMap.Lockstep

variable {m : OverlayedMap K V} {m' : OverlayedMap K' V'} {m'' : OverlayedMap K'' V''}

theorem refl (m : OverlayedMap K V) : OverlayedMap.Lockstep m m :=
  ⟨rfl, rfl, rfl⟩

theorem symm (h : OverlayedMap.Lockstep m m') : OverlayedMap.Lockstep m' m :=
  ⟨h.transactionDepth.symm, h.numClientTransactions.symm, h.executionMode.symm⟩

theorem trans (h : OverlayedMap.Lockstep m m') (h' : OverlayedMap.Lockstep m' m'') : OverlayedMap.Lockstep m m'' :=
  ⟨h.transactionDepth.trans h'.transactionDepth, h.numClientTransactions.trans h'.numClientTransactions,
    h.executionMode.trans h'.executionMode⟩

theorem startTransaction (h : OverlayedMap.Lockstep m m') :
    OverlayedMap.Lockstep m.startTransaction m'.startTransaction := by
  refine ⟨?_, h.numClientTransactions, h.executionMode⟩
  simpa [OverlayedMap.startTransaction, OverlayedMap.transactionDepth] using h.transactionDepth

/-- The runtime may close a transaction of one exactly when it may close one of the other. -/
theorem guard_iff (h : OverlayedMap.Lockstep m m') :
    (m.executionMode = .runtime ∧ m.hasOpenRuntimeTransactions = false) ↔
      (m'.executionMode = .runtime ∧ m'.hasOpenRuntimeTransactions = false) := by
  unfold OverlayedMap.hasOpenRuntimeTransactions
  rw [h.executionMode, h.numClientTransactions, h.transactionDepth]

/-- Overlays in lockstep, each with a transaction open, keep the same number of the others. -/
theorem length_rest (h : OverlayedMap.Lockstep m m') {dk : List K} {rest : List (List K)} {dk' : List K'}
    {rest' : List (List K')} (hd : m.dirtyKeys = dk :: rest) (hd' : m'.dirtyKeys = dk' :: rest') :
    rest.length = rest'.length := by
  have hdepth := h.transactionDepth
  simp only [OverlayedMap.transactionDepth, hd, hd', List.length_cons] at hdepth
  omega

/-- Overlays in lockstep that each closed one transaction, with the same client transactions and mode, are in
lockstep. -/
theorem close (h : OverlayedMap.Lockstep m m') {dk : List K} {rest : List (List K)} {dk' : List K'}
    {rest' : List (List K')} (hd : m.dirtyKeys = dk :: rest) (hd' : m'.dirtyKeys = dk' :: rest')
    {r : OverlayedMap K V} {r' : OverlayedMap K' V'}
    (hr : r.transactionDepth = rest.length ∧ r.numClientTransactions = m.numClientTransactions ∧
      r.executionMode = m.executionMode)
    (hr' : r'.transactionDepth = rest'.length ∧ r'.numClientTransactions = m'.numClientTransactions ∧
      r'.executionMode = m'.executionMode) : OverlayedMap.Lockstep r r' :=
  ⟨by rw [hr.1, hr'.1, h.length_rest hd hd'], by rw [hr.2.1, hr'.2.1, h.numClientTransactions],
    by rw [hr.2.2, hr'.2.2, h.executionMode]⟩

/-- Overlays in lockstep that each rolled back the runtime's transactions and went back to client mode are in
lockstep. -/
theorem exit (h : OverlayedMap.Lockstep m m') {r : OverlayedMap K V} {r' : OverlayedMap K' V'}
    (hr : r.transactionDepth = min m.transactionDepth m.numClientTransactions ∧
      r.numClientTransactions = m.numClientTransactions ∧ r.executionMode = .client)
    (hr' : r'.transactionDepth = min m'.transactionDepth m'.numClientTransactions ∧
      r'.numClientTransactions = m'.numClientTransactions ∧ r'.executionMode = .client) :
    OverlayedMap.Lockstep r r' :=
  ⟨by rw [hr.1, hr'.1, h.transactionDepth, h.numClientTransactions], by rw [hr.2.1, hr'.2.1, h.numClientTransactions],
    by rw [hr.2.2, hr'.2.2]⟩

end OverlayedMap.Lockstep

theorem OverlayedMap.lockstep_spawnChild (m : OverlayedMap K V) : OverlayedMap.Lockstep m.spawnChild m :=
  ⟨by simp [OverlayedMap.spawnChild, OverlayedMap.transactionDepth], rfl, rfl⟩

theorem OverlayedMap.exists_dirtyKeys_cons {m : OverlayedMap K V} (h : 0 < m.transactionDepth) :
    ∃ dk rest, m.dirtyKeys = dk :: rest := by
  unfold OverlayedMap.transactionDepth at h
  cases hd : m.dirtyKeys with
  | nil => simp [hd] at h
  | cons dk rest => exact ⟨dk, rest, rfl⟩

end Lockstep

variable [DecidableEq K]

theorem OverlayedMap.lockstep_writeWith {V : Type _} {m m' : OverlayedMap K V} {key : K}
    {f : Bool → List V → Option (List V)} (h : m.writeWith key f = some m') : OverlayedMap.Lockstep m' m :=
  ⟨OverlayedMap.transactionDepth_writeWith h, (OverlayedMap.writeWith_numClientTransactions h).1,
    (OverlayedMap.writeWith_numClientTransactions h).2⟩

/-! ## One storage changeset -/

/-- A storage changeset holds, version by version, an overlay of values that lays out some maps. -/
def Consistent (c : CompactCodec) (ms : OverlayedMap K StorageEntry) : Prop :=
  ∃ (mv : OverlayedMap K (Option (List UInt8))) (n : NaiveOverlay K (Option (List UInt8))),
    OverlayedMap.Rel (Holds c) ms mv ∧ Refines mv n

theorem consistent_empty : Consistent c (OverlayedMap.empty : OverlayedMap K StorageEntry) :=
  ⟨OverlayedMap.empty, NaiveOverlay.empty, ⟨rfl, rfl, rfl, fun _ => .none⟩, refines_empty⟩

/-- The changeset `ms` lays out the maps `n`: it holds, version by version, an overlay of values that holds them. -/
def LaysOut (c : CompactCodec) (ms : OverlayedMap K StorageEntry) (n : NaiveOverlay K (Option (List UInt8))) : Prop :=
  ∃ mv, OverlayedMap.Rel (Holds c) ms mv ∧ Refines mv n

/-- `m'` lays out, as `L` reads an overlay, the maps of `m` with `k` transactions rolled back; `m` lays out some. -/
def RollsBack {M K' W : Type _} (L : M → NaiveOverlay K' W → Prop) (k : Nat) (m m' : M) : Prop :=
  (∃ n, L m n) ∧ ∀ n, L m n → L m' (NaiveOverlay.rollback^[k] n)

/-- A call with one result that takes each of the maps laid out to its rollback rolls back. -/
theorem rollsBack_of_call {M K' W E : Type _} {L : M → NaiveOverlay K' W → Prop} {k : Nat} {m m' : M}
    (call : M → Option (Except E M)) (hm' : call m = some (.ok m')) (hex : ∃ n, L m n)
    (h : ∀ n, L m n → ∃ m'', call m = some (.ok m'') ∧ L m'' (NaiveOverlay.rollback^[k] n)) :
    RollsBack L k m m' := by
  refine ⟨hex, fun n hn => ?_⟩
  obtain ⟨m'', hm'', hl⟩ := h n hn
  rw [hm', Option.some.injEq, Except.ok.injEq] at hm''
  subst hm''
  exact hl

/-- Leaving the runtime rolls back, in the maps a changeset lays out, the transactions the runtime left open. -/
theorem LaysOut.exitRuntime {ms : OverlayedMap K StorageEntry} {n : NaiveOverlay K (Option (List UInt8))}
    (h : LaysOut c ms n) (hrt : ms.executionMode = .runtime) :
    ∃ ms', ms.exitRuntime c = some (.ok ms') ∧
      LaysOut c ms' (NaiveOverlay.rollback^[ms.transactionDepth - ms.numClientTransactions] n) ∧
      ms'.transactionDepth = min ms.transactionDepth ms.numClientTransactions ∧
      ms'.numClientTransactions = ms.numClientTransactions ∧ ms'.executionMode = .client := by
  obtain ⟨mv, hr, hn⟩ := h
  obtain ⟨mv', hmv', hn', hdepth, hnum, hmode⟩ := hn.exitRuntimeOffchain (hr.executionMode.symm.trans hrt)
  have hrel := OverlayedMap.Rel.exitRuntimeWith (fun _ _ hv => hv.length) (fun _ _ hv => hv.rollback_rel)
    (fun _ _ hv => hv.commit_rel) hr
  rw [show mv.exitRuntimeWith popTransaction mergeOffchain = some (.ok mv') from hmv'] at hrel
  obtain ⟨r, hms, hres⟩ := rel_some_right hrel
  obtain ⟨ms', rfl, hr'⟩ := resultRel_ok_right hres
  have hk : ms.transactionDepth - ms.numClientTransactions = mv.transactionDepth - mv.numClientTransactions := by
    rw [hr.transactionDepth, hr.numClientTransactions]
  refine ⟨ms', hms, ⟨mv', hr', hk ▸ hn'⟩, ?_, ?_, ?_⟩
  · rw [hr'.transactionDepth, hdepth, hr.transactionDepth, hr.numClientTransactions]
  · rw [hr'.numClientTransactions, hnum, hr.numClientTransactions]
  · rw [hr'.executionMode, hmode]

namespace Consistent

variable {ms : OverlayedMap K StorageEntry}

theorem spawnChild (h : Consistent c ms) : Consistent c ms.spawnChild := by
  obtain ⟨mv, n, hr, -⟩ := h
  exact ⟨mv.spawnChild, _, hr.spawnChild, refines_spawnChild mv⟩

/-- Every transaction that wrote a key holds a version of it. -/
theorem count_dirty_le (h : Consistent c ms) (key : K) :
    ms.dirtyKeys.countP (fun dk => decide (key ∈ dk)) ≤ ((ms.changes.lookup key).getD []).length := by
  obtain ⟨mv, n, hr, hn⟩ := h
  have hlen : ((ms.changes.lookup key).getD []).length = ((mv.changes.lookup key).getD []).length :=
    (rel_getD (hr.entries key) Holds.nil).length
  rw [hr.dirtyKeys, hlen]
  exact hn.count_dirty_le key

theorem set (h : Consistent c ms) (key : K) (value : Option (List UInt8)) :
    ∃ ms', ms.set c key value = some ms' ∧ Consistent c ms' ∧ OverlayedMap.Lockstep ms' ms := by
  obtain ⟨mv, n, hr, hn⟩ := h
  obtain ⟨mv', hmv', hn'⟩ := hn.setOffchain key value
  have hs := hr.set key value
  rw [hmv'] at hs
  obtain ⟨ms', hms', hr'⟩ := rel_some_right hs
  exact ⟨ms', hms', ⟨mv', _, hr', hn'⟩, OverlayedMap.lockstep_writeWith hms'⟩

theorem appendStorage (hc : c.Lawful) (h : Consistent c ms) (key : K) (element init : List UInt8) :
    ∃ ms', ms.appendStorage c key element init = some ms' ∧ Consistent c ms' ∧ OverlayedMap.Lockstep ms' ms := by
  obtain ⟨mv, n, hr, hn⟩ := h
  obtain ⟨mv', hmv', hn'⟩ := hn.setOffchain key
    (some (appendValue c (currentValue init ((mv.changes.lookup key).getD [])) element))
  have hs := hr.appendStorage hc key element init
  rw [hmv'] at hs
  obtain ⟨ms', hms', hr'⟩ := rel_some_right hs
  exact ⟨ms', hms', ⟨mv', _, hr', hn'⟩, OverlayedMap.lockstep_writeWith hms'⟩

theorem clearWhere (h : Consistent c ms) (predicate : K → Bool) :
    ∃ r, ms.clearWhere c (fun k _ => predicate k) = some r ∧ Consistent c r.2 ∧ OverlayedMap.Lockstep r.2 ms := by
  obtain ⟨mv, n, hr, hn⟩ := h
  obtain ⟨r, mv', hms, hr', hn', hmode, hnum⟩ := hr.clearWhere hn predicate
  refine ⟨r, hms, ⟨mv', _, hr', hn'⟩, ⟨?_, ?_, ?_⟩⟩
  · -- clearing keeps the maps, so it keeps the depth
    rw [hr'.transactionDepth, ← hn'.depth, hr.transactionDepth, ← hn.depth]
    rfl
  · rw [hr'.numClientTransactions, hnum, hr.numClientTransactions]
  · rw [hr'.executionMode, hmode, hr.executionMode]

theorem startTransaction (h : Consistent c ms) : Consistent c ms.startTransaction := by
  obtain ⟨mv, n, hr, hn⟩ := h
  exact ⟨mv.startTransaction, n.start, hr.startTransaction, hn.startTransaction⟩

/-- A close that the runtime may make, with a transaction open, succeeds. -/
theorem closeTransaction (h : Consistent c ms) {dk : List K} {rest : List (List K)}
    (hd : ms.dirtyKeys = dk :: rest)
    (hguard : ¬(ms.executionMode = .runtime ∧ ms.hasOpenRuntimeTransactions = false)) (rollback : Bool) :
    ∃ ms', ms.closeTransaction c rollback = some (.ok ms') ∧ Consistent c ms' ∧
      ms'.transactionDepth = rest.length ∧ ms'.numClientTransactions = ms.numClientTransactions ∧
      ms'.executionMode = ms.executionMode := by
  obtain ⟨mv, n, hr, hn⟩ := h
  have hguard' : ¬(mv.executionMode = .runtime ∧ mv.hasOpenRuntimeTransactions = false) := by
    rwa [← hr.executionMode, ← hr.hasOpenRuntimeTransactions]
  obtain ⟨mv', hmv', hn', hdepth, hnum, hmode⟩ :=
    hn.closeTransactionOffchain (hr.dirtyKeys.symm.trans hd) hguard' rollback
  have hrel := hr.closeTransaction rollback
  rw [hmv'] at hrel
  obtain ⟨r, hms, hres⟩ := rel_some_right hrel
  obtain ⟨ms', rfl, hr'⟩ := resultRel_ok_right hres
  refine ⟨ms', hms, ⟨mv', _, hr', hn'⟩, ?_, ?_, ?_⟩
  · rw [hr'.transactionDepth, hdepth]
  · rw [hr'.numClientTransactions, hnum, hr.numClientTransactions]
  · rw [hr'.executionMode, hmode, hr.executionMode]

theorem enterRuntime (h : Consistent c ms) :
    Consistent c { ms with executionMode := .runtime, numClientTransactions := ms.transactionDepth } := by
  obtain ⟨mv, n, hr, hn⟩ := h
  exact ⟨{ mv with executionMode := .runtime, numClientTransactions := mv.transactionDepth }, n,
    ⟨hr.dirtyKeys, hr.transactionDepth, rfl, hr.entries⟩, hn.of_eq rfl rfl⟩

/-- Leaving the runtime rolls back the transactions the runtime left open. -/
theorem exitRuntime (h : Consistent c ms) (hrt : ms.executionMode = .runtime) :
    ∃ ms', ms.exitRuntime c = some (.ok ms') ∧ Consistent c ms' ∧
      RollsBack (LaysOut c) (ms.transactionDepth - ms.numClientTransactions) ms ms' ∧
      ms'.transactionDepth = min ms.transactionDepth ms.numClientTransactions ∧
      ms'.numClientTransactions = ms.numClientTransactions ∧ ms'.executionMode = .client := by
  obtain ⟨mv, n, hr, hn⟩ := h
  obtain ⟨ms', hms, ⟨mv', hr', hn'⟩, htail⟩ := LaysOut.exitRuntime ⟨mv, hr, hn⟩ hrt
  refine ⟨ms', hms, ⟨mv', _, hr', hn'⟩, rollsBack_of_call (fun ms => ms.exitRuntime c) hms ⟨n, mv, hr, hn⟩
    fun n' hn'' => ?_, htail⟩
  obtain ⟨ms'', hms'', hlays, -⟩ := LaysOut.exitRuntime hn'' hrt
  exact ⟨ms'', hms'', hlays⟩

end Consistent

/-! ## The invariant of the overlayed changes -/

/-- The changesets are consistent and in lockstep with the top one, the offchain overlay lays out some maps and is
in lockstep too, and in runtime mode the client's transactions are open. -/
structure OverlayedChanges.Sound (c : CompactCodec) (s : OverlayedChanges K) : Prop where
  top : Consistent c s.top
  children : ∀ p ∈ s.children, Consistent c p.2 ∧ OverlayedMap.Lockstep p.2 s.top
  offchain : ∃ n, Refines s.offchain n
  offchainLockstep : OverlayedMap.Lockstep s.offchain s.top
  runtime : s.top.executionMode = .runtime → s.top.numClientTransactions ≤ s.top.transactionDepth

/-- `s'` holds the changes of `s` with `k` transactions rolled back: in the top changeset, in the child changeset
under each storage key, and in the offchain overlay. -/
structure OverlayedChanges.RolledBack (c : CompactCodec) (k : Nat) (s s' : OverlayedChanges K) : Prop where
  top : RollsBack (LaysOut c) k s.top s'.top
  children : List.Forall₂ (fun p q => p.1 = q.1 ∧ RollsBack (LaysOut c) k p.2 q.2) s.children s'.children
  offchain : RollsBack Refines k s.offchain s'.offchain

/-- A call made in runtime mode stays there, with the same client transactions. -/
def OverlayedChanges.StaysInRuntime (s s' : OverlayedChanges K) : Prop :=
  s.top.executionMode = .runtime →
    s'.top.executionMode = .runtime ∧ s'.top.numClientTransactions = s.top.numClientTransactions

namespace OverlayedChanges

variable {s : OverlayedChanges K}

omit [DecidableEq K] in
theorem staysInRuntime_refl (s : OverlayedChanges K) : StaysInRuntime s s :=
  fun hrt => ⟨hrt, rfl⟩

omit [DecidableEq K] in
theorem staysInRuntime_of_lockstep {s' : OverlayedChanges K} (h : OverlayedMap.Lockstep s'.top s.top) :
    StaysInRuntime s s' :=
  fun hrt => ⟨h.executionMode.trans hrt, h.numClientTransactions⟩

/-- In runtime mode with only the client's transactions open, or with none open, a close fails at the top changeset,
before it touches the others. -/
theorem closeTransaction_error
    (hg : (s.top.executionMode = .runtime ∧ s.top.hasOpenRuntimeTransactions = false) ∨ s.top.dirtyKeys = []) :
    s.commitTransaction c = some (.error ⟨⟩) ∧ s.rollbackTransaction c = some (.error ⟨⟩) := by
  constructor
  · simp only [commitTransaction, OverlayedMap.commitTransaction, OverlayedMap.closeTransaction,
      OverlayedMap.closeTransactionWith_error hg]
  · simp only [rollbackTransaction, OverlayedMap.rollbackTransaction, OverlayedMap.closeTransaction,
      OverlayedMap.closeTransactionWith_error hg]

theorem sound_empty : Sound c (empty : OverlayedChanges K) where
  top := consistent_empty
  children _ hp := absurd hp List.not_mem_nil
  offchain := ⟨NaiveOverlay.empty, refines_empty⟩
  offchainLockstep := ⟨rfl, rfl, rfl⟩
  runtime h := nomatch h

namespace Sound

/-- A new top changeset in lockstep with the old one. -/
theorem withTop (h : Sound c s) {top : OverlayedMap K StorageEntry} (hc : Consistent c top)
    (hl : OverlayedMap.Lockstep top s.top) : Sound c { s with top } where
  top := hc
  children p hp := ⟨(h.children p hp).1, (h.children p hp).2.trans hl.symm⟩
  offchain := h.offchain
  offchainLockstep := h.offchainLockstep.trans hl.symm
  runtime hrt := by
    show top.numClientTransactions ≤ top.transactionDepth
    rw [hl.numClientTransactions, hl.transactionDepth]
    exact h.runtime (hl.executionMode.symm.trans hrt)

/-- The changeset a child trie is written in, old or spawned, is consistent and in lockstep. -/
theorem childChangeset (h : Sound c s) (storageKey : K) :
    Consistent c (s.childChangeset storageKey) ∧ OverlayedMap.Lockstep (s.childChangeset storageKey) s.top := by
  unfold OverlayedChanges.childChangeset
  cases hk : s.children.lookup storageKey with
  | none => exact ⟨h.top.spawnChild, OverlayedMap.lockstep_spawnChild s.top⟩
  | some ch => exact h.children (storageKey, ch) (lookup_mem hk)

theorem withChild (h : Sound c s) (storageKey : K) {ch : OverlayedMap K StorageEntry} (hc : Consistent c ch)
    (hl : OverlayedMap.Lockstep ch s.top) : Sound c (s.withChild storageKey ch) where
  top := h.top
  children p hp := by
    rcases List.mem_cons.mp hp with rfl | hp
    · exact ⟨hc, hl⟩
    · exact h.children p (List.mem_of_mem_filter hp)
  offchain := h.offchain
  offchainLockstep := h.offchainLockstep
  runtime := h.runtime

theorem filterChildren {top : OverlayedMap K StorageEntry} {children : List (K × OverlayedMap K StorageEntry)}
    {offchain : OverlayedMap (List UInt8 × K) OffchainOverlayedChange} (h : Sound c ⟨top, children, offchain⟩)
    (f : K × OverlayedMap K StorageEntry → Bool) : Sound c ⟨top, children.filter f, offchain⟩ where
  top := h.top
  children p hp := h.children p (List.mem_of_mem_filter hp)
  offchain := h.offchain
  offchainLockstep := h.offchainLockstep
  runtime := h.runtime

/-! ### Writes -/

theorem setStorage (h : Sound c s) (key : K) (value : Option (List UInt8)) :
    ∃ s', s.setStorage c key value = some s' ∧ Sound c s' ∧ OverlayedMap.Lockstep s'.top s.top := by
  obtain ⟨top, htop, hc, hl⟩ := h.top.set key value
  exact ⟨{ s with top }, by simp [OverlayedChanges.setStorage, htop], h.withTop hc hl, hl⟩

theorem appendStorage (hc : c.Lawful) (h : Sound c s) (key : K) (element init : List UInt8) :
    ∃ s', s.appendStorage c key element init = some s' ∧ Sound c s' ∧ OverlayedMap.Lockstep s'.top s.top := by
  obtain ⟨top, htop, hct, hl⟩ := h.top.appendStorage hc key element init
  exact ⟨{ s with top }, by simp [OverlayedChanges.appendStorage, htop], h.withTop hct hl, hl⟩

theorem clearPrefix (h : Sound c s) (startsWith : K → Bool) :
    ∃ r, s.clearPrefix c startsWith = some r ∧ Sound c r.2 ∧ OverlayedMap.Lockstep r.2.top s.top := by
  obtain ⟨r, hr, hc, hl⟩ := h.top.clearWhere startsWith
  refine ⟨(r.1, { s with top := r.2 }), ?_, h.withTop hc hl, hl⟩
  unfold OverlayedChanges.clearPrefix
  rw [hr]
  rfl

theorem setChildStorage (h : Sound c s) (storageKey key : K) (value : Option (List UInt8)) :
    ∃ s', s.setChildStorage c storageKey key value = some s' ∧ Sound c s' ∧ OverlayedMap.Lockstep s'.top s.top := by
  obtain ⟨hc, hl⟩ := h.childChangeset storageKey
  obtain ⟨ch, hch, hc', hl'⟩ := hc.set key value
  exact ⟨s.withChild storageKey ch, by simp [OverlayedChanges.setChildStorage, hch],
    h.withChild storageKey hc' (hl'.trans hl), OverlayedMap.Lockstep.refl _⟩

/-- `clear_child_storage` and `clear_child_prefix`: a child's keys that `startsWith` matches are cleared. -/
theorem clearChildWhere (h : Sound c s) (storageKey : K) (startsWith : K → Bool) :
    ∃ r, ((s.childChangeset storageKey).clearWhere c fun key _ => startsWith key).map
        (fun r => (r.1, s.withChild storageKey r.2)) = some r ∧ Sound c r.2 ∧ OverlayedMap.Lockstep r.2.top s.top := by
  obtain ⟨hc, hl⟩ := h.childChangeset storageKey
  obtain ⟨r, hr, hc', hl'⟩ := hc.clearWhere startsWith
  exact ⟨(r.1, s.withChild storageKey r.2), by rw [hr]; rfl, h.withChild storageKey hc' (hl'.trans hl),
    OverlayedMap.Lockstep.refl _⟩

theorem setOffchainStorage (h : Sound c s) (key : K) (value : Option (List UInt8)) :
    ∃ s', s.setOffchainStorage key value = some s' ∧ Sound c s' ∧ OverlayedMap.Lockstep s'.top s.top := by
  obtain ⟨n, hn⟩ := h.offchain
  -- every change, a value or a removal, is written the same way
  have hset : ∀ change, ∃ s', (s.offchain.setOffchain (storagePrefix, key) change).map
      (fun offchain => { s with offchain }) = some s' ∧ Sound c s' ∧ OverlayedMap.Lockstep s'.top s.top := by
    intro change
    obtain ⟨offchain, hoff, hn'⟩ := hn.setOffchain (storagePrefix, key) change
    refine ⟨{ s with offchain }, Option.map_eq_some_iff.mpr ⟨offchain, hoff, rfl⟩, ?_, OverlayedMap.Lockstep.refl _⟩
    exact ⟨h.top, h.children, ⟨_, hn'⟩, (OverlayedMap.lockstep_writeWith hoff).trans h.offchainLockstep, h.runtime⟩
  exact hset _

/-! ### Transactions -/

theorem startTransaction (h : Sound c s) : Sound c s.startTransaction where
  top := h.top.startTransaction
  children p hp := by
    obtain ⟨q, hq, rfl⟩ := List.mem_map.mp hp
    exact ⟨(h.children q hq).1.startTransaction, (h.children q hq).2.startTransaction⟩
  offchain := by
    obtain ⟨n, hn⟩ := h.offchain
    exact ⟨n.start, hn.startTransaction⟩
  offchainLockstep := h.offchainLockstep.startTransaction
  runtime hrt := by
    have hle := h.runtime hrt
    simp only [OverlayedChanges.startTransaction, OverlayedMap.startTransaction, OverlayedMap.transactionDepth,
      List.length_cons] at hle ⊢
    omega

/-- A close the runtime may make, with a transaction open, closes one transaction of every changeset and of the
offchain overlay; the client's transactions and the mode stay. -/
theorem closeParts (h : Sound c s) {dk : List K} {rest : List (List K)} (hd : s.top.dirtyKeys = dk :: rest)
    (hguard : ¬(s.top.executionMode = .runtime ∧ s.top.hasOpenRuntimeTransactions = false)) (rollback : Bool) :
    ∃ top children offchain, s.top.closeTransaction c rollback = some (.ok top) ∧
      s.children.mapM (fun p => ((p.2.closeTransaction c rollback).bind Except.toOption).map (p.1, ·)) =
        some children ∧
      (s.offchain.closeTransactionOffchain rollback).bind Except.toOption = some offchain ∧
      Sound c ⟨top, children, offchain⟩ ∧ top.numClientTransactions = s.top.numClientTransactions ∧
      top.executionMode = s.top.executionMode := by
  obtain ⟨top, htop, hct, htail⟩ := h.top.closeTransaction hd hguard rollback
  have hpos : 0 < s.top.transactionDepth := by simp [OverlayedMap.transactionDepth, hd]
  -- a changeset in lockstep with the top one has a transaction open, and the runtime may close it
  have hchild : ∀ p ∈ s.children, ∃ q, ((p.2.closeTransaction c rollback).bind Except.toOption).map (p.1, ·) = some q ∧
      Consistent c q.2 ∧ OverlayedMap.Lockstep q.2 top := by
    intro p hp
    obtain ⟨hcp, hlp⟩ := h.children p hp
    obtain ⟨dk', rest', hd'⟩ := OverlayedMap.exists_dirtyKeys_cons (hlp.transactionDepth ▸ hpos)
    obtain ⟨ch, hch, hcc, htail'⟩ := hcp.closeTransaction hd' (mt hlp.guard_iff.mp hguard) rollback
    exact ⟨(p.1, ch), by rw [hch]; rfl, hcc, hlp.close hd' hd htail' htail⟩
  obtain ⟨children, hchildren, hall⟩ := mapM_some s.children hchild
  obtain ⟨n, hn⟩ := h.offchain
  have hl := h.offchainLockstep
  obtain ⟨dk', rest', hd'⟩ := OverlayedMap.exists_dirtyKeys_cons (hl.transactionDepth ▸ hpos)
  obtain ⟨offchain, hoff, hn', htail'⟩ := hn.closeTransactionOffchain hd' (mt hl.guard_iff.mp hguard) rollback
  refine ⟨top, children, offchain, htop, hchildren, by rw [hoff]; rfl,
    ⟨hct, fun q hq => ?_, ⟨_, hn'⟩, hl.close hd' hd htail' htail, fun hrt => ?_⟩, htail.2.1, htail.2.2⟩
  · obtain ⟨p, -, hpq⟩ := hall q hq
    exact hpq
  · -- the runtime closed one of its own transactions
    have hopen : s.top.hasOpenRuntimeTransactions = true := by
      cases ho : s.top.hasOpenRuntimeTransactions with
      | false => exact absurd ⟨htail.2.2.symm.trans hrt, ho⟩ hguard
      | true => rfl
    have hlt : s.top.numClientTransactions < s.top.transactionDepth := by
      simpa [OverlayedMap.hasOpenRuntimeTransactions] using hopen
    have hlen : s.top.transactionDepth = rest.length + 1 := by simp [OverlayedMap.transactionDepth, hd]
    show top.numClientTransactions ≤ top.transactionDepth
    rw [htail.1, htail.2.1]
    omega

theorem commitTransaction (h : Sound c s) :
    ∃ s', s.applyOp c .commitTransaction = some s' ∧ Sound c s' ∧ StaysInRuntime s s' := by
  by_cases hg : (s.top.executionMode = .runtime ∧ s.top.hasOpenRuntimeTransactions = false) ∨ s.top.dirtyKeys = []
  · refine ⟨s, ?_, h, staysInRuntime_refl s⟩
    show (s.commitTransaction c).map _ = _
    rw [(closeTransaction_error hg).1]
    rfl
  · obtain ⟨hguard, hne⟩ := not_or.mp hg
    obtain ⟨dk, rest, hd⟩ := List.exists_cons_of_ne_nil hne
    obtain ⟨top, children, offchain, htop, hchildren, hoff, hsound, hnum, hmode⟩ := h.closeParts hd hguard false
    refine ⟨⟨top, children, offchain⟩, ?_, hsound, fun hrt => ⟨hmode.trans hrt, hnum⟩⟩
    show (s.commitTransaction c).map _ = _
    unfold OverlayedChanges.commitTransaction OverlayedMap.commitTransaction
    rw [htop]
    dsimp only
    rw [hchildren, hoff]
    rfl

/-- `rollback_transaction`, which also drops the child changesets it leaves empty. -/
theorem rollbackTransaction (h : Sound c s) :
    ∃ s', s.applyOp c .rollbackTransaction = some s' ∧ Sound c s' ∧ StaysInRuntime s s' := by
  by_cases hg : (s.top.executionMode = .runtime ∧ s.top.hasOpenRuntimeTransactions = false) ∨ s.top.dirtyKeys = []
  · refine ⟨s, ?_, h, staysInRuntime_refl s⟩
    show (s.rollbackTransaction c).map _ = _
    rw [(closeTransaction_error hg).2]
    rfl
  · obtain ⟨hguard, hne⟩ := not_or.mp hg
    obtain ⟨dk, rest, hd⟩ := List.exists_cons_of_ne_nil hne
    obtain ⟨top, children, offchain, htop, hchildren, hoff, hsound, hnum, hmode⟩ := h.closeParts hd hguard true
    refine ⟨⟨top, children.filter fun p => !p.2.isEmpty, offchain⟩, ?_, hsound.filterChildren _,
      fun hrt => ⟨hmode.trans hrt, hnum⟩⟩
    show (s.rollbackTransaction c).map _ = _
    unfold OverlayedChanges.rollbackTransaction OverlayedMap.rollbackTransaction
    rw [htop]
    dsimp only
    rw [hchildren, hoff]
    rfl

/-! ### The runtime -/

/-- `enter_runtime` in client mode: the transactions open now become the client's, in every changeset. -/
theorem enterRuntime (h : Sound c s) (hcl : s.top.executionMode = .client) :
    ∃ s', s.enterRuntime = some (.ok s') ∧ Sound c s' ∧ s'.top.executionMode = .runtime ∧
      s'.top.numClientTransactions = s.top.transactionDepth ∧ s'.transactionDepth = s.transactionDepth := by
  let top : OverlayedMap K StorageEntry :=
    { s.top with executionMode := .runtime, numClientTransactions := s.top.transactionDepth }
  have hchild : ∀ p ∈ s.children, ∃ q, p.2.enterRuntime.toOption.map (p.1, ·) = some q ∧
      Consistent c q.2 ∧ OverlayedMap.Lockstep q.2 top := by
    intro p hp
    obtain ⟨hcp, hlp⟩ := h.children p hp
    refine ⟨(p.1, _), ?_, hcp.enterRuntime, hlp.transactionDepth, hlp.transactionDepth, rfl⟩
    rw [OverlayedMap.enterRuntime_client (hlp.executionMode.trans hcl)]
    rfl
  obtain ⟨children, hchildren, hall⟩ := mapM_some s.children hchild
  obtain ⟨n, hn⟩ := h.offchain
  have hl := h.offchainLockstep
  have hoff := OverlayedMap.enterRuntime_client (hl.executionMode.trans hcl)
  refine ⟨⟨top, children, _⟩, ?_, ⟨h.top.enterRuntime, fun q hq => ?_, ⟨n, hn.enterRuntime hoff⟩,
    ⟨hl.transactionDepth, hl.transactionDepth, rfl⟩, fun _ => Nat.le_refl _⟩, rfl, rfl, rfl⟩
  · unfold OverlayedChanges.enterRuntime
    rw [OverlayedMap.enterRuntime_client hcl]
    dsimp only
    rw [hchildren, hoff]
    rfl
  · obtain ⟨p, -, hpq⟩ := hall q hq
    exact hpq

theorem applyOp_enterRuntime (h : Sound c s) :
    ∃ s', s.applyOp c .enterRuntime = some s' ∧ Sound c s' ∧ StaysInRuntime s s' := by
  cases hmode : s.top.executionMode with
  | client =>
    obtain ⟨s', hs', hsound, -⟩ := h.enterRuntime hmode
    refine ⟨s', ?_, hsound, fun hrt => nomatch hmode.symm.trans hrt⟩
    show s.enterRuntime.map _ = _
    rw [hs']
    rfl
  | runtime =>
    refine ⟨s, ?_, h, staysInRuntime_refl s⟩
    show s.enterRuntime.map _ = _
    unfold OverlayedChanges.enterRuntime
    rw [OverlayedMap.enterRuntime_runtime hmode]
    rfl

/-- `exit_runtime` in runtime mode rolls back, in every changeset, the transactions the runtime opened. -/
theorem exitRuntime (h : Sound c s) (hrt : s.top.executionMode = .runtime) :
    ∃ s', s.exitRuntime c = some (.ok s') ∧ Sound c s' ∧ s'.top.executionMode = .client ∧
      s'.transactionDepth = s.top.numClientTransactions ∧
      RolledBack c (s.top.transactionDepth - s.top.numClientTransactions) s s' := by
  obtain ⟨top, htop, hct, hrb, htail⟩ := h.top.exitRuntime hrt
  have hchild : ∀ p ∈ s.children, ∃ q, ((p.2.exitRuntime c).bind Except.toOption).map (p.1, ·) = some q ∧
      (Consistent c q.2 ∧ OverlayedMap.Lockstep q.2 top) ∧
        (p.1 = q.1 ∧ RollsBack (LaysOut c) (s.top.transactionDepth - s.top.numClientTransactions) p.2 q.2) := by
    intro p hp
    obtain ⟨hcp, hlp⟩ := h.children p hp
    obtain ⟨ch, hch, hcc, hrbc, htail'⟩ := hcp.exitRuntime (hlp.executionMode.trans hrt)
    -- in lockstep with the top changeset, the child has as many transactions of the runtime open
    rw [hlp.transactionDepth, hlp.numClientTransactions] at hrbc
    exact ⟨(p.1, ch), by rw [hch]; rfl, ⟨hcc, hlp.exit htail' htail⟩, rfl, hrbc⟩
  obtain ⟨children, hchildren, hall⟩ := mapM_forall₂ s.children hchild
  obtain ⟨n, hn⟩ := h.offchain
  have hl := h.offchainLockstep
  obtain ⟨offchain, hoff, hn', htail'⟩ := hn.exitRuntimeOffchain (hl.executionMode.trans hrt)
  refine ⟨⟨top, children, offchain⟩, ?_, ⟨hct, fun q hq => ?_, ⟨_, hn'⟩, hl.exit htail' htail,
    fun hrt' => nomatch htail.2.2.symm.trans hrt'⟩, htail.2.2, ?_, hrb, hall.imp fun _ _ => And.right, ?_⟩
  · unfold OverlayedChanges.exitRuntime
    rw [htop]
    dsimp only
    rw [hchildren, hoff]
    rfl
  · obtain ⟨p, -, hpq⟩ := forall₂_exists_mem_left hall q hq
    exact hpq.1
  · -- the runtime never closed one of the client's transactions
    show top.transactionDepth = _
    rw [htail.1]
    exact Nat.min_eq_right (h.runtime hrt)
  · rw [← hl.transactionDepth, ← hl.numClientTransactions]
    refine rollsBack_of_call (fun m => m.exitRuntimeOffchain) hoff ⟨n, hn⟩ fun n' hn'' => ?_
    obtain ⟨m'', hm'', hr'', -⟩ := hn''.exitRuntimeOffchain (hl.executionMode.trans hrt)
    exact ⟨m'', hm'', hr''⟩

theorem applyOp_exitRuntime (h : Sound c s) : ∃ s', s.applyOp c .exitRuntime = some s' ∧ Sound c s' := by
  cases hmode : s.top.executionMode with
  | client =>
    refine ⟨s, ?_, h⟩
    show (s.exitRuntime c).map _ = _
    unfold OverlayedChanges.exitRuntime OverlayedMap.exitRuntime
    rw [OverlayedMap.exitRuntimeWith_client hmode]
    rfl
  | runtime =>
    obtain ⟨s', hs', hsound, -⟩ := h.exitRuntime hmode
    refine ⟨s', ?_, hsound⟩
    show (s.exitRuntime c).map _ = _
    rw [hs']
    rfl

/-! ### Runs -/

/-- Every call on sound changes succeeds, with no `expect` firing, and keeps them sound; one other than
`exit_runtime` made in runtime mode stays there. -/
theorem applyOp (hc : c.Lawful) (h : Sound c s) (op : ChangesOp K) :
    ∃ s', s.applyOp c op = some s' ∧ Sound c s' ∧ (op ≠ .exitRuntime → StaysInRuntime s s') := by
  cases op with
  | setStorage key value =>
    obtain ⟨s', hs', hsound, hl⟩ := h.setStorage key value
    exact ⟨s', hs', hsound, fun _ => staysInRuntime_of_lockstep hl⟩
  | setChildStorage storageKey key value =>
    obtain ⟨s', hs', hsound, hl⟩ := h.setChildStorage storageKey key value
    exact ⟨s', hs', hsound, fun _ => staysInRuntime_of_lockstep hl⟩
  | clearChildStorage storageKey =>
    obtain ⟨r, hr, hsound, hl⟩ := h.clearChildWhere storageKey fun _ => true
    have hr' : s.clearChildStorage c storageKey = some r := hr
    exact ⟨r.2, by simp only [OverlayedChanges.applyOp, hr', Option.map_some], hsound,
      fun _ => staysInRuntime_of_lockstep hl⟩
  | clearPrefix startsWith =>
    obtain ⟨r, hr, hsound, hl⟩ := h.clearPrefix startsWith
    exact ⟨r.2, by simp only [OverlayedChanges.applyOp, hr, Option.map_some], hsound,
      fun _ => staysInRuntime_of_lockstep hl⟩
  | clearChildPrefix storageKey startsWith =>
    obtain ⟨r, hr, hsound, hl⟩ := h.clearChildWhere storageKey startsWith
    have hr' : s.clearChildPrefix c storageKey startsWith = some r := hr
    exact ⟨r.2, by simp only [OverlayedChanges.applyOp, hr', Option.map_some], hsound,
      fun _ => staysInRuntime_of_lockstep hl⟩
  | appendStorage key element init =>
    obtain ⟨s', hs', hsound, hl⟩ := h.appendStorage hc key element init
    exact ⟨s', hs', hsound, fun _ => staysInRuntime_of_lockstep hl⟩
  | setOffchainStorage key value =>
    obtain ⟨s', hs', hsound, hl⟩ := h.setOffchainStorage key value
    exact ⟨s', hs', hsound, fun _ => staysInRuntime_of_lockstep hl⟩
  | startTransaction => exact ⟨_, rfl, h.startTransaction, fun _ hrt => ⟨hrt, rfl⟩⟩
  | commitTransaction =>
    obtain ⟨s', hs', hsound, hstays⟩ := h.commitTransaction
    exact ⟨s', hs', hsound, fun _ => hstays⟩
  | rollbackTransaction =>
    obtain ⟨s', hs', hsound, hstays⟩ := h.rollbackTransaction
    exact ⟨s', hs', hsound, fun _ => hstays⟩
  | enterRuntime =>
    obtain ⟨s', hs', hsound, hstays⟩ := h.applyOp_enterRuntime
    exact ⟨s', hs', hsound, fun _ => hstays⟩
  | exitRuntime =>
    obtain ⟨s', hs', hsound⟩ := h.applyOp_exitRuntime
    exact ⟨s', hs', hsound, fun hne => absurd rfl hne⟩

/-- Every run of calls on sound changes succeeds and keeps them sound. -/
theorem runOps (hc : c.Lawful) (h : Sound c s) (ops : List (ChangesOp K)) :
    ∃ s', s.runOps c ops = some s' ∧ Sound c s' :=
  foldlM_progress ops s (fun _ op _ ht => (ht.applyOp hc op).imp fun _ hs => ⟨hs.1, hs.2.1⟩) h

/-- A run in runtime mode with no `exit_runtime` stays there, with the same client transactions. -/
theorem runOps_runtime (hc : c.Lawful) (h : Sound c s) (hrt : s.top.executionMode = .runtime)
    (ops : List (ChangesOp K)) (hexit : ∀ op ∈ ops, op ≠ .exitRuntime) :
    ∃ s', s.runOps c ops = some s' ∧ Sound c s' ∧ s'.top.executionMode = .runtime ∧
      s'.top.numClientTransactions = s.top.numClientTransactions := by
  refine foldlM_progress (P := fun t => Sound c t ∧ t.top.executionMode = .runtime ∧
    t.top.numClientTransactions = s.top.numClientTransactions) ops s ?_ ⟨h, hrt, rfl⟩
  rintro t op hop ⟨ht, htr, htn⟩
  obtain ⟨t', ht', hsound, hstays⟩ := ht.applyOp hc op
  obtain ⟨htr', htn'⟩ := hstays (hexit op hop) htr
  exact ⟨t', ht', hsound, htr', htn'.trans htn⟩

/-- Entering the runtime, running calls other than `exit_runtime` and leaving it rolls back exactly the transactions
opened since entering and still open: every changeset lays out its maps with those rolled back, at the client's depth.
-/
theorem runtime_segment (hc : c.Lawful) (h : Sound c s) (hcl : s.top.executionMode = .client)
    (ops : List (ChangesOp K)) (hexit : ∀ op ∈ ops, op ≠ .exitRuntime) :
    ∃ s₁ s₂, s.runOps c (.enterRuntime :: ops) = some s₁ ∧ s₁.exitRuntime c = some (.ok s₂) ∧ Sound c s₂ ∧
      s₂.transactionDepth = s.transactionDepth ∧ s₂.top.executionMode = .client ∧
      RolledBack c (s₁.transactionDepth - s.transactionDepth) s₁ s₂ := by
  obtain ⟨s₀, hs₀, hsound₀, hrt₀, hnum₀, -⟩ := h.enterRuntime hcl
  obtain ⟨s₁, hs₁, hsound₁, hrt₁, hnum₁⟩ := hsound₀.runOps_runtime hc hrt₀ ops hexit
  obtain ⟨s₂, hs₂, hsound₂, hmode₂, hdepth₂, hrb⟩ := hsound₁.exitRuntime hrt₁
  -- the client's transactions are those open when the runtime was entered
  have hclient : s₁.top.numClientTransactions = s.transactionDepth := by
    rw [hnum₁, hnum₀]
    rfl
  refine ⟨s₁, s₂, ?_, hs₂, hsound₂, by rw [hdepth₂, hclient], hmode₂, hclient ▸ hrb⟩
  have hstep : s.applyOp c .enterRuntime = some s₀ := by
    show s.enterRuntime.map _ = _
    rw [hs₀]
    rfl
  show List.foldlM _ s (_ :: ops) = _
  rw [List.foldlM_cons, hstep]
  exact hs₁

end Sound

end OverlayedChanges

/-- After any calls on the overlayed changes, the top changeset, every child changeset and the offchain overlay share
one depth, count of client transactions and mode, and every transaction that wrote a key holds a version of it: no
`expect` fires. In runtime mode with only the client's transactions open, commit and rollback fail at the top; from
client mode, a runtime segment rolls back, in every changeset, exactly the transactions it opened and left open. -/
theorem overlayedChanges_lockstep (hc : c.Lawful) (ops₁ ops₂ : List (ChangesOp K))
    (hexit : ∀ op ∈ ops₂, op ≠ .exitRuntime) :
    ∃ s, OverlayedChanges.empty.runOps c ops₁ = some s ∧
      (∀ p ∈ s.children, OverlayedMap.Lockstep p.2 s.top) ∧ OverlayedMap.Lockstep s.offchain s.top ∧
      (∀ key, s.top.dirtyKeys.countP (fun dk => decide (key ∈ dk)) ≤ ((s.top.changes.lookup key).getD []).length) ∧
      (∀ p ∈ s.children, ∀ key,
        p.2.dirtyKeys.countP (fun dk => decide (key ∈ dk)) ≤ ((p.2.changes.lookup key).getD []).length) ∧
      (∀ key, s.offchain.dirtyKeys.countP (fun dk => decide (key ∈ dk)) ≤
        ((s.offchain.changes.lookup key).getD []).length) ∧
      (s.top.executionMode = .runtime → s.top.transactionDepth ≤ s.top.numClientTransactions →
        s.commitTransaction c = some (.error ⟨⟩) ∧ s.rollbackTransaction c = some (.error ⟨⟩)) ∧
      (s.top.executionMode = .client → ∃ s₁ s₂, s.runOps c (.enterRuntime :: ops₂) = some s₁ ∧
        s₁.exitRuntime c = some (.ok s₂) ∧ s₂.transactionDepth = s.transactionDepth ∧
        s₂.top.executionMode = .client ∧
        OverlayedChanges.RolledBack c (s₁.transactionDepth - s.transactionDepth) s₁ s₂) := by
  obtain ⟨s, hs, h⟩ := OverlayedChanges.sound_empty.runOps hc ops₁
  obtain ⟨n, hn⟩ := h.offchain
  refine ⟨s, hs, fun p hp => (h.children p hp).2, h.offchainLockstep, h.top.count_dirty_le,
    fun p hp => (h.children p hp).1.count_dirty_le, fun key => ?_, fun hrt hle => ?_, fun hcl => ?_⟩
  · -- the statement decides membership of the offchain keys with the pair's own equality
    convert hn.count_dirty_le key
  · refine OverlayedChanges.closeTransaction_error (Or.inl ⟨hrt, ?_⟩)
    simpa [OverlayedMap.hasOpenRuntimeTransactions] using hle
  · obtain ⟨s₁, s₂, hs₁, hs₂, -, hdepth, hmode, hrb⟩ := h.runtime_segment hc hcl ops₂ hexit
    exact ⟨s₁, s₂, hs₁, hs₂, hdepth, hmode, hrb⟩

/-- A run through the top changeset, a child and the offchain overlay; then the runtime opens a transaction, writes in
it and leaves it open, and leaving the runtime rolls it back. -/
theorem overlayedChanges_lockstep_childAndRuntime :
    scaleCompact.Lawful ∧
      (∀ op ∈ ([.startTransaction, .setStorage 0 none] : List (ChangesOp Nat)), op ≠ .exitRuntime) ∧
      ∃ s, OverlayedChanges.empty.runOps scaleCompact
          [.setStorage 0 (some [1]), .startTransaction, .setChildStorage 1 2 (some [3]), .appendStorage 0 [5] [],
            .setOffchainStorage 4 (some [6]), .rollbackTransaction, .startTransaction] = some s ∧
        (∀ p ∈ s.children, OverlayedMap.Lockstep p.2 s.top) ∧ OverlayedMap.Lockstep s.offchain s.top ∧
        (s.top.executionMode = .client → ∃ s₁ s₂,
          s.runOps scaleCompact [.enterRuntime, .startTransaction, .setStorage 0 none] = some s₁ ∧
          s₁.exitRuntime scaleCompact = some (.ok s₂) ∧ s₂.transactionDepth = s.transactionDepth ∧
          OverlayedChanges.RolledBack scaleCompact (s₁.transactionDepth - s.transactionDepth) s₁ s₂) := by
  have hexit : ∀ op ∈ ([.startTransaction, .setStorage 0 none] : List (ChangesOp Nat)), op ≠ .exitRuntime := by
    simp
  obtain ⟨s, hs, hchildren, hoff, -, -, -, -, hsegment⟩ := overlayedChanges_lockstep scaleCompact_lawful _ _ hexit
  refine ⟨scaleCompact_lawful, hexit, s, hs, hchildren, hoff, fun hcl => ?_⟩
  obtain ⟨s₁, s₂, h₁, h₂, hdepth, -, hrb⟩ := hsegment hcl
  exact ⟨s₁, s₂, h₁, h₂, hdepth, hrb⟩

end CoreChain.Overlay

import Mathlib
import CoreChain.StateDb.PruningRuns

/-!
# The in-memory pruning window keeps live state

Beside the window and the database, the keys live at the last canonicalized block: each canonicalized block's
changeset adds the keys it inserts and takes off those it deletes (`Canonicalization.liveAfter`, moved by
`liveStep` when the window takes the block). The state column gets a block's inserts when it is canonicalized and
its deletes when it is pruned, and a key inserted again in between leaves its death row.

When every block deletes only keys that are live, or that it inserts itself (`LiveAllowed`), every state reached
from a fresh database has every live key in its state column, and nothing else there but keys that wait for
deletion in the window (`mem_pruning_keeps_live_keys`): pruning never deletes a live key.
-/

namespace CoreChain.StateDb.Pruning

variable {H K : Type} [DecidableEq K]

/-! ## The state column -/

/-- A loop that deletes keys leaves a key unset exactly when it deleted it. -/
theorem foldl_update_none (ks : List K) (state : K → Option (List UInt8)) (k : K) :
    ks.foldl (fun state k => Function.update state k none) state k = if k ∈ ks then none else state k := by
  induction ks generalizing state with
  | nil => simp
  | cons a ks ih =>
    rw [List.foldl_cons, ih]
    by_cases hk : k ∈ ks
    · simp [hk]
    · by_cases hka : k = a
      · subst hka
        simp [hk]
      · simp [hk, hka]

/-- A loop that writes values sets a key exactly when it wrote it or the key was set. -/
theorem foldl_update_some_isSome (kvs : List (K × List UInt8)) (state : K → Option (List UInt8)) (k : K) :
    (kvs.foldl (fun (state : K → Option (List UInt8)) kv => Function.update state kv.1 (some kv.2)) state k).isSome ↔
      k ∈ kvs.map (·.1) ∨ (state k).isSome := by
  induction kvs generalizing state with
  | nil => simp
  | cons kv kvs ih =>
    rw [List.foldl_cons, ih]
    by_cases hka : k = kv.1
    · subst hka
      simp
    · simp [hka]

/-- A key is set after a changeset when the changeset does not delete it and inserts it or it was set. -/
theorem applyData_isSome (state : K → Option (List UInt8)) (data : ChangeSet K) (k : K) :
    (Db.applyData state data k).isSome ↔ k ∉ data.deleted ∧ (k ∈ data.inserted.map (·.1) ∨ (state k).isSome) := by
  rw [Db.applyData, foldl_update_none, ← foldl_update_some_isSome]
  by_cases hk : k ∈ data.deleted <;> simp [hk]

/-! ## Pending keys through a canonicalization -/

omit [DecidableEq K] in
theorem pendingKeys_append (rows rows' : List (DeathRow H K)) :
    pendingKeys (rows ++ rows') = pendingKeys rows ++ pendingKeys rows' := by
  simp [pendingKeys]

/-- Rows less some keys hold the keys they held, less those. -/
theorem mem_pendingKeys_map_without (rows : List (DeathRow H K)) (ks : List K) (k : K) :
    k ∈ pendingKeys (rows.map (DeathRow.without ks)) ↔ k ∈ pendingKeys rows ∧ k ∉ ks := by
  induction rows with
  | nil => simp [pendingKeys]
  | cons row rows ih =>
    rw [List.map_cons, pendingKeys_cons, pendingKeys_cons, List.mem_append, ih, List.mem_append]
    simp only [DeathRow.without, List.mem_filter, decide_eq_true_eq]
    tauto

/-- The keys waiting after one more record: those that waited and it does not insert, and those it deletes. -/
theorem mem_pendingKeys_rowsOf_snoc (records : List (JournalRecord H K)) (record : JournalRecord H K) (k : K) :
    k ∈ pendingKeys (rowsOf (records ++ [record])) ↔
      (k ∈ pendingKeys (rowsOf records) ∧ k ∉ record.inserted) ∨ k ∈ record.deleted := by
  rw [rowsOf_append_singleton, pendingKeys_append, List.mem_append, mem_pendingKeys_map_without]
  simp [pendingKeys, JournalRecord.toDeathRow]

theorem rowsOf_drop (records : List (JournalRecord H K)) (n : Nat) :
    rowsOf (records.drop n) = (rowsOf records).drop n := by
  induction records generalizing n with
  | nil => simp [rowsOf]
  | cons r records ih =>
    cases n with
    | zero => rfl
    | succ n => simp [rowsOf, ih]

omit [DecidableEq K] in
/-- The keys waiting in the rows split into those of the first `n` rows and those of the rest. -/
theorem pendingKeys_take_drop (rows : List (DeathRow H K)) (n : Nat) :
    pendingKeys rows = (rows.take n).flatMap (·.deleted) ++ pendingKeys (rows.drop n) := by
  conv_lhs => rw [← List.take_append_drop n rows]
  rw [pendingKeys_append, pendingKeys, List.flatMap_def]

/-! ## Runs beside the live keys -/

/-- The keys live after a canonicalized block: live before it or inserted by it, and not deleted by it. -/
def Canonicalization.liveAfter (c : Canonicalization H K) (live : K → Prop) : K → Prop :=
  fun k => (live k ∨ k ∈ c.changeset.inserted.map (·.1)) ∧ k ∉ c.changeset.deleted

/-- A canonicalization on the window and the database, beside the keys live at the last canonicalized block, which
the block's changeset moves when the window takes the block. -/
def liveStep [DecidableEq H] (maxBlocks : Option Nat) (s : (RefWindow H K × Db H K) × (K → Prop))
    (c : Canonicalization H K) : (RefWindow H K × Db H K) × (K → Prop) :=
  match s.1.1.canonicalizeBlock s.1.2 maxBlocks c.pinned c.hash c.number c.commit with
  | some (.ok _) => (canonicalizeStep maxBlocks s.1 c, c.liveAfter s.2)
  | _ => s

/-- A canonicalization whose block deletes only keys that are live or that it inserts. -/
def LiveAllowed (s : (RefWindow H K × Db H K) × (K → Prop)) (c : Canonicalization H K) : Prop :=
  ∀ k ∈ c.changeset.deleted, s.2 k ∨ k ∈ c.changeset.inserted.map (·.1)

/-- A fresh database with the state column `state`, its in-memory window, and its keys live. -/
def liveStart (state : K → Option (List UInt8)) : (RefWindow H K × Db H K) × (K → Prop) :=
  (memStart state, fun k => (state k).isSome)

/-- The invariant of runs beside the live keys: a coherent window, every live key set, every set key live or
waiting for deletion, and no waiting key live. -/
structure LiveInv (s : (RefWindow H K × Db H K) × (K → Prop)) (records : List (JournalRecord H K)) : Prop where
  coherent : MemCoherent s.1.1 s.1.2.stateMeta records
  live_set : ∀ k, s.2 k → (s.1.2.state k).isSome
  set_live : ∀ k, (s.1.2.state k).isSome → s.2 k ∨ k ∈ pendingKeys (rowsOf records)
  waiting_dead : ∀ k ∈ pendingKeys (rowsOf records), ¬s.2 k

/-- A canonicalization keeps the invariant: the keys the block deletes wait in its row, those it inserts are set,
and a pruned row holds no live key. -/
theorem liveStep_inv [DecidableEq H] (maxBlocks : Option Nat) {s : (RefWindow H K × Db H K) × (K → Prop)}
    {records : List (JournalRecord H K)} (h : LiveInv s records) {c : Canonicalization H K} (hc : LiveAllowed s c) :
    ∃ records', LiveInv (liveStep maxBlocks s c) records' := by
  obtain ⟨⟨w, db⟩, live⟩ := s
  -- a deleted key that waits is not live, so the block inserts it again
  have hfresh : Fresh (rowsOf records) c.record := fun k hk hpend =>
    (hc k hk).resolve_left (h.waiting_dead k hpend)
  rcases canonicalizeBlock_mem h.coherent maxBlocks c hfresh with herr | ⟨n, w', commit', hok, -, -, h', hdata, -, -⟩
  · exact ⟨records, by simpa [liveStep, herr] using h⟩
  · have hstep : liveStep maxBlocks ((w, db), live) c = ((w', db.apply commit'), c.liveAfter live) := by
      simp [liveStep, canonicalizeStep, hok]
    rw [hstep]
    have hpend := mem_pendingKeys_rowsOf_snoc records c.record
    have hsplit := pendingKeys_take_drop (rowsOf (records ++ [c.record])) n
    -- a key waiting after the block was noted is not live after it
    have hdead : ∀ k ∈ pendingKeys (rowsOf (records ++ [c.record])), ¬c.liveAfter live k := by
      intro k hk hlive
      rcases (hpend k).mp hk with ⟨hold, hins⟩ | hdel
      · rcases hlive.1 with hl | hl
        · exact h.waiting_dead k hold hl
        · exact hins hl
      · exact hlive.2 hdel
    refine ⟨_, h', fun k hlive => ?_, fun k hset => ?_, fun k hk => ?_⟩
    · -- a live key is set: it is in no pruned row, and was set or inserted
      rw [Db.apply, hdata, applyData_isSome]
      refine ⟨fun hpruned => hdead k (hsplit ▸ List.mem_append_left _ hpruned) hlive, ?_⟩
      rcases hlive.1 with hl | hl
      · exact Or.inr (h.live_set k hl)
      · exact Or.inl hl
    · rw [Db.apply, hdata, applyData_isSome] at hset
      obtain ⟨hnotpruned, hset⟩ := hset
      rw [rowsOf_drop]
      by_cases hwait : k ∈ pendingKeys (rowsOf (records ++ [c.record]))
      · -- waiting and not pruned: it still waits
        rw [hsplit] at hwait
        exact Or.inr ((List.mem_append.mp hwait).resolve_left hnotpruned)
      · -- not waiting: the block does not delete it, and it was inserted, live, or waiting and not inserted
        left
        rw [hpend, not_or, not_and_or, not_not] at hwait
        refine ⟨?_, hwait.2⟩
        rcases hset with hins | hold
        · exact Or.inr hins
        · rcases h.set_live k hold with hl | hw
          · exact Or.inl hl
          · exact Or.inr (hwait.1.resolve_left (not_not.mpr hw))
    · rw [rowsOf_drop] at hk
      exact hdead k (hsplit ▸ List.mem_append_right _ hk)

/-- In every state reached from a fresh database by canonicalizations whose blocks delete only live keys or keys they
insert, every key live at the last canonicalized block is in the state column, and every key there is live or awaits
deletion in the window: pruning never deletes a live key. -/
theorem mem_pruning_keeps_live_keys [DecidableEq H] {maxBlocks : Option Nat} {state₀ : K → Option (List UInt8)}
    {s : (RefWindow H K × Db H K) × (K → Prop)} (hs : Reach (liveStart state₀) (liveStep maxBlocks) LiveAllowed s) :
    (∀ k, s.2 k → (s.1.2.state k).isSome) ∧ (∀ k, (s.1.2.state k).isSome → s.2 k ∨ k ∈ s.1.1.waitingKeys) := by
  obtain ⟨records, h⟩ := Reach.invariant (P := fun s => ∃ records, LiveInv s records)
    ⟨[], ⟨⟨isReplay_nil 0, fun b => by simp [liveStart, memStart], rfl⟩, fun k hk => hk, fun k hk => Or.inl hk,
      fun k hk => by simp [pendingKeys, rowsOf] at hk⟩⟩
    (fun s c ⟨records, h⟩ hc => liveStep_inv maxBlocks h hc) hs
  obtain ⟨-, index, hq, -⟩ := h.coherent.replay
  refine ⟨h.live_set, fun k hk => ?_⟩
  simpa [RefWindow.waitingKeys, hq] using h.set_live k hk

/-- The run of `insertDeleteRun` beside the keys live at each canonicalized block. -/
def liveInsertDeleteRun : (RefWindow Nat Nat × Db Nat Nat) × (Nat → Prop) :=
  liveStep (some 1) (liveStep (some 1) (liveStart sampleState) sampleInsert) sampleDelete

theorem reach_liveInsertDeleteRun :
    Reach (liveStart sampleState) (liveStep (some 1)) LiveAllowed liveInsertDeleteRun := by
  refine Reach.step (Reach.step Reach.init ?_) ?_
  · intro k hk
    simp [sampleInsert] at hk
  · intro k hk
    simp only [sampleDelete, List.mem_singleton] at hk
    subst hk
    left
    simp only [liveStep]
    split <;> simp [Canonicalization.liveAfter, liveStart, sampleState, sampleInsert]

theorem mem_pruning_keeps_live_keys_insertDelete :
    (∀ k, liveInsertDeleteRun.2 k → (liveInsertDeleteRun.1.2.state k).isSome) ∧
      ∀ k, (liveInsertDeleteRun.1.2.state k).isSome → liveInsertDeleteRun.2 k ∨ k ∈ liveInsertDeleteRun.1.1.waitingKeys :=
  mem_pruning_keeps_live_keys reach_liveInsertDeleteRun

end CoreChain.StateDb.Pruning

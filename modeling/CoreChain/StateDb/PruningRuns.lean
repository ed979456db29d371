import Mathlib
import CoreChain.Lib.Machine
import CoreChain.StateDb.PruningReplay

/-!
# Runs of the in-memory pruning window

The pruning window with the in-memory queue (`count_insertions`, for a database without reference counting), run by
canonicalizations one after another, each returned commit applied to the database, from a fresh database. Every
block is taken to delete no key that waits for deletion in the window unless it inserts it again (`MemAllowed`).

- A commit that `prune_one` extends is applied as the commit, then `prune_one`'s own meta changes
  (`MetaDb.apply_pruneOne`).
- The invariant `MemCoherent`: the queue replays the journal the database holds from `base` on, and `LAST_PRUNED`
  is the block before `base`. `note_canonical` keeps it with one more record (`noteCanonical_mem`), `prune_one` with
  one fewer (`pruneOne_mem`), and the pruning loop takes off the oldest records until the window is small enough or
  its next block is pinned (`pruneLoop_mem`, from `pruneLoop_of_turn`, the loop over any invariant one turn keeps).
- Every reached state has it (`mem_reach_coherent`): `RefWindow::new` rebuilds the window (`mem_window_restored`),
  and a canonicalization prunes the oldest blocks down to `max_blocks` or to a pinned block
  (`mem_canonicalize_prunes_oldest`).
-/

namespace CoreChain.StateDb.Pruning

variable {H K : Type}

/-! ## Commits applied -/

namespace MetaDb

/-- A write of `LAST_PRUNED` is not undone by deletes of other keys. -/
theorem foldl_removeMeta_setMeta_lastPruned (m : MetaDb H K) (n : Nat) :
    ∀ keys : List MetaKey, MetaKey.lastPruned ∉ keys →
      keys.foldl removeMeta (m.setMeta (.lastPruned n)) = (keys.foldl removeMeta m).setMeta (.lastPruned n)
  | [], _ => rfl
  | .lastPruned :: _, h => absurd List.mem_cons_self h
  | .journal b :: keys, h => by
    have hkeys : MetaKey.lastPruned ∉ keys := fun h' => h (List.mem_cons_of_mem _ h')
    exact foldl_removeMeta_setMeta_lastPruned (m.removeMeta (.journal b)) n keys hkeys

/-- The meta changes of a commit that `prune_one` extended: those of the commit, then its own. -/
theorem apply_pruneOne (m : MetaDb H K) {commit commit' : CommitSet H K} {b : Nat}
    (h : MetaKey.lastPruned ∉ commit.metaDeleted) (hins : commit'.metaInserted = commit.metaInserted ++ [.lastPruned b])
    (hdel : commit'.metaDeleted = commit.metaDeleted ++ [.journal b]) :
    m.apply commit' = ((m.apply commit).setMeta (.lastPruned b)).removeMeta (.journal b) := by
  rw [apply, hins, hdel, List.foldl_append, List.foldl_append, List.foldl_cons, List.foldl_nil, List.foldl_cons,
    List.foldl_nil, foldl_removeMeta_setMeta_lastPruned _ _ _ h]
  rfl

end MetaDb

variable [DecidableEq K]

/-! ## The invariant -/

/-- The record the in-memory queue journals for a canonicalization: the keys its changeset inserts and deletes. -/
def Canonicalization.record (c : Canonicalization H K) : JournalRecord H K :=
  ⟨c.hash, c.changeset.inserted.map (·.1), c.changeset.deleted⟩

/-- A window of the in-memory queue that the meta column describes: the queue replays the journal from `base` on,
and `LAST_PRUNED` is the block before `base`. -/
structure MemCoherent (w : RefWindow H K) (m : MetaDb H K) (records : List (JournalRecord H K)) : Prop where
  replay : IsReplay w.base records w.queue
  journal : JournalAt m w.base records
  lastPruned : (m.lastPruned.map (· + 1)).getD 0 = w.base

theorem IsReplay.len {base : Nat} {records : List (JournalRecord H K)} {q : DeathRowQueue H K}
    (h : IsReplay base records q) (b : Nat) : q.len b = records.length := by
  obtain ⟨-, index, rfl, -⟩ := h
  simp [DeathRowQueue.len]

theorem MemCoherent.windowSize {w : RefWindow H K} {m : MetaDb H K} {records : List (JournalRecord H K)}
    (h : MemCoherent w m records) : w.windowSize = records.length :=
  h.replay.len w.base

/-- The in-memory window names its oldest block next, and reads nothing. -/
theorem MemCoherent.nextHash {w : RefWindow H K} {m : MetaDb H K} {records : List (JournalRecord H K)}
    (h : MemCoherent w m records) (db : Db H K) : w.nextHash db = (w, records.head?.map (·.hash)) := by
  obtain ⟨-, index, hq, -⟩ := h.replay
  cases records with
  | nil => simp [RefWindow.nextHash, hq, rowsOf]
  | cons record records => simp [RefWindow.nextHash, hq, rowsOf, DeathRow.without, JournalRecord.toDeathRow]

/-! ## One block pruned -/

omit [DecidableEq K] in
/-- The journal less the record of the pruned block starts at the next block. -/
theorem JournalAt.prune {m : MetaDb H K} {base : Nat} {record : JournalRecord H K} {records : List (JournalRecord H K)}
    (h : JournalAt m base (record :: records)) :
    JournalAt ((m.setMeta (.lastPruned base)).removeMeta (.journal base)) (base + 1) records := by
  intro b
  simp only [MetaDb.setMeta, MetaDb.removeMeta]
  by_cases hb : b = base
  · subst hb
    simp [AList.lookup_erase]
  · rw [AList.lookup_erase_ne hb, h b]
    by_cases hle : base ≤ b
    · have hlt : base + 1 ≤ b := by omega
      rw [if_pos hle, if_pos hlt, show b - base = b - (base + 1) + 1 by omega, List.getElem?_cons_succ]
    · rw [if_neg hle, if_neg (by omega)]

/-- `prune_one` takes the row of the oldest record off, with the keys it deleted that no later block inserted again,
and the window goes on from the next block. -/
theorem pruneOne_mem {w : RefWindow H K} {m : MetaDb H K} {record : JournalRecord H K}
    {records : List (JournalRecord H K)} (h : MemCoherent w m (record :: records)) (db : Db H K)
    (commit : CommitSet H K) :
    ∃ w' commit', w.pruneOne db commit = (w', .ok commit') ∧
      commit'.data =
        ⟨commit.data.inserted, commit.data.deleted ++ (record.toDeathRow.without (insertedKeys records)).deleted⟩ ∧
      commit'.metaInserted = commit.metaInserted ++ [.lastPruned w.base] ∧
      commit'.metaDeleted = commit.metaDeleted ++ [.journal w.base] ∧
      w'.base = w.base + 1 ∧ MemCoherent w' ((m.setMeta (.lastPruned w.base)).removeMeta (.journal w.base)) records := by
  obtain ⟨hrow, hreplay⟩ := popFront_isReplay h.replay db
  have hpop : w.queue.popFront db w.base = ((w.queue.popFront db w.base).1, some _) := Prod.ext rfl hrow
  refine ⟨⟨(w.queue.popFront db w.base).1, w.base + 1⟩,
    { commit with
      data := ⟨commit.data.inserted, commit.data.deleted ++ (record.toDeathRow.without (insertedKeys records)).deleted⟩
      metaInserted := commit.metaInserted ++ [.lastPruned w.base]
      metaDeleted := commit.metaDeleted ++ [.journal w.base] }, ?_, rfl, rfl, rfl, rfl, hreplay, ?_, ?_⟩
  · rw [RefWindow.pruneOne, hpop]
  · exact h.journal.prune
  · simp [MetaDb.setMeta, MetaDb.removeMeta]

/-! ## One block noted -/

omit [DecidableEq K] in
theorem JournalAt.nil_rebase {m : MetaDb H K} {base : Nat} (h : JournalAt m base []) (base' : Nat) :
    JournalAt m base' [] := by
  intro b
  rw [h b]
  simp

omit [DecidableEq K] in
theorem JournalAt.snoc {m m' : MetaDb H K} {base : Nat} {records : List (JournalRecord H K)}
    (h : JournalAt m base records) {record : JournalRecord H K}
    (hm : m'.journal = m.journal.insert (base + records.length) record) : JournalAt m' base (records ++ [record]) := by
  intro b
  rw [hm]
  by_cases hb : b = base + records.length
  · subst hb
    simp [AList.lookup_insert]
  · rw [AList.lookup_insert_ne hb, h b]
    by_cases hle : base ≤ b
    · rw [if_pos hle, if_pos hle]
      rcases Nat.lt_or_ge (b - base) records.length with hlt | hge
      · rw [List.getElem?_append_left hlt]
      · rw [List.getElem?_eq_none hge, List.getElem?_eq_none (by simp; omega)]
    · rw [if_neg hle, if_neg hle]

theorem IsReplay.nil_rebase {base : Nat} {q : DeathRowQueue H K} (h : IsReplay base [] q) (base' : Nat) :
    IsReplay base' [] q := by
  obtain ⟨hok, index, hq, hexact⟩ := h
  refine ⟨hok, index, hq, ⟨hexact.nodup, fun k => ?_⟩⟩
  rw [hexact.index_eq k]
  rfl

theorem noteRecord_mem {w : RefWindow H K} {records : List (JournalRecord H K)} (h : IsReplay w.base records w.queue)
    (hash : H) (number : Nat) (commit : CommitSet H K)
    (hfresh : Fresh (rowsOf records) ⟨hash, commit.data.inserted.map (·.1), commit.data.deleted⟩) :
    ∃ q', w.noteRecord hash number commit =
        some ({ w with queue := q' },
          { commit with
            data := { commit.data with deleted := [] }
            metaInserted := commit.metaInserted ++
              [.journal number ⟨hash, commit.data.inserted.map (·.1), commit.data.deleted⟩] }) ∧
      IsReplay w.base (records ++ [⟨hash, commit.data.inserted.map (·.1), commit.data.deleted⟩]) q' := by
  obtain ⟨q', himport, hq'⟩ := import_isReplay h hfresh number
  obtain ⟨-, index, hq, -⟩ := h
  refine ⟨q', ?_, hq'⟩
  rw [hq] at himport
  simp only [RefWindow.noteRecord, hq, himport, Option.map_some]

/-- `note_canonical` of a fresh block on an in-memory window: an error for a block that is not the next one, or the
window with one more record, journaled in the commit. -/
theorem noteCanonical_mem {w : RefWindow H K} {m : MetaDb H K} {records : List (JournalRecord H K)}
    (h : MemCoherent w m records) (c : Canonicalization H K) (hfresh : Fresh (rowsOf records) c.record) :
    w.noteCanonical c.hash c.number c.commit = some (.error .invalidBlockNumber) ∨
      ∃ w' commit', w.noteCanonical c.hash c.number c.commit = some (.ok (w', commit')) ∧
        w'.base + records.length = c.number ∧ commit'.data = ⟨c.changeset.inserted, []⟩ ∧ commit'.metaDeleted = [] ∧
        MemCoherent w' (m.apply commit') (records ++ [c.record]) := by
  by_cases hwarp : w.base = 0 ∧ w.isEmpty ∧ 0 < c.number
  · -- the target of a warp sync: the window starts at it
    obtain ⟨hbase, hempty, hpos⟩ := hwarp
    have hnil : records = [] := by
      have := h.windowSize
      simp only [RefWindow.isEmpty, decide_eq_true_eq] at hempty
      exact List.eq_nil_of_length_eq_zero (by omega)
    subst hnil
    obtain ⟨q', hnote, hq'⟩ := noteRecord_mem (w := { w with base := c.number }) (h.replay.nil_rebase c.number)
      c.hash c.number { c.commit with metaInserted := c.commit.metaInserted ++ [.lastPruned (c.number - 1)] } hfresh
    rw [RefWindow.noteCanonical, if_pos ⟨hbase, hempty, hpos⟩, hnote]
    refine Or.inr ⟨_, _, rfl, by simp, rfl, rfl, hq', ?_, ?_⟩
    · exact (h.journal.nil_rebase c.number).snoc (by simp [MetaDb.apply, MetaDb.setMeta, Canonicalization.commit,
        Canonicalization.record])
    · simp [MetaDb.apply, MetaDb.setMeta, Canonicalization.commit]
      omega
  · by_cases hnum : w.base + w.windowSize = c.number
    · obtain ⟨q', hnote, hq'⟩ := noteRecord_mem h.replay c.hash c.number c.commit hfresh
      rw [RefWindow.noteCanonical, if_neg hwarp, if_neg (not_not.mpr hnum), hnote]
      rw [h.windowSize] at hnum
      refine Or.inr ⟨_, _, rfl, hnum, rfl, rfl, hq', ?_, ?_⟩
      · exact h.journal.snoc (by simp [MetaDb.apply, MetaDb.setMeta, Canonicalization.commit, Canonicalization.record,
          hnum])
      · simpa [MetaDb.apply, MetaDb.setMeta, Canonicalization.commit] using h.lastPruned
    · left
      rw [RefWindow.noteCanonical, if_neg hwarp, if_pos hnum]

/-! ## The pruning loop -/

/-- The pruning loop over a window invariant `Inv w commit records` each of whose turns, over a window above
`maxBlocks`, stops at the oldest block, pinned or `Blocked`, or prunes it and goes on: the loop prunes the `n` oldest
blocks, none pinned, and stops with at most `maxBlocks` blocks, a pinned block next, or blocked; the commit deletes the
keys of their `rows`. -/
theorem pruneLoop_of_turn [DecidableEq H] (db : Db H K) (maxBlocks : Nat) (pinned : List H)
    (Inv : RefWindow H K → CommitSet H K → List (JournalRecord H K) → Prop) (Blocked : RefWindow H K → Prop)
    (rows : List (JournalRecord H K) → List (DeathRow H K)) (hrows : ∀ r rs, (rows (r :: rs)).tail = rows rs)
    (hsize : ∀ w commit records, Inv w commit records → w.windowSize = records.length)
    (hturn : ∀ fuel w commit r rs, Inv w commit (r :: rs) → maxBlocks < rs.length + 1 →
      (∃ w₁, RefWindow.pruneLoop db maxBlocks pinned (fuel + 1) w commit = (w₁, commit) ∧ w₁.base = w.base ∧
        Inv w₁ commit (r :: rs) ∧ (r.hash ∈ pinned ∨ Blocked w₁)) ∨
      (r.hash ∉ pinned ∧ ∃ w' commit', RefWindow.pruneLoop db maxBlocks pinned (fuel + 1) w commit =
        RefWindow.pruneLoop db maxBlocks pinned fuel w' commit' ∧ w'.base = w.base + 1 ∧ Inv w' commit' rs ∧
        commit'.data = ⟨commit.data.inserted, commit.data.deleted ++ ((rows (r :: rs)).take 1).flatMap (·.deleted)⟩)) :
    ∀ fuel w commit records, Inv w commit records → records.length ≤ fuel →
      ∃ n w' commit', RefWindow.pruneLoop db maxBlocks pinned fuel w commit = (w', commit') ∧ n ≤ records.length ∧
        w'.base = w.base + n ∧ Inv w' commit' (records.drop n) ∧
        commit'.data = ⟨commit.data.inserted, commit.data.deleted ++ ((rows records).take n).flatMap (·.deleted)⟩ ∧
        (∀ r ∈ records.take n, r.hash ∉ pinned) ∧
        (records.length - n ≤ maxBlocks ∨ (∃ r ∈ (records.drop n).head?, r.hash ∈ pinned) ∨ Blocked w')
  | 0, w, commit, records, h, hlen => by
    obtain rfl : records = [] := List.eq_nil_of_length_eq_zero (Nat.le_zero.mp hlen)
    exact ⟨0, w, commit, rfl, le_rfl, rfl, h, by simp, by simp, Or.inl (by simp)⟩
  | fuel + 1, w, commit, records, h, hlen => by
    by_cases hsmall : records.length ≤ maxBlocks
    · refine ⟨0, w, commit, ?_, Nat.zero_le _, rfl, h, by simp, by simp, Or.inl (by simpa using hsmall)⟩
      rw [RefWindow.pruneLoop, if_pos (by rw [hsize _ _ _ h]; exact hsmall)]
    · obtain ⟨r, rs, rfl⟩ : ∃ r rs, records = r :: rs :=
        List.exists_cons_of_ne_nil fun hnil => hsmall (by simp [hnil])
      rcases hturn fuel w commit r rs h (by simpa using hsmall) with
        ⟨w₁, hloop, hbase₁, h₁, hstop⟩ | ⟨hpin, w₁, commit₁, hloop, hbase₁, h₁, hdata₁⟩
      · -- the loop stops before the oldest block
        refine ⟨0, w₁, commit, hloop, Nat.zero_le _, by simp [hbase₁], h₁, by simp, by simp, Or.inr ?_⟩
        rcases hstop with hp | hb
        · exact Or.inl ⟨r, rfl, hp⟩
        · exact Or.inr hb
      · -- the oldest block is pruned, and the loop goes on with the others
        obtain ⟨n, w', commit', hloop', hn, hbase', h', hdata, hpins, hstop⟩ :=
          pruneLoop_of_turn db maxBlocks pinned Inv Blocked rows hrows hsize hturn fuel w₁ commit₁ rs h₁ (by simpa using hlen)
        refine ⟨n + 1, w', commit', hloop.trans hloop', by simpa using hn, by omega, by simpa using h', ?_, ?_,
          by simpa using hstop⟩
        · have htake : (rows (r :: rs)).take (n + 1) = (rows (r :: rs)).take 1 ++ (rows rs).take n := by
            rw [Nat.add_comm, List.take_add, List.drop_one, hrows]
          rw [hdata, hdata₁, htake, List.flatMap_append, List.append_assoc]
        · simpa [hpin] using hpins

/-- The pruning loop on an in-memory window prunes the `n` oldest blocks, none of them pinned, and stops with at most
`maxBlocks` blocks or with a pinned block next; the commit deletes the keys of their rows, and the journal loses
their records. -/
theorem pruneLoop_mem [DecidableEq H] {m₀ : MetaDb H K} (db : Db H K) (maxBlocks : Nat) (pinned : List H) :
    ∀ (fuel : Nat) (w : RefWindow H K) (commit : CommitSet H K) (records : List (JournalRecord H K)),
      MemCoherent w (m₀.apply commit) records → MetaKey.lastPruned ∉ commit.metaDeleted → records.length ≤ fuel →
      ∃ n w' commit', RefWindow.pruneLoop db maxBlocks pinned fuel w commit = (w', commit') ∧ n ≤ records.length ∧
        w'.base = w.base + n ∧ MemCoherent w' (m₀.apply commit') (records.drop n) ∧
        MetaKey.lastPruned ∉ commit'.metaDeleted ∧
        commit'.data = ⟨commit.data.inserted, commit.data.deleted ++ ((rowsOf records).take n).flatMap (·.deleted)⟩ ∧
        (∀ r ∈ records.take n, r.hash ∉ pinned) ∧
        (records.length - n ≤ maxBlocks ∨ ∃ r ∈ (records.drop n).head?, r.hash ∈ pinned) := by
  intro fuel w commit records h hlp hlen
  have hloop := pruneLoop_of_turn db maxBlocks pinned
    (fun w commit records => MemCoherent w (m₀.apply commit) records ∧ MetaKey.lastPruned ∉ commit.metaDeleted)
    (fun _ => False) rowsOf (fun _ _ => rfl) (fun _ _ _ h => h.1.windowSize) ?_ fuel w commit records ⟨h, hlp⟩ hlen
  · obtain ⟨n, w', commit', hloop, hn, hbase, ⟨h', hlp'⟩, hdata, hpins, hstop⟩ := hloop
    exact ⟨n, w', commit', hloop, hn, hbase, h', hlp', hdata, hpins, by simpa using hstop⟩
  · rintro fuel w commit record records ⟨h, hlp⟩ hsize
    have hbig : ¬w.windowSize ≤ maxBlocks := by
      rw [h.windowSize]
      simpa using hsize
    by_cases hpin : record.hash ∈ pinned
    · -- the oldest block is pinned: the loop stops before it
      refine Or.inl ⟨w, ?_, rfl, ⟨h, hlp⟩, Or.inl hpin⟩
      rw [RefWindow.pruneLoop, if_neg hbig, h.nextHash db]
      simp [hpin]
    · obtain ⟨w₁, commit₁, hprune, hdata₁, hins₁, hdel₁, hbase₁, h₁⟩ := pruneOne_mem h db commit
      rw [← MetaDb.apply_pruneOne m₀ hlp hins₁ hdel₁] at h₁
      refine Or.inr ⟨hpin, w₁, commit₁, ?_, hbase₁, ⟨h₁, by simp [hdel₁, hlp]⟩, ?_⟩
      · rw [RefWindow.pruneLoop, if_neg hbig, h.nextHash db]
        simp [hpin, hprune]
      · rw [hdata₁]
        simp [rowsOf]

/-! ## One canonicalization -/

/-- A canonicalization of a fresh block on an in-memory window fails for a block that is not the next; otherwise it
notes the block and prunes the `n` oldest blocks, none pinned, until the window is small enough or its next block is
pinned. The commit writes the block's inserts and deletes the keys of the pruned rows. -/
theorem canonicalizeBlock_mem [DecidableEq H] {w : RefWindow H K} {db : Db H K} {records : List (JournalRecord H K)}
    (h : MemCoherent w db.stateMeta records) (maxBlocks : Option Nat) (c : Canonicalization H K)
    (hfresh : Fresh (rowsOf records) c.record) :
    w.canonicalizeBlock db maxBlocks c.pinned c.hash c.number c.commit = some (.error .invalidBlockNumber) ∨
      ∃ n w' commit', w.canonicalizeBlock db maxBlocks c.pinned c.hash c.number c.commit = some (.ok (w', commit')) ∧
        n ≤ records.length + 1 ∧ w'.base + records.length = c.number + n ∧
        MemCoherent w' (db.stateMeta.apply commit') ((records ++ [c.record]).drop n) ∧
        commit'.data = ⟨c.changeset.inserted, ((rowsOf (records ++ [c.record])).take n).flatMap (·.deleted)⟩ ∧
        (∀ r ∈ (records ++ [c.record]).take n, r.hash ∉ c.pinned) ∧
        (records.length + 1 - n ≤ maxBlocks.getD 0 ∨ ∃ r ∈ ((records ++ [c.record]).drop n).head?, r.hash ∈ c.pinned) := by
  rcases noteCanonical_mem h c hfresh with herr | ⟨w₁, commit₁, hnote, hbase₁, hdata₁, hdel₁, h₁⟩
  · left
    simp [RefWindow.canonicalizeBlock, herr, Except.map]
  · obtain ⟨n, w', commit', hloop, hn, hbase', h', hlp', hdata, hpins, hstop⟩ :=
      pruneLoop_mem db (maxBlocks.getD 0) c.pinned w₁.windowSize w₁ commit₁ (records ++ [c.record]) h₁
        (by simp [hdel₁]) (by rw [h₁.windowSize])
    right
    refine ⟨n, w', commit', ?_, by simpa using hn, by omega, h', ?_, hpins, by simpa using hstop⟩
    · simp [RefWindow.canonicalizeBlock, hnote, RefWindow.prune, Except.map, hloop]
    · rw [hdata, hdata₁]
      simp

/-! ## Runs -/

/-- The keys waiting for deletion in the rows of an in-memory window. -/
def RefWindow.waitingKeys (w : RefWindow H K) : List K :=
  match w.queue with
  | .mem deathRows _ => pendingKeys deathRows
  | .dbBacked _ _ _ => []

/-- A canonicalization whose block deletes no key that waits for deletion in the window, unless it inserts it
again. -/
def MemAllowed (s : RefWindow H K × Db H K) (c : Canonicalization H K) : Prop :=
  ∀ k ∈ c.changeset.deleted, k ∈ s.1.waitingKeys → k ∈ c.changeset.inserted.map (·.1)

/-- A fresh database with the state column `state`, and the in-memory window `RefWindow::new` opens on it. -/
def memStart (state : K → Option (List UInt8)) : RefWindow H K × Db H K :=
  (⟨.mem [] ∅, 0⟩, ⟨state, ⟨none, none, ∅⟩⟩)

/-- An allowed block is fresh for the rows of a coherent window. -/
theorem MemCoherent.fresh {w : RefWindow H K} {m : MetaDb H K} {records : List (JournalRecord H K)}
    (h : MemCoherent w m records) {db : Db H K} {c : Canonicalization H K} (hc : MemAllowed (w, db) c) :
    Fresh (rowsOf records) c.record := by
  obtain ⟨-, index, hq, -⟩ := h.replay
  intro k hk hpend
  exact hc k hk (by simpa [RefWindow.waitingKeys, hq] using hpend)

/-- Every state reached from a fresh database by allowed canonicalizations is coherent. -/
theorem mem_reach_coherent [DecidableEq H] {maxBlocks : Option Nat} {state₀ : K → Option (List UInt8)}
    {s : RefWindow H K × Db H K} (hs : Reach (memStart state₀) (canonicalizeStep maxBlocks) MemAllowed s) :
    ∃ records, MemCoherent s.1 s.2.stateMeta records := by
  refine Reach.invariant (P := fun s => ∃ records, MemCoherent s.1 s.2.stateMeta records) ?_ ?_ hs
  · exact ⟨[], isReplay_nil 0, fun b => by simp [memStart], rfl⟩
  · rintro ⟨w, db⟩ c ⟨records, h⟩ hc
    rcases canonicalizeBlock_mem h maxBlocks c (h.fresh hc) with herr | ⟨n, w', commit', hok, -, -, h', -⟩
    · exact ⟨records, by simpa [canonicalizeStep, herr] using h⟩
    · exact ⟨_, by simpa [canonicalizeStep, hok, Db.apply] using h'⟩

/-- Key `5` is set on an empty database; block `0` inserts key `7`, block `1` deletes key `5`, and the window
keeps one block. -/
def sampleState : Nat → Option (List UInt8) := fun k => if k = 5 then some [0] else none

def sampleInsert : Canonicalization Nat Nat := ⟨10, 0, ⟨[(7, [1])], []⟩, []⟩

def sampleDelete : Canonicalization Nat Nat := ⟨11, 1, ⟨[], [5]⟩, []⟩

def insertDeleteRun : RefWindow Nat Nat × Db Nat Nat :=
  canonicalizeStep (some 1) (canonicalizeStep (some 1) (memStart sampleState) sampleInsert) sampleDelete

theorem reach_insertDeleteRun :
    Reach (memStart sampleState) (canonicalizeStep (some 1)) MemAllowed insertDeleteRun := by
  refine Reach.step (Reach.step Reach.init ?_) ?_
  · intro k hk
    simp [sampleInsert] at hk
  · unfold MemAllowed
    decide

/-- Block `1`'s row waits in the window for key `5`, which the state column still holds. -/
example : insertDeleteRun.1.waitingKeys = [5] ∧ insertDeleteRun.2.state 5 = some [0] := by decide

/-- `RefWindow::new` over the database of every state reached from a fresh database by allowed canonicalizations
opens the window the node had in memory: the same base, the same death rows, and a death index with the same
lookups. -/
theorem mem_window_restored [DecidableEq H] {maxBlocks : Option Nat} {state₀ : K → Option (List UInt8)}
    {s : RefWindow H K × Db H K} (hs : Reach (memStart state₀) (canonicalizeStep maxBlocks) MemAllowed s)
    (windowSize : Nat) :
    ∃ w, RefWindow.new s.2 windowSize true = some w ∧ w.base = s.1.base ∧
      ∃ (rows : List (DeathRow H K)) (index index' : AList (fun _ : K => Nat)),
        w.queue = .mem rows index ∧ s.1.queue = .mem rows index' ∧ ∀ k, index.lookup k = index'.lookup k := by
  obtain ⟨records, h⟩ := mem_reach_coherent hs
  obtain ⟨q, hnew, hq⟩ := newMem_isReplay h.journal h.replay.1
  refine ⟨⟨q, s.1.base⟩, ?_, rfl, hq.agree h.replay⟩
  simp only [RefWindow.new, if_true, h.lastPruned, hnew, Option.map_some]

theorem mem_window_restored_insertDelete :
    ∃ w, RefWindow.new insertDeleteRun.2 1 true = some w ∧ w.base = insertDeleteRun.1.base ∧
      ∃ (rows : List (DeathRow Nat Nat)) (index index' : AList (fun _ : Nat => Nat)),
        w.queue = .mem rows index ∧ insertDeleteRun.1.queue = .mem rows index' ∧
        ∀ k, index.lookup k = index'.lookup k :=
  mem_window_restored reach_insertDeleteRun 1

/-! ## What a reached window prunes -/

/-- In every state reached from a fresh database by allowed canonicalizations, an accepted canonicalization prunes the
oldest blocks, none pinned, and commits the deletion of exactly the keys of their death rows, leaving at most
`max_blocks` blocks unless the oldest is pinned; a refused one is of a block that is not the next. -/
theorem mem_canonicalize_prunes_oldest [DecidableEq H] {maxBlocks : Option Nat} {state₀ : K → Option (List UInt8)}
    {s : RefWindow H K × Db H K} (hs : Reach (memStart state₀) (canonicalizeStep maxBlocks) MemAllowed s)
    (c : Canonicalization H K) (hc : MemAllowed s c) :
    ∃ records : List (JournalRecord H K), JournalAt s.2.stateMeta s.1.base records ∧
      (s.1.canonicalizeBlock s.2 maxBlocks c.pinned c.hash c.number c.commit = some (.error .invalidBlockNumber) ∨
        ∃ n w' commit', s.1.canonicalizeBlock s.2 maxBlocks c.pinned c.hash c.number c.commit =
            some (.ok (w', commit')) ∧
          commit'.data = ⟨c.changeset.inserted, ((rowsOf (records ++ [c.record])).take n).flatMap (·.deleted)⟩ ∧
          (∀ r ∈ (records ++ [c.record]).take n, r.hash ∉ c.pinned) ∧
          w'.windowSize = records.length + 1 - n ∧
          (w'.windowSize ≤ maxBlocks.getD 0 ∨ ∃ r ∈ ((records ++ [c.record]).drop n).head?, r.hash ∈ c.pinned)) := by
  obtain ⟨records, h⟩ := mem_reach_coherent hs
  refine ⟨records, h.journal, ?_⟩
  rcases canonicalizeBlock_mem h maxBlocks c (h.fresh hc) with herr | ⟨n, w', commit', hok, hn, -, h', hdata, hpins, hstop⟩
  · exact Or.inl herr
  · have hsize : w'.windowSize = records.length + 1 - n := by
      rw [h'.windowSize, List.length_drop, List.length_append, List.length_singleton]
    exact Or.inr ⟨n, w', commit', hok, hdata, hpins, hsize, hsize ▸ hstop⟩

/-- Block `2`, which deletes nothing, canonicalized after `insertDeleteRun`. -/
def sampleEmpty : Canonicalization Nat Nat := ⟨12, 2, ⟨[], []⟩, []⟩

theorem mem_canonicalize_prunes_oldest_insertDelete :
    ∃ records : List (JournalRecord Nat Nat), JournalAt insertDeleteRun.2.stateMeta insertDeleteRun.1.base records ∧
      (insertDeleteRun.1.canonicalizeBlock insertDeleteRun.2 (some 1) sampleEmpty.pinned sampleEmpty.hash
          sampleEmpty.number sampleEmpty.commit = some (.error .invalidBlockNumber) ∨
        ∃ n w' commit', insertDeleteRun.1.canonicalizeBlock insertDeleteRun.2 (some 1) sampleEmpty.pinned
            sampleEmpty.hash sampleEmpty.number sampleEmpty.commit = some (.ok (w', commit')) ∧
          commit'.data = ⟨sampleEmpty.changeset.inserted,
            ((rowsOf (records ++ [sampleEmpty.record])).take n).flatMap (·.deleted)⟩ ∧
          (∀ r ∈ (records ++ [sampleEmpty.record]).take n, r.hash ∉ sampleEmpty.pinned) ∧
          w'.windowSize = records.length + 1 - n ∧
          (w'.windowSize ≤ (some 1).getD 0 ∨
            ∃ r ∈ ((records ++ [sampleEmpty.record]).drop n).head?, r.hash ∈ sampleEmpty.pinned)) :=
  mem_canonicalize_prunes_oldest reach_insertDeleteRun sampleEmpty (by unfold MemAllowed; decide)

end CoreChain.StateDb.Pruning

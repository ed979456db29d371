import Mathlib
import CoreChain.StateDb.PruningRuns

/-!
# Runs of the database-backed pruning window

The window with the database-backed queue (for a database with reference counting, whose journal records no
inserted keys): the first death rows are cached, the others read from the journal when the cache runs out. Runs are
those of `PruningRuns`, with any blocks, from the window `RefWindow::new` opens on a fresh database (`cacheStart`).

- A cache of death rows (`CacheOf`) holds the rows of the first records, within its capacity; a load reads such rows
  from a journal that agrees with the records (`loadRows_prefix_of_agrees`), and `import` keeps it (`CacheOf.import`).
- The invariant `CacheCoherent`: the database holds the journal from `base` on, the queue's cache is a cache of its
  records, `last` is the block of `LAST_CANONICAL`, and the window counts the records. The calls of a
  canonicalization read the database as it was before their commit (`JournalAgrees`); `note_canonical` keeps the
  invariant with one more record (`noteCanonical_cache`), and the pruning loop prunes the oldest records until the
  window is small enough, its next block is pinned, or only the block just canonicalized is left, whose record is
  not in the database yet (`canonicalizeBlock_cache`).
- Every reached state has it (`cache_reach_coherent`), and `RefWindow::new` over the database rebuilds the same
  window, with a cache the live one is a prefix of (`cache_window_restored`).
-/

namespace CoreChain.StateDb.Pruning

variable {H K : Type} [DecidableEq K]

/-! ## Loads from the journal -/

/-- Every record the journal holds from block `base` on is the record of `records` at its place. -/
def JournalAgrees (m : MetaDb H K) (base : Nat) (records : List (JournalRecord H K)) : Prop :=
  ∀ i record, m.journal.lookup (base + i) = some record → records[i]? = some record

omit [DecidableEq K] in
theorem JournalAt.agrees {m : MetaDb H K} {base : Nat} {records : List (JournalRecord H K)}
    (h : JournalAt m base records) : JournalAgrees m base records := by
  intro i record hi
  rwa [h (base + i), if_pos (Nat.le_add_right base i), Nat.add_sub_cancel_left] at hi

omit [DecidableEq K] in
theorem JournalAgrees.append {m : MetaDb H K} {base : Nat} {records : List (JournalRecord H K)}
    (h : JournalAgrees m base records) (more : List (JournalRecord H K)) : JournalAgrees m base (records ++ more) := by
  intro i record hi
  have hr := h i record hi
  obtain ⟨hlt, -⟩ := List.getElem?_eq_some_iff.mp hr
  rw [List.getElem?_append_left hlt, hr]

omit [DecidableEq K] in
theorem JournalAgrees.tail {m : MetaDb H K} {base : Nat} {record : JournalRecord H K}
    {records : List (JournalRecord H K)} (h : JournalAgrees m base (record :: records)) :
    JournalAgrees m (base + 1) records := by
  intro i r hi
  have hr := h (i + 1) r (by rwa [show base + (i + 1) = base + 1 + i by omega])
  simpa using hr

omit [DecidableEq K] in
/-- A journal empty from some block on agrees with anything from any block. -/
theorem JournalAt.agrees_of_nil {m : MetaDb H K} {base : Nat} (h : JournalAt m base []) (base' : Nat)
    (records : List (JournalRecord H K)) : JournalAgrees m base' records := by
  intro i record hi
  rw [h] at hi
  simp at hi

theorem loadRows_of_lookup_none {db : Db H K} {block : Nat} (h : db.stateMeta.journal.lookup block = none)
    (n : Nat) : loadRows db n block = [] := by
  cases n with
  | zero => rfl
  | succ n => simp [loadRows, loadDeathRowFromDb, h]

theorem length_loadRows_le (db : Db H K) : ∀ n block, (loadRows db n block).length ≤ n
  | 0, _ => le_rfl
  | n + 1, block => by
    rw [loadRows]
    split
    · exact Nat.zero_le _
    · simpa using length_loadRows_le db n (block + 1)

/-- A load from a journal that agrees with `records` reads the death rows of their first records. -/
theorem loadRows_prefix_of_agrees (db : Db H K) :
    ∀ (n base : Nat) (records : List (JournalRecord H K)), JournalAgrees db.stateMeta base records →
      loadRows db n base <+: records.map JournalRecord.toDeathRow
  | 0, _, _, _ => List.nil_prefix
  | n + 1, base, records, h => by
    cases hb : db.stateMeta.journal.lookup base with
    | none => simp [loadRows, loadDeathRowFromDb, hb]
    | some record =>
      have hr : records[0]? = some record := h 0 record (by simpa using hb)
      obtain ⟨rs, rfl⟩ : ∃ rs, records = record :: rs := by
        cases records with
        | nil => simp at hr
        | cons r rs =>
          simp only [List.getElem?_cons_zero, Option.some.injEq] at hr
          exact ⟨rs, by rw [hr]⟩
      simp only [loadRows, loadDeathRowFromDb, hb, Option.map_some, List.map_cons]
      exact List.cons_prefix_cons.mpr ⟨rfl, loadRows_prefix_of_agrees db n (base + 1) rs h.tail⟩

/-- A load from the journal of `records` reads the death rows of as many of them as it may. -/
theorem loadRows_eq_take {db : Db H K} {base : Nat} {records : List (JournalRecord H K)}
    (h : JournalAt db.stateMeta base records) :
    ∀ n i, loadRows db n (base + i) = ((records.drop i).map JournalRecord.toDeathRow).take n
  | 0, _ => by simp [loadRows]
  | n + 1, i => by
    rcases Nat.lt_or_ge i records.length with hi | hi
    · -- the record of block `base + i` is read, then those after it
      have hb : db.stateMeta.journal.lookup (base + i) = some records[i] := by
        rw [h, if_pos (Nat.le_add_right base i), Nat.add_sub_cancel_left, List.getElem?_eq_getElem hi]
      simp only [loadRows, loadDeathRowFromDb, hb, Option.map_some, List.drop_eq_getElem_cons hi, List.map_cons,
        List.take_succ_cons]
      rw [← loadRows_eq_take h n (i + 1), Nat.add_assoc]
    · have hb : db.stateMeta.journal.lookup (base + i) = none := by
        rw [h, if_pos (Nat.le_add_right base i), Nat.add_sub_cancel_left, List.getElem?_eq_none hi]
      rw [loadRows_of_lookup_none hb, List.drop_eq_nil_of_le hi]
      rfl

/-! ## Caches of death rows -/

/-- A cache of death rows over `records`: the death rows of their first records, within a capacity of at least
one. -/
structure CacheOf (records : List (JournalRecord H K)) (cache : List (DeathRow H K)) (cacheCapacity : Nat) :
    Prop where
  rows : cache <+: records.map JournalRecord.toDeathRow
  length_le : cache.length ≤ cacheCapacity
  pos : 0 < cacheCapacity

/-- The cache `next_hash` and `pop_front` load where it has run out is a cache of the same records. -/
theorem CacheOf.load {records : List (JournalRecord H K)} {cache : List (DeathRow H K)} {cacheCapacity : Nat}
    (h : CacheOf records cache cacheCapacity) {db : Db H K} {base : Nat}
    (hagree : JournalAgrees db.stateMeta base records) :
    CacheOf records (if cache.isEmpty then loadBatchFromDb db cache base cacheCapacity else cache) cacheCapacity := by
  cases cache with
  | nil =>
    simp only [List.isEmpty_nil, if_true, loadBatchFromDb, List.nil_append, List.length_nil, Nat.add_zero]
    exact ⟨loadRows_prefix_of_agrees db cacheCapacity base records hagree, length_loadRows_le db cacheCapacity base, h.pos⟩
  | cons row cache => simpa using h

/-- A cache that is still empty after a load ran into a block with no journal record. -/
theorem load_eq_nil {cache : List (DeathRow H K)} {cacheCapacity : Nat} (hpos : 0 < cacheCapacity) {db : Db H K}
    {base : Nat} (h : (if cache.isEmpty then loadBatchFromDb db cache base cacheCapacity else cache) = []) :
    cache = [] ∧ db.stateMeta.journal.lookup base = none := by
  cases cache with
  | cons row cache => simp at h
  | nil =>
    obtain ⟨n, rfl⟩ : ∃ n, cacheCapacity = n + 1 := ⟨cacheCapacity - 1, by omega⟩
    refine ⟨rfl, ?_⟩
    cases hb : db.stateMeta.journal.lookup base with
    | none => rfl
    | some record => simp [loadBatchFromDb, loadRows, loadDeathRowFromDb, hb] at h

/-- `import` into a database-backed queue keeps a cache of the records, one more of which is the record of block
`num`, the next one. -/
theorem CacheOf.import {records : List (JournalRecord H K)} {cache : List (DeathRow H K)} {cacheCapacity : Nat}
    (h : CacheOf records cache cacheCapacity) {base num : Nat} (hnum : num = base + records.length)
    (record : JournalRecord H K) :
    CacheOf (records ++ [record])
      (if num = base + cache.length ∧ cache.length < cacheCapacity then cache ++ [record.toDeathRow] else cache)
      cacheCapacity := by
  by_cases hpush : num = base + cache.length ∧ cache.length < cacheCapacity
  · -- the cache held every record, and takes the new one
    rw [if_pos hpush]
    have hall : cache = records.map JournalRecord.toDeathRow :=
      h.rows.eq_of_length (by rw [List.length_map]; omega)
    refine ⟨?_, by simpa using hpush.2, h.pos⟩
    rw [hall, List.map_append, List.map_singleton]
  · rw [if_neg hpush]
    refine ⟨?_, h.length_le, h.pos⟩
    rw [List.map_append]
    exact h.rows.trans (List.prefix_append _ _)

/-! ## The invariant -/

/-- The record the database-backed queue journals for a canonicalization: no inserted keys, and the keys its
changeset deletes. -/
def Canonicalization.cacheRecord (c : Canonicalization H K) : JournalRecord H K :=
  ⟨c.hash, [], c.changeset.deleted⟩

/-- A database-backed window of capacity `cacheCapacity` over the journal records the meta column holds from `base`: the
queue's cache caches them, `last` is `LAST_CANONICAL`'s block and counts them, and `LAST_PRUNED` is the block before
`base`. -/
structure CacheCoherent (cacheCapacity : Nat) (w : RefWindow H K) (m : MetaDb H K)
    (records : List (JournalRecord H K)) : Prop where
  queue : ∃ cache, w.queue = .dbBacked cache cacheCapacity (m.lastCanonical.map (·.2)) ∧
    CacheOf records cache cacheCapacity
  last : (m.lastCanonical.map (·.2)).elim 0 (· + 1 - w.base) = records.length
  journal : JournalAt m w.base records
  lastPruned : (m.lastPruned.map (· + 1)).getD 0 = w.base

theorem CacheCoherent.windowSize {cacheCapacity : Nat} {w : RefWindow H K} {m : MetaDb H K}
    {records : List (JournalRecord H K)} (h : CacheCoherent cacheCapacity w m records) :
    w.windowSize = records.length := by
  obtain ⟨cache, hq, -⟩ := h.queue
  rw [RefWindow.windowSize, hq, DeathRowQueue.len, h.last]

/-- `next_hash` on a coherent window loads the cache where it has run out, and names its first block; a cache
still empty ran into a block with no journal record. -/
theorem CacheCoherent.nextHash {cacheCapacity : Nat} {w : RefWindow H K} {m : MetaDb H K}
    {records : List (JournalRecord H K)} (h : CacheCoherent cacheCapacity w m records) {db : Db H K}
    (hagree : JournalAgrees db.stateMeta w.base records) :
    ∃ cache, w.nextHash db = (⟨.dbBacked cache cacheCapacity (m.lastCanonical.map (·.2)), w.base⟩,
        cache.head?.map (·.hash)) ∧
      CacheCoherent cacheCapacity ⟨.dbBacked cache cacheCapacity (m.lastCanonical.map (·.2)), w.base⟩ m records ∧
      (cache = [] → db.stateMeta.journal.lookup w.base = none) := by
  obtain ⟨cache, hq, hcache⟩ := h.queue
  refine ⟨_, ?_, ⟨⟨_, rfl, hcache.load hagree⟩, h.last, h.journal, h.lastPruned⟩,
    fun hnil => (load_eq_nil hcache.pos hnil).2⟩
  rw [RefWindow.nextHash, hq]

/-- `prune_one` on a coherent window whose cache starts with the row of the oldest record takes that row off, and
the window goes on from the next block. -/
theorem CacheCoherent.pruneOne {cacheCapacity : Nat} {w : RefWindow H K} {m : MetaDb H K}
    {record : JournalRecord H K} {records : List (JournalRecord H K)} (h : CacheCoherent cacheCapacity w m (record :: records))
    {cache : List (DeathRow H K)}
    (hq : w.queue = .dbBacked (record.toDeathRow :: cache) cacheCapacity (m.lastCanonical.map (·.2)))
    (db : Db H K) (commit : CommitSet H K) :
    ∃ w' commit', w.pruneOne db commit = (w', .ok commit') ∧
      commit'.data = ⟨commit.data.inserted, commit.data.deleted ++ record.toDeathRow.deleted⟩ ∧
      commit'.metaInserted = commit.metaInserted ++ [.lastPruned w.base] ∧
      commit'.metaDeleted = commit.metaDeleted ++ [.journal w.base] ∧
      w'.base = w.base + 1 ∧
      CacheCoherent cacheCapacity w' ((m.setMeta (.lastPruned w.base)).removeMeta (.journal w.base)) records := by
  obtain ⟨cache', hq', hcache⟩ := h.queue
  rw [hq] at hq'
  obtain ⟨rfl, -, -⟩ := DeathRowQueue.dbBacked.inj hq'
  have hcache' : CacheOf records cache cacheCapacity := by
    obtain ⟨-, hrows⟩ := List.cons_prefix_cons.mp hcache.rows
    exact ⟨hrows, by simpa using Nat.le_of_succ_le hcache.length_le, hcache.pos⟩
  refine ⟨⟨.dbBacked cache cacheCapacity (m.lastCanonical.map (·.2)), w.base + 1⟩,
    { commit with
      data := ⟨commit.data.inserted, commit.data.deleted ++ record.toDeathRow.deleted⟩
      metaInserted := commit.metaInserted ++ [.lastPruned w.base]
      metaDeleted := commit.metaDeleted ++ [.journal w.base] }, ?_, rfl, rfl, rfl, rfl,
    ⟨⟨cache, rfl, hcache'⟩, ?_, h.journal.prune, by simp [MetaDb.setMeta, MetaDb.removeMeta]⟩⟩
  · simp [RefWindow.pruneOne, hq, DeathRowQueue.popFront]
  · -- `last` is unchanged, one block past the new base
    have hlast := h.last
    simp only [MetaDb.setMeta, MetaDb.removeMeta]
    cases hlc : m.lastCanonical with
    | none => simp [hlc] at hlast
    | some hn =>
      simp only [hlc, Option.map_some, Option.elim_some, List.length_cons] at hlast ⊢
      omega

/-! ## One block noted -/

/-- The record of `note_canonical` joins a database-backed queue whose window ends before block `number`. -/
theorem noteRecord_cache {w : RefWindow H K} {records : List (JournalRecord H K)} {cache : List (DeathRow H K)}
    {cacheCapacity : Nat} {last : Option Nat} (hq : w.queue = .dbBacked cache cacheCapacity last)
    (hcache : CacheOf records cache cacheCapacity) (hash : H) (number : Nat) (hnum : number = w.base + records.length)
    (commit : CommitSet H K) :
    ∃ cache', w.noteRecord hash number commit =
        some (⟨.dbBacked cache' cacheCapacity (some number), w.base⟩,
          { commit with
            data := { commit.data with deleted := [] }
            metaInserted := commit.metaInserted ++ [.journal number ⟨hash, [], commit.data.deleted⟩] }) ∧
      CacheOf (records ++ [⟨hash, [], commit.data.deleted⟩]) cache' cacheCapacity := by
  refine ⟨_, ?_, hcache.import hnum _⟩
  simp only [RefWindow.noteRecord, hq, DeathRowQueue.import, Option.map_some]

/-- `note_canonical` on a coherent database-backed window: an error for a block that is not the next one, or the
window with one more record, journaled in the commit; the window starts where it did unless it was empty. -/
theorem noteCanonical_cache {cacheCapacity : Nat} {w : RefWindow H K} {m : MetaDb H K}
    {records : List (JournalRecord H K)} (h : CacheCoherent cacheCapacity w m records) (c : Canonicalization H K) :
    w.noteCanonical c.hash c.number c.commit = some (.error .invalidBlockNumber) ∨
      ∃ w' commit', w.noteCanonical c.hash c.number c.commit = some (.ok (w', commit')) ∧
        w'.base + records.length = c.number ∧ (w'.base = w.base ∨ records = []) ∧
        commit'.data = ⟨c.changeset.inserted, []⟩ ∧ commit'.metaDeleted = [] ∧
        CacheCoherent cacheCapacity w' (m.apply commit') (records ++ [c.cacheRecord]) := by
  obtain ⟨cache, hq, hcache⟩ := h.queue
  by_cases hwarp : w.base = 0 ∧ w.isEmpty ∧ 0 < c.number
  · -- the target of a warp sync: the window starts at it
    obtain ⟨hbase, hempty, hpos⟩ := hwarp
    have hnil : records = [] := by
      have := h.windowSize
      simp only [RefWindow.isEmpty, decide_eq_true_eq] at hempty
      exact List.eq_nil_of_length_eq_zero (by omega)
    subst hnil
    obtain ⟨cache', hnote, hcache'⟩ := noteRecord_cache (w := { w with base := c.number }) hq hcache c.hash
      c.number (by simp) { c.commit with metaInserted := c.commit.metaInserted ++ [.lastPruned (c.number - 1)] }
    rw [RefWindow.noteCanonical, if_pos ⟨hbase, hempty, hpos⟩, hnote]
    refine Or.inr ⟨_, _, rfl, ?_, Or.inr rfl, rfl, rfl, ⟨⟨cache', ?_, hcache'⟩, ?_, ?_, ?_⟩⟩
    · simp
    · simp [MetaDb.apply, MetaDb.setMeta, Canonicalization.commit]
    · simp [MetaDb.apply, MetaDb.setMeta, Canonicalization.commit]
    · exact (h.journal.nil_rebase c.number).snoc (by simp [MetaDb.apply, MetaDb.setMeta, Canonicalization.commit,
        Canonicalization.cacheRecord])
    · simp [MetaDb.apply, MetaDb.setMeta, Canonicalization.commit]
      omega
  · by_cases hnum : w.base + w.windowSize = c.number
    · rw [h.windowSize] at hnum
      obtain ⟨cache', hnote, hcache'⟩ := noteRecord_cache hq hcache c.hash c.number hnum.symm c.commit
      rw [RefWindow.noteCanonical, if_neg hwarp, if_neg (not_not.mpr (by rw [h.windowSize]; exact hnum)), hnote]
      refine Or.inr ⟨_, _, rfl, hnum, Or.inl rfl, rfl, rfl, ⟨⟨cache', ?_, hcache'⟩, ?_, ?_, ?_⟩⟩
      · simp [MetaDb.apply, MetaDb.setMeta, Canonicalization.commit]
      · simp [MetaDb.apply, MetaDb.setMeta, Canonicalization.commit]
        omega
      · exact h.journal.snoc (by simp [MetaDb.apply, MetaDb.setMeta, Canonicalization.commit,
          Canonicalization.cacheRecord, hnum])
      · simpa [MetaDb.apply, MetaDb.setMeta, Canonicalization.commit] using h.lastPruned
    · left
      rw [RefWindow.noteCanonical, if_neg hwarp, if_pos hnum]

/-! ## The pruning loop -/

/-- The pruning loop on a coherent database-backed window, loading from `db` as before the commit: it prunes the `n`
oldest blocks, none pinned, and stops with at most `maxBlocks` blocks, a pinned block next, or a next block with no
journal record in `db`. -/
theorem pruneLoop_cache [DecidableEq H] {cacheCapacity : Nat} {m₀ : MetaDb H K} (db : Db H K) (maxBlocks : Nat)
    (pinned : List H) :
    ∀ (fuel : Nat) (w : RefWindow H K) (commit : CommitSet H K) (records : List (JournalRecord H K)),
      CacheCoherent cacheCapacity w (m₀.apply commit) records → MetaKey.lastPruned ∉ commit.metaDeleted →
      JournalAgrees db.stateMeta w.base records → records.length ≤ fuel →
      ∃ n w' commit', RefWindow.pruneLoop db maxBlocks pinned fuel w commit = (w', commit') ∧ n ≤ records.length ∧
        w'.base = w.base + n ∧ CacheCoherent cacheCapacity w' (m₀.apply commit') (records.drop n) ∧
        commit'.data = ⟨commit.data.inserted,
          commit.data.deleted ++ ((records.map JournalRecord.toDeathRow).take n).flatMap (·.deleted)⟩ ∧
        (∀ r ∈ records.take n, r.hash ∉ pinned) ∧
        (records.length - n ≤ maxBlocks ∨ (∃ r ∈ (records.drop n).head?, r.hash ∈ pinned) ∨
          db.stateMeta.journal.lookup w'.base = none) := by
  intro fuel w commit records h hlp hagree hlen
  have hloop := pruneLoop_of_turn db maxBlocks pinned
    (fun w commit records => CacheCoherent cacheCapacity w (m₀.apply commit) records ∧
      MetaKey.lastPruned ∉ commit.metaDeleted ∧ JournalAgrees db.stateMeta w.base records)
    (fun w => db.stateMeta.journal.lookup w.base = none) (List.map JournalRecord.toDeathRow) (fun _ _ => rfl)
    (fun _ _ _ h => h.1.windowSize) ?_ fuel w commit records ⟨h, hlp, hagree⟩ hlen
  · obtain ⟨n, w', commit', hloop, hn, hbase, ⟨h', -, -⟩, hdata, hpins, hstop⟩ := hloop
    exact ⟨n, w', commit', hloop, hn, hbase, h', hdata, hpins, hstop⟩
  · rintro fuel w commit record records ⟨h, hlp, hagree⟩ hsize
    have hbig : ¬w.windowSize ≤ maxBlocks := by
      rw [h.windowSize]
      simpa using hsize
    obtain ⟨cache, hnext, h₁, hblocked⟩ := h.nextHash hagree
    cases cache with
    | nil =>
      -- no record to load: `prune_one` finds no block either, and the loop stops
      refine Or.inl ⟨⟨.dbBacked [] cacheCapacity ((m₀.apply commit).lastCanonical.map (·.2)), w.base⟩, ?_, rfl,
        ⟨h₁, hlp, hagree⟩, Or.inr (hblocked rfl)⟩
      rw [RefWindow.pruneLoop, if_neg hbig, hnext]
      simp [RefWindow.pruneOne, DeathRowQueue.popFront, loadBatchFromDb, loadRows_of_lookup_none (hblocked rfl)]
    | cons row cache =>
      obtain ⟨cache₁, hq₁, hcache₁⟩ := h₁.queue
      obtain ⟨rfl, -, -⟩ := DeathRowQueue.dbBacked.inj hq₁
      obtain ⟨rfl, -⟩ := List.cons_prefix_cons.mp hcache₁.rows
      by_cases hpin : record.hash ∈ pinned
      · -- the oldest block is pinned: the loop stops before it
        refine Or.inl ⟨⟨.dbBacked (record.toDeathRow :: cache) cacheCapacity
          ((m₀.apply commit).lastCanonical.map (·.2)), w.base⟩, ?_, rfl, ⟨h₁, hlp, hagree⟩, Or.inl hpin⟩
        rw [RefWindow.pruneLoop, if_neg hbig, hnext]
        simp [hpin]
      · obtain ⟨w', commit', hprune, hdata', hins', hdel', hbase', h'⟩ := h₁.pruneOne rfl db commit
        rw [← MetaDb.apply_pruneOne m₀ hlp hins' hdel'] at h'
        refine Or.inr ⟨hpin, w', commit', ?_, hbase', ⟨h', by simp [hdel', hlp], hbase' ▸ hagree.tail⟩, ?_⟩
        · rw [RefWindow.pruneLoop, if_neg hbig, hnext]
          simp [hpin, hprune]
        · rw [hdata']
          simp

/-! ## One canonicalization -/

/-- A canonicalization on a coherent database-backed window fails for a block that is not the next; otherwise it notes
the block and prunes the `n` oldest blocks, none pinned, until the window is small enough, its next block is pinned, or
only the new block, not yet in the database, is left. The commit writes the block's inserts and deletes the keys of the
pruned rows. -/
theorem canonicalizeBlock_cache [DecidableEq H] {cacheCapacity : Nat} {w : RefWindow H K} {db : Db H K}
    {records : List (JournalRecord H K)} (h : CacheCoherent cacheCapacity w db.stateMeta records)
    (maxBlocks : Option Nat) (c : Canonicalization H K) :
    w.canonicalizeBlock db maxBlocks c.pinned c.hash c.number c.commit = some (.error .invalidBlockNumber) ∨
      ∃ n w' commit', w.canonicalizeBlock db maxBlocks c.pinned c.hash c.number c.commit = some (.ok (w', commit')) ∧
        n ≤ records.length + 1 ∧ w'.base + records.length = c.number + n ∧
        CacheCoherent cacheCapacity w' (db.stateMeta.apply commit') ((records ++ [c.cacheRecord]).drop n) ∧
        commit'.data = ⟨c.changeset.inserted,
          (((records ++ [c.cacheRecord]).map JournalRecord.toDeathRow).take n).flatMap (·.deleted)⟩ ∧
        (∀ r ∈ (records ++ [c.cacheRecord]).take n, r.hash ∉ c.pinned) ∧
        (records.length + 1 - n ≤ maxBlocks.getD 0 ∨
          (∃ r ∈ ((records ++ [c.cacheRecord]).drop n).head?, r.hash ∈ c.pinned) ∨ records.length ≤ n) := by
  rcases noteCanonical_cache h c with herr | ⟨w₁, commit₁, hnote, hbase₁, hstart, hdata₁, hdel₁, h₁⟩
  · left
    simp [RefWindow.canonicalizeBlock, herr, Except.map]
  · -- the loads read the database before the commit, which holds the records before the block
    have hagree : JournalAgrees db.stateMeta w₁.base (records ++ [c.cacheRecord]) := by
      rcases hstart with hb | rfl
      · rw [hb]
        exact h.journal.agrees.append _
      · exact h.journal.agrees_of_nil _ _
    obtain ⟨n, w', commit', hloop, hn, hbase', h', hdata, hpins, hstop⟩ :=
      pruneLoop_cache db (maxBlocks.getD 0) c.pinned w₁.windowSize w₁ commit₁ (records ++ [c.cacheRecord]) h₁
        (by simp [hdel₁]) hagree (by rw [h₁.windowSize])
    right
    refine ⟨n, w', commit', ?_, by simpa using hn, by omega, h', ?_, hpins, ?_⟩
    · simp [RefWindow.canonicalizeBlock, hnote, RefWindow.prune, Except.map, hloop]
    · rw [hdata, hdata₁]
      simp
    · rcases hstop with hsmall | hpin | hnone
      · exact Or.inl (by simpa using hsmall)
      · exact Or.inr (Or.inl hpin)
      · -- a block the database before the commit has no record of is past the records before the block
        refine Or.inr (Or.inr ?_)
        rcases hstart with hb | rfl
        · by_contra hlt
          rw [hbase', hb, h.journal, if_pos (by omega), show w.base + n - w.base = n by omega,
            List.getElem?_eq_getElem (by omega)] at hnone
          exact Option.some_ne_none _ hnone
        · exact Nat.zero_le _

/-! ## Runs -/

/-- A fresh database with the state column `state`, and the database-backed window `RefWindow::new` opens on it for
a window of `windowSize` blocks. -/
def cacheStart (state : K → Option (List UInt8)) (windowSize : Nat) : RefWindow H K × Db H K :=
  (⟨DeathRowQueue.newDbBacked ⟨state, ⟨none, none, ∅⟩⟩ 0 none windowSize, 0⟩, ⟨state, ⟨none, none, ∅⟩⟩)

theorem cacheStart_coherent (state : K → Option (List UInt8)) (windowSize : Nat) :
    CacheCoherent (max 1 (min windowSize defaultMaxBlockConstraint)) (cacheStart (H := H) state windowSize).1
      (cacheStart state windowSize).2.stateMeta [] := by
  refine ⟨⟨[], ?_, ⟨by simp, Nat.zero_le _, by omega⟩⟩, rfl, fun b => by simp [cacheStart], rfl⟩
  have hload : loadRows (⟨state, ⟨none, none, ∅⟩⟩ : Db H K) (max 1 (min windowSize defaultMaxBlockConstraint)) 0 =
      [] :=
    loadRows_of_lookup_none (AList.lookup_empty _) _
  simp only [cacheStart, DeathRowQueue.newDbBacked, loadBatchFromDb, List.nil_append, List.length_nil, Nat.add_zero]
  rw [hload]
  simp

/-- Every state reached from a fresh database by canonicalizations is coherent. -/
theorem cache_reach_coherent [DecidableEq H] {maxBlocks : Option Nat} {state₀ : K → Option (List UInt8)}
    {windowSize : Nat} {s : RefWindow H K × Db H K}
    (hs : Reach (cacheStart state₀ windowSize) (canonicalizeStep maxBlocks) (fun _ _ => True) s) :
    ∃ records, CacheCoherent (max 1 (min windowSize defaultMaxBlockConstraint)) s.1 s.2.stateMeta records := by
  refine Reach.invariant
    (P := fun s => ∃ records, CacheCoherent (max 1 (min windowSize defaultMaxBlockConstraint)) s.1 s.2.stateMeta records)
    ⟨[], cacheStart_coherent state₀ windowSize⟩ ?_ hs
  rintro ⟨w, db⟩ c ⟨records, h⟩ -
  rcases canonicalizeBlock_cache h maxBlocks c with herr | ⟨n, w', commit', hok, -, -, h', -⟩
  · exact ⟨records, by simpa [canonicalizeStep, herr] using h⟩
  · exact ⟨_, by simpa [canonicalizeStep, hok, Db.apply] using h'⟩

/-- Key `5` is set on an empty database, block `0` inserts key `7` and block `1` deletes key `5`, on a database-backed
window of one block. -/
def cacheInsertDeleteRun : RefWindow Nat Nat × Db Nat Nat :=
  canonicalizeStep (some 1) (canonicalizeStep (some 1) (cacheStart sampleState 1) sampleInsert) sampleDelete

theorem reach_cacheInsertDeleteRun :
    Reach (cacheStart sampleState 1) (canonicalizeStep (some 1)) (fun _ _ => True) cacheInsertDeleteRun :=
  Reach.step (Reach.step Reach.init trivial) trivial

/-- Block `0` is pruned, block `1` waits in the cache, and key `5` is still set. -/
example : cacheInsertDeleteRun.1.windowSize = 1 ∧ cacheInsertDeleteRun.1.base = 1 ∧
    cacheInsertDeleteRun.2.state 5 = some [0] := by
  decide

/-- `RefWindow::new` over the database of every state reached from a fresh database by canonicalizations opens the
node's window: same base, cache capacity, last block and size, with a cache of the journal's first death rows, of which
the node's cache is a prefix. -/
theorem cache_window_restored [DecidableEq H] {maxBlocks : Option Nat} {state₀ : K → Option (List UInt8)}
    {windowSize : Nat} {s : RefWindow H K × Db H K}
    (hs : Reach (cacheStart state₀ windowSize) (canonicalizeStep maxBlocks) (fun _ _ => True) s) :
    ∃ w, RefWindow.new s.2 windowSize false = some w ∧ w.base = s.1.base ∧ w.windowSize = s.1.windowSize ∧
      ∃ cache cache' : List (DeathRow H K),
        w.queue = .dbBacked cache' (max 1 (min windowSize defaultMaxBlockConstraint))
          (s.2.stateMeta.lastCanonical.map (·.2)) ∧
        s.1.queue = .dbBacked cache (max 1 (min windowSize defaultMaxBlockConstraint))
          (s.2.stateMeta.lastCanonical.map (·.2)) ∧
        cache <+: cache' := by
  obtain ⟨records, h⟩ := cache_reach_coherent hs
  obtain ⟨cache, hq, hcache⟩ := h.queue
  -- the restored cache is loaded from the journal, up to its capacity
  have hload : loadBatchFromDb s.2 [] s.1.base (max 1 (min windowSize defaultMaxBlockConstraint)) =
      (records.map JournalRecord.toDeathRow).take (max 1 (min windowSize defaultMaxBlockConstraint)) := by
    simpa [loadBatchFromDb] using loadRows_eq_take h.journal (max 1 (min windowSize defaultMaxBlockConstraint)) 0
  refine ⟨⟨.dbBacked ((records.map JournalRecord.toDeathRow).take (max 1 (min windowSize defaultMaxBlockConstraint)))
      (max 1 (min windowSize defaultMaxBlockConstraint)) (s.2.stateMeta.lastCanonical.map (·.2)), s.1.base⟩,
    ?_, rfl, ?_, cache, _, rfl, hq, List.prefix_take_iff.mpr ⟨hcache.rows, hcache.length_le⟩⟩
  · simp [RefWindow.new, h.lastPruned, DeathRowQueue.newDbBacked, hload]
  · rw [h.windowSize, RefWindow.windowSize, DeathRowQueue.len, h.last]

theorem cache_window_restored_insertDelete :
    ∃ w, RefWindow.new cacheInsertDeleteRun.2 1 false = some w ∧ w.base = cacheInsertDeleteRun.1.base ∧
      w.windowSize = cacheInsertDeleteRun.1.windowSize ∧
      ∃ cache cache' : List (DeathRow Nat Nat),
        w.queue = .dbBacked cache' (max 1 (min 1 defaultMaxBlockConstraint))
          (cacheInsertDeleteRun.2.stateMeta.lastCanonical.map (·.2)) ∧
        cacheInsertDeleteRun.1.queue = .dbBacked cache (max 1 (min 1 defaultMaxBlockConstraint))
          (cacheInsertDeleteRun.2.stateMeta.lastCanonical.map (·.2)) ∧
        cache <+: cache' :=
  cache_window_restored reach_cacheInsertDeleteRun

end CoreChain.StateDb.Pruning

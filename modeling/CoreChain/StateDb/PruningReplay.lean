import Mathlib
import CoreChain.Lib.Inverted
import CoreChain.StateDb.Pruning

/-!
# The death rows a journal describes

What the in-memory queue of the pruning window holds, in terms of the journal records of the blocks in it: the row
of a block is the set of keys it deleted, less those a later block inserted again (`rowsOf`), and the death index is
the exact inverse of the rows. A queue built by `import` from records none of which deletes a key that waits for
deletion, unless it inserts it again (`JournalOk`), is that queue:

- `import` of such a record keeps the queue the replay of the records (`import_isReplay`), and `pop_front` leaves
  the replay of the records after the first (`popFront_isReplay`);
- the loop of `new_mem` over a journal that holds the records from `base` on gives their replay
  (`newMem_isReplay`), and two replays of the same records agree (`IsReplay.agree`).
-/

namespace CoreChain.StateDb.Pruning

variable {H K : Type} [DecidableEq K]

/-! ## The rows of a journal -/

/-- A death row less the keys `ks`. -/
def DeathRow.without (ks : List K) (row : DeathRow H K) : DeathRow H K :=
  ⟨row.hash, row.deleted.filter (· ∉ ks)⟩

/-- A death row less one key. -/
def DeathRow.eraseKey (k : K) (row : DeathRow H K) : DeathRow H K :=
  { row with deleted := row.deleted.erase k }

/-- The keys the blocks of `records` insert. -/
def insertedKeys (records : List (JournalRecord H K)) : List K :=
  records.flatMap (·.inserted)

/-- The death rows of the blocks of `records`, oldest first: the keys each deleted, less those a later one inserted
again. -/
def rowsOf : List (JournalRecord H K) → List (DeathRow H K)
  | [] => []
  | record :: records => record.toDeathRow.without (insertedKeys records) :: rowsOf records

/-- The keys waiting for deletion in `rows`. -/
def pendingKeys (rows : List (DeathRow H K)) : List K :=
  (rows.map (·.deleted)).flatten

@[simp]
theorem DeathRow.without_nil (row : DeathRow H K) : row.without [] = row := by
  simp [DeathRow.without]

@[simp]
theorem DeathRow.map_without_nil (rows : List (DeathRow H K)) : rows.map (DeathRow.without []) = rows := by
  simp [List.map_congr_left fun row (_ : row ∈ rows) => DeathRow.without_nil row]

theorem DeathRow.without_append (row : DeathRow H K) (ks ks' : List K) :
    row.without (ks ++ ks') = (row.without ks).without ks' := by
  simp only [DeathRow.without, List.filter_filter, DeathRow.mk.injEq, true_and]
  congr 1
  funext k
  simp [Bool.and_comm]

/-- On a row without duplicates, erasing a key is leaving it out. -/
theorem DeathRow.without_eraseKey {row : DeathRow H K} (hrow : row.deleted.Nodup) (k : K) (ks : List K) :
    (row.eraseKey k).without ks = row.without (k :: ks) := by
  simp only [DeathRow.without, DeathRow.eraseKey, hrow.erase_eq_filter, List.filter_filter, DeathRow.mk.injEq,
    true_and]
  congr 1
  funext k'
  by_cases hk : k' = k <;> by_cases hks : k' ∈ ks <;> simp [hk, hks]

@[simp]
theorem rowsOf_length (records : List (JournalRecord H K)) : (rowsOf records).length = records.length := by
  induction records with
  | nil => rfl
  | cons _ _ ih => simp [rowsOf, ih]

/-- The rows after one more record: the earlier rows lose the keys it inserts, and its own row joins. -/
theorem rowsOf_append_singleton (records : List (JournalRecord H K)) (record : JournalRecord H K) :
    rowsOf (records ++ [record]) = (rowsOf records).map (DeathRow.without record.inserted) ++ [record.toDeathRow] := by
  induction records with
  | nil => simp [rowsOf, insertedKeys]
  | cons r records ih =>
    simp only [List.cons_append, rowsOf, ih, List.map_cons, insertedKeys, List.flatMap_append,
      List.flatMap_singleton, DeathRow.without_append]

omit [DecidableEq K] in
theorem pendingKeys_cons (row : DeathRow H K) (rows : List (DeathRow H K)) :
    pendingKeys (row :: rows) = row.deleted ++ pendingKeys rows := rfl

/-! ## Fresh records -/

/-- A record whose block deletes no key waiting for deletion in `rows`, unless it inserts it again. -/
def Fresh (rows : List (DeathRow H K)) (record : JournalRecord H K) : Prop :=
  ∀ k ∈ record.deleted, k ∈ pendingKeys rows → k ∈ record.inserted

/-- Records each of which is fresh for the rows of the records before it. -/
def JournalOk (records : List (JournalRecord H K)) : Prop :=
  ∀ (i : Nat) (hi : i < records.length), Fresh (rowsOf (records.take i)) records[i]

omit [DecidableEq K] in
/-- A record fresh for some rows is fresh for rows with fewer pending keys. -/
theorem Fresh.mono {rows rows' : List (DeathRow H K)} {record : JournalRecord H K} (h : Fresh rows record)
    (hsub : ∀ k ∈ pendingKeys rows', k ∈ pendingKeys rows) : Fresh rows' record :=
  fun k hk hpend => h k hk (hsub k hpend)

theorem journalOk_nil : JournalOk ([] : List (JournalRecord H K)) :=
  fun _ hi => absurd hi (Nat.not_lt_zero _)

theorem JournalOk.snoc {records : List (JournalRecord H K)} {record : JournalRecord H K} (h : JournalOk records)
    (hfresh : Fresh (rowsOf records) record) : JournalOk (records ++ [record]) := by
  intro i hi
  rw [List.length_append, List.length_singleton] at hi
  rcases Nat.lt_or_eq_of_le (Nat.le_of_lt_succ hi) with hlt | rfl
  · rw [List.take_append_of_le_length hlt.le, List.getElem_append_left hlt]
    exact h i hlt
  · simpa using hfresh

theorem JournalOk.take {records : List (JournalRecord H K)} (h : JournalOk records) (n : Nat) :
    JournalOk (records.take n) := by
  intro i hi
  have hin : i < n := by simp at hi; omega
  have hfresh := h i (by simp at hi; omega)
  simpa [List.take_take, Nat.min_eq_left hin.le] using hfresh

/-- The records after the first stay fresh: the first row only adds pending keys. -/
theorem JournalOk.tail {record : JournalRecord H K} {records : List (JournalRecord H K)}
    (h : JournalOk (record :: records)) : JournalOk records := by
  intro i hi
  have hfresh := h (i + 1) (by simpa using hi)
  simp only [List.take_succ_cons, rowsOf, List.getElem_cons_succ] at hfresh
  exact hfresh.mono fun k hk => by
    rw [pendingKeys_cons]
    exact List.mem_append_right _ hk

/-! ## Replays -/

/-- The in-memory queue that replays `records` from block `base`: their rows, with an exact index. -/
def IsReplay (base : Nat) (records : List (JournalRecord H K)) (q : DeathRowQueue H K) : Prop :=
  JournalOk records ∧ ∃ index : AList (fun _ : K => Nat),
    q = .mem (rowsOf records) index ∧ Exact base ((rowsOf records).map (·.deleted)) index.lookup

theorem isReplay_nil (base : Nat) : IsReplay base ([] : List (JournalRecord H K)) (.mem [] ∅) :=
  ⟨journalOk_nil, ∅, rfl, (exact_nil base).congr fun k => AList.lookup_empty k⟩

/-- Two replays of the same records hold the same rows, with indices that agree. -/
theorem IsReplay.agree {base : Nat} {records : List (JournalRecord H K)} {q q' : DeathRowQueue H K}
    (h : IsReplay base records q) (h' : IsReplay base records q') :
    ∃ (rows : List (DeathRow H K)) (index index' : AList (fun _ : K => Nat)),
      q = .mem rows index ∧ q' = .mem rows index' ∧ ∀ k, index.lookup k = index'.lookup k := by
  obtain ⟨-, index, rfl, hexact⟩ := h
  obtain ⟨-, index', rfl, hexact'⟩ := h'
  exact ⟨_, index, index', rfl, rfl, hexact.index_unique hexact'⟩

section Import

variable {base : Nat}

/-- One re-inserted key leaves its row, and the index. -/
theorem removeReinserted_spec {rows : List (DeathRow H K)} {index : AList (fun _ : K => Nat)}
    (h : Exact base (rows.map (·.deleted)) index.lookup) (k : K) :
    ∃ index', DeathRowQueue.removeReinserted base (rows, index) k = some (rows.map (DeathRow.eraseKey k), index') ∧
      Exact base ((rows.map (DeathRow.eraseKey k)).map (·.deleted)) index'.lookup := by
  have hg : ∀ row : DeathRow H K, k ∉ row.deleted → row.eraseKey k = row := fun row hk => by
    simp [DeathRow.eraseKey, List.erase_of_not_mem hk]
  have hexact : Exact base ((rows.map (DeathRow.eraseKey k)).map (·.deleted))
      fun k' => if k' = k then none else index.lookup k' := by
    simpa [List.map_map, Function.comp_def, DeathRow.eraseKey] using h.erase k
  cases hk : index.lookup k with
  | none =>
    refine ⟨index, ?_, hexact.congr fun k' => ?_⟩
    · simp only [DeathRowQueue.removeReinserted, hk, h.map_eq_self hg hk]
    · by_cases e : k' = k
      · subst e
        simp [hk]
      · simp [e]
  | some block =>
    obtain ⟨hle, hlt, hset⟩ := h.set_eq_map hg hk
    refine ⟨index.erase k, ?_, hexact.congr fun k' => ?_⟩
    · simp only [DeathRowQueue.removeReinserted, hk, if_neg (Nat.not_lt.mpr hle), List.getElem?_eq_getElem hlt,
        Option.map_some, ← hset]
      rfl
    · by_cases e : k' = k
      · subst e
        simp [AList.lookup_erase]
      · simp [e, AList.lookup_erase_ne e]

/-- The loop of `import` over the inserted keys takes each of them out of every row, and out of the index. -/
theorem foldlM_removeReinserted (ks : List K) :
    ∀ {rows : List (DeathRow H K)} {index : AList (fun _ : K => Nat)},
      Exact base (rows.map (·.deleted)) index.lookup →
      ∃ index', ks.foldlM (DeathRowQueue.removeReinserted base) (rows, index) =
          some (rows.map (DeathRow.without ks), index') ∧
        Exact base ((rows.map (DeathRow.without ks)).map (·.deleted)) index'.lookup := by
  induction ks with
  | nil =>
    intro rows index h
    exact ⟨index, by simp, by simpa using h⟩
  | cons k ks ih =>
    intro rows index h
    obtain ⟨index₁, hstep, hexact₁⟩ := removeReinserted_spec h k
    obtain ⟨index₂, hfold, hexact₂⟩ := ih hexact₁
    have hrows : (rows.map (DeathRow.eraseKey k)).map (DeathRow.without ks) = rows.map (DeathRow.without (k :: ks)) := by
      rw [List.map_map]
      exact List.map_congr_left fun row hrow =>
        DeathRow.without_eraseKey (h.row_nodup (List.mem_map_of_mem hrow)) k ks
    refine ⟨index₂, ?_, hrows ▸ hexact₂⟩
    simp only [List.foldlM_cons, hstep, Option.bind_eq_bind, Option.bind_some, hfold, hrows]

/-- `import` of a fresh record replays one more record. -/
theorem import_isReplay {records : List (JournalRecord H K)} {q : DeathRowQueue H K} {record : JournalRecord H K}
    (h : IsReplay base records q) (hfresh : Fresh (rowsOf records) record) (num : Nat) :
    ∃ q', q.import base num record = some q' ∧ IsReplay base (records ++ [record]) q' := by
  obtain ⟨hok, index, rfl, hexact⟩ := h
  obtain ⟨index', hfold, hexact'⟩ := foldlM_removeReinserted record.inserted hexact
  -- a key the record deletes is left in no earlier row: it waited nowhere, or the record inserted it again
  have hnew : ∀ k ∈ record.toDeathRow.deleted,
      k ∉ (((rowsOf records).map (DeathRow.without record.inserted)).map (·.deleted)).flatten := by
    intro k hk hpend
    obtain ⟨l, hl, hkl⟩ := List.mem_flatten.mp hpend
    rw [List.map_map, List.mem_map] at hl
    obtain ⟨row, hrow, rfl⟩ := hl
    simp only [Function.comp_apply, DeathRow.without, List.mem_filter, decide_eq_true_eq] at hkl
    exact hkl.2 (hfresh k (List.mem_dedup.mp hk) (List.mem_flatten.mpr ⟨row.deleted, List.mem_map_of_mem hrow, hkl.1⟩))
  have hpush := hexact'.push (List.nodup_dedup _) hnew
  let index'' := record.deleted.foldl (fun index k => index.insert k (base + records.length)) index'
  refine ⟨.mem (rowsOf (records ++ [record])) index'', ?_, hok.snoc hfresh, index'', rfl, ?_⟩
  · simp only [DeathRowQueue.import, hfold, Option.bind_eq_bind, Option.bind_some, List.length_map,
      rowsOf_length, rowsOf_append_singleton]
    rfl
  · rw [rowsOf_append_singleton, List.map_append, List.map_singleton]
    refine hpush.congr fun k => ?_
    rw [AList.lookup_foldl_insert]
    simp [List.mem_dedup]

/-- `pop_front` of a replay gives the row of the first record and leaves the replay of the others. -/
theorem popFront_isReplay {record : JournalRecord H K} {records : List (JournalRecord H K)} {q : DeathRowQueue H K}
    (h : IsReplay base (record :: records) q) (db : Db H K) :
    (q.popFront db base).2 = some (record.toDeathRow.without (insertedKeys records)) ∧
      IsReplay (base + 1) records (q.popFront db base).1 := by
  obtain ⟨hok, index, rfl, hexact⟩ := h
  refine ⟨rfl, hok.tail, _, rfl, ?_⟩
  simp only [rowsOf, List.map_cons] at hexact
  refine hexact.pop.congr fun k => ?_
  rw [AList.lookup_foldl_erase]

end Import

/-! ## The journal read back -/

/-- The journal holds `records` from block `base` on, and nothing else. -/
def JournalAt (m : MetaDb H K) (base : Nat) (records : List (JournalRecord H K)) : Prop :=
  ∀ b, m.journal.lookup b = if base ≤ b then records[b - base]? else none

omit [DecidableEq K] in
theorem JournalAt.length_le {m : MetaDb H K} {base : Nat} {records : List (JournalRecord H K)}
    (h : JournalAt m base records) : records.length ≤ m.journal.entries.length := by
  have hsub : List.range' base records.length ⊆ m.journal.keys := by
    intro b hb
    obtain ⟨h₁, h₂⟩ := List.mem_range'_1.mp hb
    have hi : b - base < records.length := by omega
    rw [← AList.mem_keys, ← AList.lookup_isSome, h]
    simp [h₁, hi]
  have hle := ((List.nodup_range').subperm hsub).length_le
  simpa [AList.keys, List.keys] using hle

/-- The loop of `new_mem`, from the `done`-th record on, replays the records. -/
theorem newMemLoop_isReplay {db : Db H K} {base : Nat} {records : List (JournalRecord H K)}
    (hj : JournalAt db.stateMeta base records) (hok : JournalOk records) :
    ∀ (fuel done : Nat) (q : DeathRowQueue H K), done ≤ records.length → records.length - done < fuel →
      IsReplay base (records.take done) q →
      ∃ q', DeathRowQueue.newMemLoop db base fuel (base + done) q = some q' ∧ IsReplay base records q'
  | 0, _, _, _, hfuel, _ => absurd hfuel (Nat.not_lt_zero _)
  | fuel + 1, done, q, hdone, hfuel, hq => by
    rcases Nat.lt_or_eq_of_le hdone with hlt | rfl
    · have hlook : db.stateMeta.journal.lookup (base + done) = some records[done] := by
        rw [hj]
        simp [hlt]
      obtain ⟨q₁, himport, hq₁⟩ := import_isReplay hq (hok done hlt) (base + done)
      have htake : records.take (done + 1) = records.take done ++ [records[done]] := by
        rw [List.take_add_one, List.getElem?_eq_getElem hlt]
        rfl
      rw [← htake] at hq₁
      obtain ⟨q', hloop, hq'⟩ := newMemLoop_isReplay hj hok fuel (done + 1) q₁ hlt (by omega) hq₁
      refine ⟨q', ?_, hq'⟩
      rw [DeathRowQueue.newMemLoop, hlook]
      simp only [himport, Option.bind_some]
      rwa [Nat.add_assoc]
    · have hlook : db.stateMeta.journal.lookup (base + records.length) = none := by
        rw [hj]
        simp
      refine ⟨q, ?_, by rwa [List.take_length] at hq⟩
      rw [DeathRowQueue.newMemLoop, hlook]

/-- `new_mem` replays the journal. -/
theorem newMem_isReplay {db : Db H K} {base : Nat} {records : List (JournalRecord H K)}
    (hj : JournalAt db.stateMeta base records) (hok : JournalOk records) :
    ∃ q, DeathRowQueue.newMem db base = some q ∧ IsReplay base records q := by
  have hq := newMemLoop_isReplay hj hok (db.stateMeta.journal.entries.length + 1) 0 (.mem [] ∅) (Nat.zero_le _)
    (by have := hj.length_le; omega) (by simpa using isReplay_nil base)
  simpa [DeathRowQueue.newMem] using hq

end CoreChain.StateDb.Pruning

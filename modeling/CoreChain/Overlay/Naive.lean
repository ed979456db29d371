import CoreChain.Overlay.Map

/-!
# One map per transaction

What the overlay is for: a full map for every open transaction and one for the committed state. Starting a
transaction copies the innermost map, committing puts it in place of the map below it, rolling back drops it.
A map gives `some v` for a key written with `v`, `none` for a key nobody wrote.

`Levels` says how the versions and the dirty flags of one key lay out its value in every map, innermost first:
a transaction that wrote the key holds its next version, one that did not sees the map below. `Refines` is
`Levels` for every key; writes, `start_transaction` and `close_transaction_offchain` keep it with the matching
operations on the maps (`Refines.setOffchain`, `Refines.startTransaction`, `Refines.closeTransactionOffchain`).
-/

namespace CoreChain.Overlay

/-- The maps: `top` is the innermost open transaction's, or the committed one when none is open; `below` are the
enclosing transactions' maps, innermost first, ending with the committed one. -/
structure NaiveOverlay (K V : Type _) where
  top : K → Option V
  below : List (K → Option V)

variable {K V : Type _}

/-- A commit as seen by one key: the innermost value replaces the one below. -/
def commitLevels : List (Option V) → List (Option V)
  | l :: _ :: rest => l :: rest
  | ls => ls

namespace NaiveOverlay

/-- Nothing written, no transaction open. -/
def empty : NaiveOverlay K V :=
  ⟨fun _ => none, []⟩

/-- A write to the innermost map. -/
def write [DecidableEq K] (n : NaiveOverlay K V) (key : K) (value : V) : NaiveOverlay K V :=
  { n with top := Function.update n.top key (some value) }

/-- Start a transaction: its map is a copy of the innermost one. -/
def start (n : NaiveOverlay K V) : NaiveOverlay K V :=
  ⟨n.top, n.top :: n.below⟩

/-- Commit: the innermost map replaces the one below it; nothing happens when no transaction is open. -/
def commit (n : NaiveOverlay K V) : NaiveOverlay K V :=
  match n.below with
  | [] => n
  | _ :: rest => ⟨n.top, rest⟩

/-- Roll back: the innermost map is dropped; nothing happens when no transaction is open. -/
def rollback (n : NaiveOverlay K V) : NaiveOverlay K V :=
  match n.below with
  | [] => n
  | parent :: rest => ⟨parent, rest⟩

/-- Every key of the innermost map that `predicate` matches is set to `cleared`. -/
def clear (n : NaiveOverlay K V) (predicate : K → Bool) (cleared : V) : NaiveOverlay K V :=
  { n with top := fun k => if (n.top k).isSome && predicate k then some cleared else n.top k }

/-- The key in every map, innermost first. -/
def levels (n : NaiveOverlay K V) (key : K) : List (Option V) :=
  (n.top :: n.below).map (· key)

/-- The committed map. -/
def committed (n : NaiveOverlay K V) : K → Option V :=
  (n.top :: n.below).getLast (List.cons_ne_nil _ _)

theorem committed_of_below_nil {n : NaiveOverlay K V} (hb : n.below = []) : n.committed = n.top := by
  simp [committed, hb]

theorem levels_commit {n : NaiveOverlay K V} {p : K → Option V} {below : List (K → Option V)}
    (hb : n.below = p :: below) (key : K) : n.commit.levels key = commitLevels (n.levels key) := by
  simp [commit, levels, hb, commitLevels]

theorem levels_rollback {n : NaiveOverlay K V} {p : K → Option V} {below : List (K → Option V)}
    (hb : n.below = p :: below) (key : K) : n.rollback.levels key = (n.levels key).tail := by
  simp [rollback, levels, hb]

@[simp] theorem levels_start (n : NaiveOverlay K V) (key : K) : n.start.levels key = n.top key :: n.levels key := by
  simp [start, levels]

theorem levels_write [DecidableEq K] (n : NaiveOverlay K V) (key : K) (value : V) (k : K) :
    (n.write key value).levels k = if k = key then some value :: (n.levels k).tail else n.levels k := by
  by_cases hk : k = key
  · subst hk
    simp [write, levels]
  · simp [write, levels, hk]

/-- Clearing key by key, in any order and with repetitions, clears every key listed. -/
theorem foldl_clear [DecidableEq K] (predicate : K → Bool) (cleared : V) :
    ∀ (keys : List K) (n : NaiveOverlay K V),
      keys.foldl (fun n key => if (n.top key).isSome && predicate key then n.write key cleared else n) n =
        { n with top := fun k => if k ∈ keys ∧ (n.top k).isSome && predicate k then some cleared else n.top k }
  | [], n => by simp
  | key :: keys, n => by
    rw [List.foldl_cons, foldl_clear predicate cleared keys]
    by_cases hk : (n.top key).isSome && predicate key
    · rw [if_pos hk]
      congr 1
      funext k
      by_cases hkk : k = key
      · subst hkk
        simp [write, hk]
      · simp [write, hkk]
    · rw [if_neg hk]
      congr 1
      funext k
      by_cases hkk : k = key
      · subst hkk
        simp only [Bool.not_eq_true] at hk
        simp [hk]
      · simp [hkk]

end NaiveOverlay

/-! ## One key -/

/-- How the versions of a key, newest first, and its flags in the open transactions, innermost first, give its
value in every map. -/
inductive Levels : List Bool → List V → List (Option V) → Prop
  | untouched : Levels [] [] [none]
  | committed (v : V) : Levels [] [v] [some v]
  | written {flags vs ls} (v : V) : Levels flags vs ls → Levels (true :: flags) (v :: vs) (some v :: ls)
  | inherited {flags vs l ls} : Levels flags vs (l :: ls) → Levels (false :: flags) vs (l :: l :: ls)

namespace Levels

variable {flags : List Bool} {vs : List V} {ls : List (Option V)}

/-- The innermost map sees the newest version. -/
theorem head (h : Levels flags vs ls) : ls.head? = some vs.head? := by
  induction h with
  | untouched => rfl
  | committed v => rfl
  | written v _ _ => rfl
  | inherited _ ih =>
    simp only [List.head?_cons, Option.some.injEq] at ih ⊢
    exact ih

theorem length (h : Levels flags vs ls) : ls.length = flags.length + 1 := by
  induction h with
  | untouched => rfl
  | committed v => rfl
  | written v _ ih => simp [ih]
  | inherited _ ih => simp only [List.length_cons] at ih ⊢; omega

theorem write (h : Levels flags vs ls) (w : V) :
    Levels (markFirst flags).1 (setOffchainEntry w (markFirst flags).2 vs) (some w :: ls.tail) := by
  cases h with
  | untouched => exact .committed w
  | committed v => exact .committed w
  | written v h' => exact .written w h'
  | inherited h' => exact .written w h'

theorem start (h : Levels flags vs ls) : ∃ l ls', ls = l :: ls' ∧ Levels (false :: flags) vs (l :: ls) := by
  cases h with
  | untouched => exact ⟨_, _, rfl, .inherited .untouched⟩
  | committed v => exact ⟨_, _, rfl, .inherited (.committed v)⟩
  | written v h' => exact ⟨_, _, rfl, .inherited (.written v h')⟩
  | inherited h' => exact ⟨_, _, rfl, .inherited (.inherited h')⟩

/-- A transaction that did not write the key leaves it as the map below sees it. -/
theorem close_unwritten (h : Levels (false :: flags) vs ls) : Levels flags vs ls.tail ∧ commitLevels ls = ls.tail := by
  cases h with
  | inherited h' => exact ⟨h', rfl⟩

/-- Rolling back a transaction that wrote the key drops its version. -/
theorem rollback_written (h : Levels (true :: flags) vs ls) :
    ∃ e, closeLocal popTransaction mergeOffchain true (some vs, flags) = some e ∧
      Levels e.2 (e.1.getD []) ls.tail ∧ ∀ ws, e.1 = some ws → ws ≠ [] := by
  cases h with
  | @written _ vs' _ v h' =>
    refine ⟨(if vs'.isEmpty then none else some vs', flags), rfl, ?_, ?_⟩
    · by_cases he : vs'.isEmpty
      · simpa [he, List.isEmpty_iff.mp he] using h'
      · simpa [he] using h'
    · intro ws hws
      by_cases he : vs'.isEmpty
      · simp [he] at hws
      · simp only [he, Bool.false_eq_true, if_false, Option.some.injEq] at hws
        subst hws
        simpa using he

/-- Committing a transaction that wrote the key merges its version into the enclosing transaction, or keeps it
there when that one did not write the key. -/
theorem commit_written (h : Levels (true :: flags) vs ls) :
    ∃ e, closeLocal popTransaction mergeOffchain false (some vs, flags) = some e ∧
      Levels e.2 (e.1.getD []) (commitLevels ls) ∧ ∀ ws, e.1 = some ws → ws ≠ [] := by
  cases h with
  | written v h' =>
    cases h' with
    | untouched => exact ⟨(some [v], []), rfl, .committed v, by simp⟩
    | committed u => exact ⟨(some [v], []), rfl, .committed v, by simp⟩
    | written u h'' => exact ⟨(some (v :: _), true :: _), rfl, .written v h'', by simp⟩
    | inherited h'' => exact ⟨(some (v :: _), true :: _), rfl, .written v h'', by simp⟩

/-- Every transaction that wrote the key holds a version of it. -/
theorem count_le (h : Levels flags vs ls) : flags.count true ≤ vs.length := by
  induction h with
  | untouched => simp
  | committed v => simp
  | written v _ ih =>
    simp only [List.count_cons_self, List.length_cons]
    omega
  | inherited _ ih => simpa using ih

theorem replicate_untouched : ∀ d : Nat, Levels (List.replicate d false) ([] : List V) (List.replicate (d + 1) none)
  | 0 => .untouched
  | d + 1 => by
    rw [List.replicate_succ, List.replicate_succ]
    exact .inherited (replicate_untouched d)

end Levels

/-! ## The overlay refines the maps -/

section Refines

variable [DecidableEq K]

/-- The overlay `m` holds the maps `n`: for every key, its versions and flags lay out its values in the maps.
Dirty sets have no duplicates, as `insert_dirty` keeps them. -/
structure Refines (m : OverlayedMap K V) (n : NaiveOverlay K V) : Prop where
  levels : ∀ k, Levels (m.view k).2 ((m.changes.lookup k).getD []) (n.levels k)
  nonempty : ∀ k vs, m.changes.lookup k = some vs → vs ≠ []
  nodup : ∀ dk ∈ m.dirtyKeys, dk.Nodup
  depth : n.below.length = m.transactionDepth

theorem refines_empty : Refines (OverlayedMap.empty : OverlayedMap K V) NaiveOverlay.empty where
  levels k := by simpa [OverlayedMap.empty, OverlayedMap.view, NaiveOverlay.empty, NaiveOverlay.levels] using
    Levels.untouched
  nonempty k vs h := by simp [OverlayedMap.empty] at h
  nodup dk h := by simp [OverlayedMap.empty] at h
  depth := rfl

variable {m : OverlayedMap K V} {n : NaiveOverlay K V}

/-- `Refines` reads the changes and the dirty sets only, not the mode. -/
theorem Refines.of_eq (h : Refines m n) {m' : OverlayedMap K V} (hc : m'.changes = m.changes)
    (hd : m'.dirtyKeys = m.dirtyKeys) : Refines m' n where
  levels k := by simpa [OverlayedMap.view, hc, hd] using h.levels k
  nonempty k vs hk := h.nonempty k vs (hc ▸ hk)
  nodup dk hdk := h.nodup dk (hd ▸ hdk)
  depth := by rw [h.depth, OverlayedMap.transactionDepth, OverlayedMap.transactionDepth, hd]

/-- A child changeset holds no key in any map, one map for every open transaction. -/
theorem refines_spawnChild (m : OverlayedMap K V) :
    Refines m.spawnChild ⟨fun _ => none, List.replicate m.transactionDepth fun _ => none⟩ where
  levels k := by
    have hl := Levels.replicate_untouched (V := V) m.transactionDepth
    simpa [OverlayedMap.spawnChild, OverlayedMap.view, NaiveOverlay.levels, List.replicate_succ] using hl
  nonempty k vs hk := by simp [OverlayedMap.spawnChild] at hk
  nodup dk hdk := by
    simp only [OverlayedMap.spawnChild, List.mem_replicate] at hdk
    rw [hdk.2]
    exact List.nodup_nil
  depth := by simp [OverlayedMap.spawnChild, OverlayedMap.transactionDepth]

theorem Refines.count_dirty_le (h : Refines m n) (k : K) :
    m.dirtyKeys.countP (fun dk => decide (k ∈ dk)) ≤ ((m.changes.lookup k).getD []).length := by
  have hc := (h.levels k).count_le
  simpa [OverlayedMap.view, List.count_eq_countP, List.countP_map, Function.comp_def] using hc

/-- The newest version of a key is what the innermost map holds. -/
theorem Refines.lookup_head (h : Refines m n) (k : K) : n.top k = ((m.changes.lookup k).getD []).head? := by
  have hh := (h.levels k).head
  simpa [NaiveOverlay.levels] using hh

theorem Refines.setOffchain (h : Refines m n) (key : K) (value : V) :
    ∃ m', m.setOffchain key value = some m' ∧ Refines m' (n.write key value) := by
  let vs := setOffchainEntry value (markFirst (m.view key).2).2 ((m.changes.lookup key).getD [])
  obtain ⟨m', hm', hview, hother⟩ := OverlayedMap.writeWith_actsLocally
    (fun first vs => some (setOffchainEntry value first vs)) m key (some vs, (markFirst (m.view key).2).1) rfl
  have hlookup : m'.changes.lookup key = some vs := congrArg Prod.fst hview
  have hflags : (m'.view key).2 = (markFirst (m.view key).2).1 := congrArg Prod.snd hview
  have hdirty : m'.dirtyKeys = (insertDirty m.dirtyKeys key).1 := by
    simp only [OverlayedMap.writeWith, Option.map_some] at hm'
    cases hm'
    rfl
  refine ⟨m', hm', ⟨fun k => ?_, fun k ws hk => ?_, ?_, ?_⟩⟩
  · rw [NaiveOverlay.levels_write]
    by_cases hk : k = key
    · subst hk
      rw [if_pos rfl, hlookup, Option.getD_some, hflags]
      exact (h.levels k).write value
    · rw [if_neg hk, show m'.changes.lookup k = (m'.view k).1 from rfl, hother k hk]
      exact h.levels k
  · by_cases hk' : k = key
    · subst hk'
      rw [hlookup, Option.some.injEq] at hk
      subst hk
      unfold vs setOffchainEntry
      split <;> simp
    · rw [show m'.changes.lookup k = (m'.view k).1 from rfl, hother k hk'] at hk
      exact h.nonempty k ws hk
  · rw [hdirty]
    exact insertDirty_nodup m.dirtyKeys key h.nodup
  · rw [OverlayedMap.transactionDepth_writeWith hm']
    exact h.depth

theorem Refines.startTransaction (h : Refines m n) : Refines m.startTransaction n.start where
  levels k := by
    obtain ⟨l, ls', hls, hl⟩ := (h.levels k).start
    have hl' : n.top k = l := by simpa [NaiveOverlay.levels] using congrArg List.head? hls
    have hv : (m.startTransaction.view k).2 = false :: (m.view k).2 := by simp
    rw [hv, NaiveOverlay.levels_start, hl']
    exact hl
  nonempty := h.nonempty
  nodup dk hdk := by
    rcases List.mem_cons.mp hdk with rfl | hdk
    · exact List.nodup_nil
    · exact h.nodup dk hdk
  depth := by simp [NaiveOverlay.start, OverlayedMap.startTransaction, OverlayedMap.transactionDepth, h.depth]

/-- With no transaction open, there is nothing to close. -/
theorem Refines.closeTransactionOffchain_none_open (h : Refines m n) (hd : m.dirtyKeys = []) (rollback : Bool) :
    m.closeTransactionOffchain rollback = some (.error ⟨⟩) ∧ n.commit = n ∧ n.rollback = n := by
  have hb : n.below = [] := by
    have := h.depth
    rw [OverlayedMap.transactionDepth, hd] at this
    exact List.eq_nil_of_length_eq_zero this
  refine ⟨?_, by simp [NaiveOverlay.commit, hb], by simp [NaiveOverlay.rollback, hb]⟩
  simp [OverlayedMap.closeTransactionOffchain, OverlayedMap.closeTransactionWith, hd]

/-- `commit_transaction_offchain` and `rollback_transaction_offchain`, when the runtime may close the transaction,
commit or roll back the maps; the mode and the client's transactions stay. -/
theorem Refines.closeTransactionOffchain (h : Refines m n) {dk : List K} {rest : List (List K)}
    (hd : m.dirtyKeys = dk :: rest) (hguard : ¬(m.executionMode = .runtime ∧ m.hasOpenRuntimeTransactions = false))
    (rollback : Bool) :
    ∃ m', m.closeTransactionOffchain rollback = some (.ok m') ∧
      Refines m' (if rollback then n.rollback else n.commit) ∧ m'.transactionDepth = rest.length ∧
      m'.numClientTransactions = m.numClientTransactions ∧ m'.executionMode = m.executionMode := by
  obtain ⟨p, below, hb⟩ : ∃ p below, n.below = p :: below := by
    have := h.depth
    rw [OverlayedMap.transactionDepth, hd] at this
    cases hbl : n.below with
    | nil => simp [hbl] at this
    | cons p below => exact ⟨p, below, rfl⟩
  have hlevels : ∀ k, (if rollback then n.rollback else n.commit).levels k =
      if rollback then (n.levels k).tail else commitLevels (n.levels k) := by
    intro k
    cases rollback
    · exact NaiveOverlay.levels_commit hb k
    · exact NaiveOverlay.levels_rollback hb k
  have hflag : ∀ k, (m.view k).2 = decide (k ∈ dk) :: (m.view k).2.tail := by
    intro k
    simp [OverlayedMap.view, hd]
  -- a key of the transaction has versions, and closing it moves `Levels` along
  have hkey : ∀ k ∈ dk, ∃ e, closeLocal popTransaction mergeOffchain rollback ((m.view k).1, (m.view k).2.tail) =
      some e ∧ Levels e.2 (e.1.getD []) (if rollback then (n.levels k).tail else commitLevels (n.levels k)) ∧
      ∀ ws, e.1 = some ws → ws ≠ [] := by
    intro k hk
    have hl := h.levels k
    rw [hflag k, decide_eq_true hk] at hl
    have hsome : (m.view k).1 = some ((m.changes.lookup k).getD []) := by
      cases hlk : m.changes.lookup k with
      | none =>
        rw [hlk, Option.getD_none] at hl
        cases hl
      | some vs => simp [hlk]
    rw [hsome]
    cases rollback
    · exact hl.commit_written
    · exact hl.rollback_written
  obtain ⟨m', hm', hnum, hmode, hdepth, hnd, hview⟩ := OverlayedMap.view_closeTransactionWith hd hguard
    (h.nodup dk (by simp [hd])) (fun x hx => (hkey x hx).imp fun e he => he.1)
  refine ⟨m', hm', ⟨fun k => ?_, fun k ws hk => ?_, hnd (fun d hdm => h.nodup d (by simp [hd, hdm])), ?_⟩,
    hdepth, hnum, hmode⟩
  · rw [hlevels k]
    by_cases hk : k ∈ dk
    · obtain ⟨e, he, hl, -⟩ := hkey k hk
      rw [(hview k).1 hk, Option.some.injEq] at he
      subst he
      exact hl
    · have hl := h.levels k
      rw [hflag k, decide_eq_false hk] at hl
      obtain ⟨hl', hc⟩ := hl.close_unwritten
      rw [show m'.changes.lookup k = (m'.view k).1 from rfl, (hview k).2 hk]
      cases rollback
      · rw [hc]
        exact hl'
      · exact hl'
  · by_cases hk' : k ∈ dk
    · obtain ⟨e, he, -, hne⟩ := hkey k hk'
      rw [(hview k).1 hk', Option.some.injEq] at he
      subst he
      exact hne ws hk
    · rw [show m'.changes.lookup k = (m'.view k).1 from rfl, (hview k).2 hk'] at hk
      exact h.nonempty k ws hk
  · have hlen := h.depth
    rw [hb, OverlayedMap.transactionDepth, hd] at hlen
    cases rollback <;> simpa [NaiveOverlay.commit, NaiveOverlay.rollback, hb, hdepth] using hlen

/-- `enter_runtime` changes the mode only. -/
theorem Refines.enterRuntime (h : Refines m n) {m' : OverlayedMap K V} (hm : m.enterRuntime = .ok m') :
    Refines m' n := by
  unfold OverlayedMap.enterRuntime at hm
  split at hm
  · cases hm
  · cases hm
    exact h.of_eq rfl rfl

/-- The loop of `exit_runtime_offchain`, in client mode with enough rounds, rolls back the maps once for every
transaction the runtime has open, until the client's transactions are the open ones. -/
theorem Refines.rollbackRuntimeWith : ∀ (fuel : Nat) (m : OverlayedMap K V) (n : NaiveOverlay K V), Refines m n →
    m.executionMode = .client → m.transactionDepth - m.numClientTransactions ≤ fuel →
    ∃ m', m.rollbackRuntimeWith popTransaction mergeOffchain fuel = some m' ∧
      Refines m' (NaiveOverlay.rollback^[m.transactionDepth - m.numClientTransactions] n) ∧
      m'.transactionDepth = min m.transactionDepth m.numClientTransactions ∧
      m'.numClientTransactions = m.numClientTransactions ∧ m'.executionMode = .client := by
  intro fuel
  induction fuel with
  | zero =>
    intro m n h hcl hf
    rw [show m.transactionDepth - m.numClientTransactions = 0 by omega]
    exact ⟨m, rfl, h, by omega, rfl, hcl⟩
  | succ fuel ih =>
    intro m n h hcl hf
    rw [OverlayedMap.rollbackRuntimeWith]
    by_cases ho : m.hasOpenRuntimeTransactions = true
    · rw [if_pos ho]
      have hlt : m.numClientTransactions < m.transactionDepth := by
        simpa [OverlayedMap.hasOpenRuntimeTransactions] using ho
      obtain ⟨dk, rest, hd⟩ : ∃ dk rest, m.dirtyKeys = dk :: rest := by
        cases hd : m.dirtyKeys with
        | nil => simp [OverlayedMap.transactionDepth, hd] at hlt
        | cons dk rest => exact ⟨dk, rest, rfl⟩
      have hlen : m.transactionDepth = rest.length + 1 := by simp [OverlayedMap.transactionDepth, hd]
      have hguard : ¬(m.executionMode = .runtime ∧ m.hasOpenRuntimeTransactions = false) := by
        rw [hcl]
        rintro ⟨hmode, -⟩
        cases hmode
      obtain ⟨m₁, hm₁, h₁, hdepth₁, hnum₁, hmode₁⟩ := h.closeTransactionOffchain hd hguard true
      rw [show m.closeTransactionWith popTransaction mergeOffchain true = some (.ok m₁) from hm₁]
      obtain ⟨m', hm', h', hdepth', hnum', hmode'⟩ := ih m₁ _ h₁ (hmode₁.trans hcl) (by omega)
      -- one round rolls back one map, and leaves one round fewer to go
      have hrounds : m.transactionDepth - m.numClientTransactions =
          m₁.transactionDepth - m₁.numClientTransactions + 1 := by
        omega
      refine ⟨m', hm', ?_, ?_, hnum'.trans hnum₁, hmode'⟩
      · rw [hrounds, Function.iterate_succ_apply]
        exact h'
      · omega
    · rw [if_neg ho]
      have hle : m.transactionDepth ≤ m.numClientTransactions := by
        simpa [OverlayedMap.hasOpenRuntimeTransactions] using ho
      rw [show m.transactionDepth - m.numClientTransactions = 0 by omega]
      exact ⟨m, rfl, h, by omega, rfl, hcl⟩

/-- `exit_runtime_offchain` rolls back the transactions the runtime left open. -/
theorem Refines.exitRuntimeOffchain (h : Refines m n) (hrt : m.executionMode = .runtime) :
    ∃ m', m.exitRuntimeOffchain = some (.ok m') ∧
      Refines m' (NaiveOverlay.rollback^[m.transactionDepth - m.numClientTransactions] n) ∧
      m'.transactionDepth = min m.transactionDepth m.numClientTransactions ∧
      m'.numClientTransactions = m.numClientTransactions ∧ m'.executionMode = .client := by
  obtain ⟨m', hm', h', hdepth, hnum, hmode⟩ := Refines.rollbackRuntimeWith m.transactionDepth
    { m with executionMode := .client } n (h.of_eq rfl rfl) rfl (Nat.sub_le _ _)
  refine ⟨m', ?_, h', hdepth, hnum, hmode⟩
  simp [OverlayedMap.exitRuntimeOffchain, OverlayedMap.exitRuntimeWith, hrt, hm']

namespace OverlayedMap

/-- Setting to `cleared` every key of `keys` that has an entry and that `predicate` matches, one by one. -/
def clearWith (m : OverlayedMap K V) (keys : List K) (predicate : K → Bool) (cleared : V) :
    Option (OverlayedMap K V) :=
  keys.foldlM (fun m key => if (m.changes.lookup key).isSome && predicate key then m.setOffchain key cleared
    else some m) m

/-- Clearing writes only: the mode and the client's transactions stay. -/
theorem clearWith_executionMode {m m' : OverlayedMap K V} {keys : List K} {predicate : K → Bool} {cleared : V}
    (h : m.clearWith keys predicate cleared = some m') :
    m'.executionMode = m.executionMode ∧ m'.numClientTransactions = m.numClientTransactions := by
  refine foldlM_invariant (P := fun m₁ => m₁.executionMode = m.executionMode ∧
    m₁.numClientTransactions = m.numClientTransactions) (fun m₁ key m₂ hm₂ hm₁ => ?_) keys m m' h ⟨rfl, rfl⟩
  split at hm₂
  · obtain ⟨hnum, hmode⟩ := writeWith_numClientTransactions hm₂
    exact ⟨hmode.trans hm₁.1, hnum.trans hm₁.2⟩
  · cases hm₂
    exact hm₁

end OverlayedMap

/-- A key has an entry in the overlay exactly when the innermost map has it. -/
theorem Refines.isSome_top (h : Refines m n) (k : K) : (n.top k).isSome = (m.changes.lookup k).isSome := by
  rw [h.lookup_head k]
  cases hk : m.changes.lookup k with
  | none => rfl
  | some vs =>
    obtain ⟨v, vs', rfl⟩ := List.exists_cons_of_ne_nil (h.nonempty k vs hk)
    rfl

theorem Refines.foldlM_clear (predicate : K → Bool) (cleared : V) :
    ∀ (keys : List K) (m : OverlayedMap K V) (n : NaiveOverlay K V), Refines m n →
      ∃ m', keys.foldlM (fun m key => if (m.changes.lookup key).isSome && predicate key then
          m.setOffchain key cleared else some m) m = some m' ∧
        Refines m' (keys.foldl (fun n key => if (n.top key).isSome && predicate key then n.write key cleared
          else n) n)
  | [], m, n, h => ⟨m, rfl, h⟩
  | key :: keys, m, n, h => by
    simp only [List.foldlM_cons, List.foldl_cons, h.isSome_top key]
    by_cases hk : (m.changes.lookup key).isSome && predicate key
    · obtain ⟨m₁, hm₁, h₁⟩ := h.setOffchain key cleared
      obtain ⟨m', hm', h'⟩ := Refines.foldlM_clear predicate cleared keys m₁ _ h₁
      refine ⟨m', ?_, ?_⟩
      · rw [if_pos hk, hm₁]
        exact hm'
      · rw [if_pos hk]
        exact h'
    · obtain ⟨m', hm', h'⟩ := Refines.foldlM_clear predicate cleared keys m n h
      refine ⟨m', ?_, ?_⟩
      · rw [if_neg hk]
        exact hm'
      · rw [if_neg hk]
        exact h'

/-- `clear_where` on the values clears the innermost map, when every key with an entry is listed. -/
theorem Refines.clearWith (h : Refines m n) (keys : List K) (hkeys : ∀ k, (m.changes.lookup k).isSome → k ∈ keys)
    (predicate : K → Bool) (cleared : V) :
    ∃ m', m.clearWith keys predicate cleared = some m' ∧ Refines m' (n.clear predicate cleared) := by
  obtain ⟨m', hm', h'⟩ := Refines.foldlM_clear predicate cleared keys m n h
  refine ⟨m', hm', ?_⟩
  have hn : n.clear predicate cleared =
      { n with top := fun k => if k ∈ keys ∧ (n.top k).isSome && predicate k then some cleared else n.top k } := by
    simp only [NaiveOverlay.clear, NaiveOverlay.mk.injEq, and_true]
    funext k
    by_cases hk : (n.top k).isSome && predicate k
    · have hmem : k ∈ keys := hkeys k (by simpa [h.isSome_top k] using (Bool.and_eq_true _ _).mp hk |>.1)
      simp [hk, hmem]
    · simp [hk]
  rw [hn, ← NaiveOverlay.foldl_clear]
  exact h'

end Refines

end CoreChain.Overlay

import CoreChain.Approval.Checking

/-!
# Approval safety

For an approval entry that `import_assignment` built (`ApprovalEntry.Built`), the tranche iterator yields every
tranche from `0` on, with its assignments (`filledTrancheIterator_eq`), up to the last `u32`. The count of
`tranches_to_approve` keeps `State.Covers`: past depth 0, each no-show covered was covered by an assignment beyond
the needed ones. So an `Exact` output at tranche `needed` has at least `needed_approvals + tolerated_missing`
distinct validators assigned up to `needed`, and `check_approval` approves only if at least `needed_approvals` of
them approved (`tranchesToApprove_safe`).

The scan stops at the first tranche past the drifted tranche now, which is at most `tranche_now`; for
`tranche_now < u32::MAX` it ends within `tranche_now + 2` tranches. At `tranche_now = u32::MAX`, on an entry where the
needed approvals are never reached, every tranche passes the test, the `u32` range of the iterator wraps, and the scan
never ends (`tranchesToApprove_never_ends`).
-/

namespace CoreChain.Approval

/-- The assignments of a tranche: those of its entry, if it has one. -/
def trancheAssignments (tranches : List TrancheEntry) (k : Nat) : List (Nat × Nat) :=
  ((tranches.find? fun t => decide (t.tranche = k)).map (·.assignments)).getD []

/-- One past the last entry's tranche, or `d` without entries. -/
def trancheEnd (tranches : List TrancheEntry) (d : Nat) : Nat :=
  (tranches.getLast?.map (·.tranche + 1)).getD d

/-! ## The tranches, gaps filled -/

section Iterator

variable {t : TrancheEntry} {rest : List TrancheEntry}

theorem trancheAssignments_cons_self (t : TrancheEntry) (rest : List TrancheEntry) :
    trancheAssignments (t :: rest) t.tranche = t.assignments := by
  simp [trancheAssignments]

theorem trancheAssignments_cons_of_ne {k : Nat} (hk : t.tranche ≠ k) :
    trancheAssignments (t :: rest) k = trancheAssignments rest k := by
  simp [trancheAssignments, List.find?_cons_of_neg, hk]

/-- A tranche that no entry has has no assignments. -/
theorem trancheAssignments_of_forall_ne {l : List TrancheEntry} {k : Nat} (h : ∀ t ∈ l, t.tranche ≠ k) :
    trancheAssignments l k = [] := by
  have hnone : l.find? (fun t => decide (t.tranche = k)) = none := List.find?_eq_none.mpr fun t ht => by simpa using h t ht
  simp [trancheAssignments, hnone]

theorem trancheEnd_cons (t : TrancheEntry) (rest : List TrancheEntry) (d : Nat) :
    trancheEnd (t :: rest) d = trancheEnd rest (t.tranche + 1) := by
  cases rest with
  | nil => rfl
  | cons u rest => simp [trancheEnd, List.getLast?_cons]

theorem lt_trancheEnd : ∀ {l : List TrancheEntry} (d : Nat), l.Pairwise (fun a b => a.tranche < b.tranche) →
    ∀ u ∈ l, u.tranche < trancheEnd l d
  | [], _, _, _, hu => by cases hu
  | t :: rest, _, hs, u, hu => by
    rw [trancheEnd_cons]
    obtain ⟨hlt, hrest⟩ := List.pairwise_cons.mp hs
    rcases List.mem_cons.mp hu with rfl | hu
    · cases rest with
      | nil => simp [trancheEnd]
      | cons w rest' =>
        exact Nat.lt_trans (hlt w List.mem_cons_self) (lt_trancheEnd _ hrest w List.mem_cons_self)
    · exact lt_trancheEnd _ hrest u hu

/-- The tranches from `a` up to an end past an entry's: the empty ones before it, the entry, then those after it. -/
theorem map_range'_split (hs : ∀ u ∈ rest, t.tranche < u.tranche) {a E : Nat} (ha : a ≤ t.tranche)
    (hE : t.tranche < E) :
    (List.range' a (E - a)).map (fun i => (i, trancheAssignments (t :: rest) i)) =
      (List.range' a (t.tranche - a)).map (fun i => (i, ([] : List (Nat × Nat)))) ++
        (t.tranche, t.assignments) ::
          (List.range' (t.tranche + 1) (E - (t.tranche + 1))).map fun i => (i, trancheAssignments rest i) := by
  have hsplit : List.range' a (E - a) =
      List.range' a (t.tranche - a) ++ t.tranche :: List.range' (t.tranche + 1) (E - (t.tranche + 1)) := by
    have hlen : E - a = (t.tranche - a) + (E - (t.tranche + 1) + 1) := by omega
    have hstart : a + (t.tranche - a) = t.tranche := by omega
    rw [hlen, ← List.range'_append_1, List.range'_succ, hstart]
  rw [hsplit, List.map_append, List.map_cons, trancheAssignments_cons_self]
  congr 1
  · -- before the entry no tranche has assignments
    refine List.map_congr_left fun i hi => ?_
    have hi' := List.mem_range'_1.mp hi
    rw [trancheAssignments_of_forall_ne]
    intro u hu
    rcases List.mem_cons.mp hu with rfl | hu
    · omega
    · have := hs u hu
      omega
  · congr 1
    refine List.map_congr_left fun i hi => ?_
    have hi' := List.mem_range'_1.mp hi
    rw [trancheAssignments_cons_of_ne (by omega)]

theorem tranche_lt_trancheEnd_rest (hsorted : (t :: rest).Pairwise fun a b => a.tranche < b.tranche) :
    t.tranche < trancheEnd rest (t.tranche + 1) := by
  rw [← trancheEnd_cons t rest 0]
  exact lt_trancheEnd 0 hsorted t List.mem_cons_self

/-- After an entry, the gaps filled are the tranches up to the end, each with its assignments. -/
theorem fillGaps_some : ∀ {l : List TrancheEntry} {g : Nat}, l.Pairwise (fun a b => a.tranche < b.tranche) →
    (∀ u ∈ l, g < u.tranche ∧ u.tranche < 2 ^ 32) →
    fillGaps (some g) l =
      (List.range' (g + 1) (trancheEnd l (g + 1) - (g + 1))).map fun i => (i, trancheAssignments l i)
  | [], g, _, _ => by simp [fillGaps, trancheEnd]
  | t :: rest, g, hs, hb => by
    obtain ⟨hgt, hlt⟩ := hb t List.mem_cons_self
    have hrest := (List.pairwise_cons.mp hs).1
    have hstart : (g + 1) % 2 ^ 32 = g + 1 := Nat.mod_eq_of_lt (by omega)
    have ih := fillGaps_some (g := t.tranche) (List.pairwise_cons.mp hs).2
      (fun u hu => ⟨hrest u hu, (hb u (List.mem_cons_of_mem _ hu)).2⟩)
    rw [trancheEnd_cons, map_range'_split hrest (by omega) (tranche_lt_trancheEnd_rest hs)]
    simp only [fillGaps, Option.map_some, Option.getD_some, hstart, ih]

/-- The finite part of the iterator: every tranche up to the end, with its assignments. -/
theorem filledPrefix_eq {l : List TrancheEntry} (hs : l.Pairwise fun a b => a.tranche < b.tranche)
    (hb : ∀ u ∈ l, u.tranche < 2 ^ 32) :
    filledPrefix l = (List.range (trancheEnd l 0)).map fun i => (i, trancheAssignments l i) := by
  cases l with
  | nil => simp [filledPrefix, fillGaps, trancheEnd]
  | cons t rest =>
    have hrest := (List.pairwise_cons.mp hs).1
    have ih := fillGaps_some (g := t.tranche) (List.pairwise_cons.mp hs).2
      (fun u hu => ⟨hrest u hu, hb u (List.mem_cons_of_mem _ hu)⟩)
    rw [List.range_eq_range', trancheEnd_cons, ← Nat.sub_zero (trancheEnd rest _),
      map_range'_split hrest (Nat.zero_le _) (tranche_lt_trancheEnd_rest hs)]
    simp [filledPrefix, fillGaps, ih, List.range_eq_range']

/-- For the tranches of a well formed entry, the iterator yields each `u32` tranche with its assignments. -/
theorem filledTrancheIterator_eq {l : List TrancheEntry} (hs : l.Pairwise fun a b => a.tranche < b.tranche)
    (hb : ∀ u ∈ l, u.tranche < 2 ^ 32) {k : Nat} (hk : k < 2 ^ 32) :
    filledTrancheIterator l k = (k, trancheAssignments l k) := by
  have hpost : postStart l = trancheEnd l 0 % 2 ^ 32 := by
    unfold postStart trancheEnd
    cases l.getLast? <;> simp
  have hend : trancheEnd l 0 ≤ 2 ^ 32 := by
    unfold trancheEnd
    cases hlast : l.getLast? with
    | none => simp
    | some u =>
      have := hb u (List.mem_of_getLast? hlast)
      simp only [Option.map_some, Option.getD_some]
      omega
  simp only [filledTrancheIterator, filledPrefix_eq hs hb, List.length_map, List.length_range]
  split
  · simp
  · -- past the last entry: empty tranches, counting on from the end
    rename_i hge
    rw [hpost, Nat.mod_eq_of_lt (show trancheEnd l 0 < 2 ^ 32 by omega),
      show trancheEnd l 0 + (k - trancheEnd l 0) = k by omega,
      Nat.mod_eq_of_lt hk, trancheAssignments_of_forall_ne]
    intro u hu
    have := lt_trancheEnd 0 hs u hu
    omega

end Iterator

/-! ## The assignments seen -/

/-- The assignments of the tranches before `k`. -/
def assignmentsBefore (tranches : List TrancheEntry) (k : Nat) : List (Nat × Nat) :=
  (tranches.takeWhile fun t => decide (t.tranche < k)).flatMap (·.assignments)

/-- On increasing tranches, the tranches before `k + 1` are those before `k` and then tranche `k`. -/
theorem assignmentsBefore_succ : ∀ {l : List TrancheEntry}, l.Pairwise (fun a b => a.tranche < b.tranche) →
    ∀ k, assignmentsBefore l (k + 1) = assignmentsBefore l k ++ trancheAssignments l k
  | [], _, k => by simp [assignmentsBefore, trancheAssignments]
  | t :: rest, hs, k => by
    obtain ⟨hlt, hrest⟩ := List.pairwise_cons.mp hs
    rcases Nat.lt_trichotomy t.tranche k with h | h | h
    · -- `t` is before `k`: it is seen either way
      have ih := assignmentsBefore_succ hrest k
      unfold assignmentsBefore at ih ⊢
      rw [List.takeWhile_cons_of_pos (by simpa using Nat.lt_succ_of_lt h),
        List.takeWhile_cons_of_pos (by simpa using h), trancheAssignments_cons_of_ne (Nat.ne_of_lt h),
        List.flatMap_cons, List.flatMap_cons, ih, List.append_assoc]
    · -- `t` is tranche `k`, and every later tranche is after it
      subst h
      have hnone : rest.takeWhile (fun u => decide (u.tranche < t.tranche + 1)) = [] := by
        cases rest with
        | nil => rfl
        | cons u rest' =>
          have := hlt u List.mem_cons_self
          exact List.takeWhile_cons_of_neg (by simpa using Nat.succ_le_of_lt this)
      unfold assignmentsBefore
      rw [List.takeWhile_cons_of_pos (by simp), hnone, List.takeWhile_cons_of_neg (by simp),
        trancheAssignments_cons_self]
      simp
    · -- `t` and every later tranche are after `k`
      unfold assignmentsBefore
      rw [List.takeWhile_cons_of_neg (by simpa using Nat.succ_le_of_lt h), List.takeWhile_cons_of_neg (by simpa using Nat.le_of_lt h),
        trancheAssignments_of_forall_ne]
      · rfl
      · intro u hu
        rcases List.mem_cons.mp hu with rfl | hu
        · exact Nat.ne_of_gt h
        · exact Nat.ne_of_gt (Nat.lt_trans h (hlt u hu))

theorem validatorsUpTo_eq (e : ApprovalEntry) (k : Nat) :
    e.validatorsUpTo k = (assignmentsBefore e.tranches (k + 1)).map (·.1) := by
  unfold ApprovalEntry.validatorsUpTo assignmentsBefore
  congr 3
  funext t
  simp

/-! ## The count keeps its bound -/

namespace State

variable {s : State} {neededApprovals : Nat}

/-- What the tranche count keeps: at depth 0 it still has to cover the needed approvals less the assignments so far,
and past depth 0 every no-show covered was covered by an assignment beyond the needed ones. -/
def Covers (neededApprovals : Nat) (s : State) : Prop :=
  (s.depth = 0 ∧ s.covered = 0 ∧ s.covering = neededApprovals - s.assignments) ∨
    (0 < s.depth ∧ neededApprovals + s.covered ≤ s.assignments)

@[simp] theorem advance_assignments (s : State) (n ns : Nat) (nns lat : Option Nat) (nsv : List Nat) :
    (s.advance n ns nns lat nsv).assignments = s.assignments + n := rfl

theorem Covers.advance (h : s.Covers neededApprovals) (n ns : Nat) (nns lat : Option Nat) (nsv : List Nat) :
    (s.advance n ns nns lat nsv).Covers neededApprovals := by
  unfold State.advance Covers at *
  dsimp only
  split_ifs <;> omega

/-- An `Exact` output names the tranche output at and tolerates the no-shows covered, with enough assignments. -/
theorem output_exact {tranche nValidators noShowDuration needed tol : Nat} {nns lat : Option Nat}
    (h : (s.output tranche neededApprovals nValidators noShowDuration).requiredTranches = .exact needed tol nns lat) :
    needed = tranche ∧ tol = s.covered ∧ neededApprovals ≤ s.assignments := by
  unfold output at h
  dsimp only at h
  -- `Exact` comes only from the second test, at depth 0 or past it
  split_ifs at h <;> cases h
  all_goals exact ⟨rfl, rfl, by omega⟩

/-- With enough assignments, those beyond the needed ones cover every no-show tolerated. -/
theorem Covers.tolerated (h : s.Covers neededApprovals) (hn : neededApprovals ≤ s.assignments) :
    neededApprovals + s.covered ≤ s.assignments := by
  rcases h with ⟨-, hc, -⟩ | ⟨-, hle⟩
  · omega
  · exact hle

end State

theorem covers_initialState (neededApprovals : Nat) : (initialState neededApprovals).Covers neededApprovals :=
  .inl ⟨rfl, rfl, by simp [initialState]⟩

/-! ## `check_approval` -/

section Check

variable {e : ApprovalEntry} {candidate : CandidateEntry}

/-- `ApprovedOneThird` comes only with more than a third of the approvals bitfield set. -/
theorem checkApproval_approvedOneThird {required : RequiredTranches}
    (h : checkApproval candidate e required = .approvedOneThird) :
    candidate.approvals.length < 3 * countOnes candidate.approvals := by
  unfold checkApproval at h
  dsimp only at h
  split_ifs at h with hthird
  · exact hthird
  · -- no requirement gives `ApprovedOneThird` past the first test
    split at h
    · cases h
    · cases h
    · split_ifs at h

/-- `check_approval` approves an `Exact` requirement only when the assigned validators that approved, with the
tolerated no-shows, are as many as those assigned up to the tranche needed. -/
theorem ApprovalEntry.Wf.checkApproval_approved (hwf : e.Wf) {needed tol noShows : Nat} {nns lat tick : Option Nat}
    (h : checkApproval candidate e (.exact needed tol nns lat) = .approved noShows tick) :
    ∃ vs : List Nat, vs.Nodup ∧ (e.validatorsUpTo needed).length ≤ vs.length + tol ∧
      ∀ v ∈ vs, v ∈ e.validatorsUpTo needed ∧ bit candidate.approvals v = true := by
  have hnd : (e.validatorsUpTo needed).Nodup := (e.validatorsUpTo_sublist needed).nodup hwf.nodup
  -- the ones of the anded mask are the assigned validators that approved
  have happroved : countOnes (andAssign (e.assignmentsUpTo needed) candidate.approvals) =
      ((e.validatorsUpTo needed).filter (bit candidate.approvals)).length := by
    refine countOnes_eq_length_of_bit_iff (hnd.filter _) fun v => ?_
    have hlt : v ∈ e.validatorsUpTo needed → v < e.nValidators :=
      fun hv => hwf.validator_lt v ((e.validatorsUpTo_sublist needed).subset hv)
    rw [bit_andAssign, ApprovalEntry.bit_assignmentsUpTo, List.mem_filter]
    by_cases hv : v ∈ e.validatorsUpTo needed <;> simp [hv, hlt]
  unfold checkApproval at h
  dsimp only at h
  -- only the count test approves
  split_ifs at h with hthird hcount
  refine ⟨_, hnd.filter _, ?_, fun v hv => List.mem_filter.mp hv⟩
  rw [← happroved, ← hwf.countOnes_assignmentsUpTo needed]
  exact hcount

end Check

/-! ## The scan -/

section Scan

variable {items : Nat → Nat × List (Nat × Nat)}
  {step : State → Nat → List (Nat × Nat) → Option (TranchesToApproveResult × Option State)}

theorem scanLoop_add {fuel k : Nat} {s : State} {last : Option TranchesToApproveResult}
    {r : Option TranchesToApproveResult} (h : scanLoop items step fuel k s last = some r) (d : Nat) :
    scanLoop items step (fuel + d) k s last = some r := by
  induction fuel generalizing k s last with
  | zero => simp [scanLoop] at h
  | succ fuel ih =>
    rw [Nat.add_right_comm]
    -- the step at `k` is the same; only a scan that goes on uses the fuel
    rcases hs : step s (items k).1 (items k).2 with _ | ⟨o, _ | s'⟩
    all_goals simp only [scanLoop, hs] at h ⊢
    · exact h
    · exact h
    · exact ih h

/-- A scan that the step stops at position `m + 1`, and not at `0`, ends with an output within `m + 2` steps. -/
theorem scanLoop_ends {m : Nat} (hitems : ∀ k ≤ m + 1, (items k).1 = k) (hstop : ∀ s a, step s (m + 1) a = none)
    (hstart : ∀ s a, step s 0 a ≠ none) {fuel k : Nat} {s : State} {last : Option TranchesToApproveResult}
    (hk : k ≤ m + 1) (hfuel : m + 2 ≤ k + fuel) (hlast : k = 0 ∨ last.isSome) :
    ∃ r, scanLoop items step fuel k s last = some (some r) := by
  induction fuel generalizing k s last with
  | zero => omega
  | succ fuel ih =>
    unfold scanLoop
    rw [hitems k hk]
    rcases hs : step s k (items k).2 with _ | ⟨o, _ | s'⟩
    · -- stopped: past position `0`, there is a last output
      rcases hlast with rfl | hlast
      · exact absurd hs (hstart s _)
      · obtain ⟨r, rfl⟩ := Option.isSome_iff_exists.mp hlast
        exact ⟨r, rfl⟩
    · exact ⟨o, rfl⟩
    · -- went on: so `k` is not `m + 1`, where the step stops
      have hne : k ≠ m + 1 := by
        rintro rfl
        rw [hstop] at hs
        cases hs
      exact ih (by omega) (by omega) (.inr rfl)

/-- What a scan ends with: an invariant `I` of the position and state, kept by every step that goes on, and a
property `P` of every output. -/
theorem scanLoop_invariant (I : Nat → State → Prop) (P : TranchesToApproveResult → Prop)
    (hstep : ∀ k s o next, I k s → step s (items k).1 (items k).2 = some (o, next) →
      P o ∧ ∀ s', next = some s' → I (k + 1) s')
    {fuel k : Nat} {s : State} {last : Option TranchesToApproveResult} {r : TranchesToApproveResult}
    (hI : I k s) (hlast : ∀ x ∈ last, P x) (h : scanLoop items step fuel k s last = some (some r)) : P r := by
  induction fuel generalizing k s last with
  | zero => simp [scanLoop] at h
  | succ fuel ih =>
    rcases hs : step s (items k).1 (items k).2 with _ | ⟨o, next⟩
    · simp only [scanLoop, hs, Option.some.injEq] at h
      exact hlast r h
    · obtain ⟨hP, hI'⟩ := hstep k s o next hI hs
      cases next with
      | none =>
        simp only [scanLoop, hs, Option.some.injEq] at h
        exact h ▸ hP
      | some s' =>
        simp only [scanLoop, hs] at h
        exact ih (hI' s' rfl) (fun x hx => Option.mem_some_iff.mp hx ▸ hP) h

end Scan

/-! ## A step of `tranches_to_approve` -/

section Step

variable {approvals : List Bool} {tickNow blockTick noShowDuration neededApprovals nValidators : Nat} {s : State}
  {tranche : Nat} {a : List (Nat × Nat)}

theorem driftedTrancheNow_le (trancheNow blockTick clockDrift : Nat) :
    (((trancheNow + blockTick) % 2 ^ 64 - clockDrift) - blockTick) % 2 ^ 32 ≤ trancheNow := by
  have h₁ := Nat.mod_le (trancheNow + blockTick) (2 ^ 64)
  have h₂ := Nat.mod_le (((trancheNow + blockTick) % 2 ^ 64 - clockDrift) - blockTick) (2 ^ 32)
  omega

theorem scanTranche_eq_none :
    scanTranche approvals tickNow blockTick noShowDuration neededApprovals nValidators s tranche a = none ↔
      ((tickNow - s.clockDrift noShowDuration) - blockTick) % 2 ^ 32 < tranche := by
  unfold scanTranche
  dsimp only
  split_ifs with h
  · exact iff_of_true rfl h
  · exact iff_of_false not_false h

/-- A step of the scan advances the count by at most the tranche's assignments and outputs the count at the tranche;
it goes on with that count only. -/
theorem scanTranche_eq_some {o : TranchesToApproveResult} {next : Option State}
    (h : scanTranche approvals tickNow blockTick noShowDuration neededApprovals nValidators s tranche a = some (o, next)) :
    tranche ≤ ((tickNow - s.clockDrift noShowDuration) - blockTick) % 2 ^ 32 ∧
      ∃ n ns nns lat nsv, n ≤ a.length ∧
        o = (s.advance n ns nns lat nsv).output tranche neededApprovals nValidators noShowDuration ∧
        ∀ s', next = some s' → s' = s.advance n ns nns lat nsv := by
  unfold scanTranche at h
  dsimp only at h
  split_ifs at h with hlt
  obtain ⟨rfl, rfl⟩ := Prod.mk.inj (Option.some.inj h)
  refine ⟨Nat.le_of_not_lt hlt, _, _, _, _, _, List.length_filter_le _ _, rfl, fun s' hs' => ?_⟩
  split at hs' <;> cases hs'
  rfl

end Step

/-! ## Safety and termination -/

/-- What the scan keeps on an entry: the position is a `u32` tranche, the count saw at most the assignments of the
tranches before it, and it keeps its bound. -/
def ScanInv (e : ApprovalEntry) (neededApprovals k : Nat) (s : State) : Prop :=
  k < 2 ^ 32 ∧ s.assignments ≤ (assignmentsBefore e.tranches k).length ∧ s.Covers neededApprovals

/-- An `Exact` output at tranche `needed` tolerates no more no-shows than there are validators assigned up to it
beyond the needed approvals. -/
def ExactBound (e : ApprovalEntry) (neededApprovals : Nat) (r : TranchesToApproveResult) : Prop :=
  ∀ needed tol nns lat, r.requiredTranches = .exact needed tol nns lat →
    neededApprovals + tol ≤ (e.validatorsUpTo needed).length

section Safety

variable {e : ApprovalEntry} {approvals : List Bool} {trancheNow blockTick noShowDuration neededApprovals : Nat}

theorem scanInv_initialState (e : ApprovalEntry) (neededApprovals : Nat) :
    ScanInv e neededApprovals 0 (initialState neededApprovals) :=
  ⟨Nat.two_pow_pos 32, Nat.zero_le _, covers_initialState neededApprovals⟩

/-- A step of the scan below `u32::MAX` keeps `ScanInv`, and its output keeps `ExactBound`. -/
theorem scanInv_step (hwf : e.Wf) (htn : trancheNow < 2 ^ 32 - 1) {k : Nat} {s : State}
    {o : TranchesToApproveResult} {next : Option State} (hI : ScanInv e neededApprovals k s)
    (hs : scanTranche approvals ((trancheNow + blockTick) % 2 ^ 64) blockTick noShowDuration neededApprovals
      e.nValidators s (filledTrancheIterator e.tranches k).1 (filledTrancheIterator e.tranches k).2 = some (o, next)) :
    ExactBound e neededApprovals o ∧ ∀ s', next = some s' → ScanInv e neededApprovals (k + 1) s' := by
  obtain ⟨hk, hle, hcov⟩ := hI
  rw [filledTrancheIterator_eq hwf.sorted hwf.tranche_lt hk] at hs
  dsimp only at hs
  obtain ⟨hkle, n, ns, nns, lat, nsv, hn, rfl, hnext⟩ := scanTranche_eq_some hs
  -- the count after tranche `k` saw at most the assignments up to it
  have hle' : (s.advance n ns nns lat nsv).assignments ≤ (assignmentsBefore e.tranches (k + 1)).length := by
    rw [State.advance_assignments, assignmentsBefore_succ hwf.sorted, List.length_append]
    omega
  have hcov' := hcov.advance n ns nns lat nsv
  refine ⟨fun needed tol nns' lat' hex => ?_, fun s' hs' => ?_⟩
  · obtain ⟨rfl, rfl, hneed⟩ := State.output_exact hex
    rw [validatorsUpTo_eq, List.length_map]
    exact Nat.le_trans (hcov'.tolerated hneed) hle'
  · -- the scan went on at `k`, so `k` is at most the tranche now, below `u32::MAX`
    have hdrift := driftedTrancheNow_le trancheNow blockTick (s.clockDrift noShowDuration)
    rw [hnext s' hs']
    exact ⟨by omega, hle', hcov'⟩

/-- `tranches_to_approve` on an entry that `import_assignment` built, with `tranche_now < u32::MAX`: it ends within
`tranche_now + 2` tranches, and more fuel does not change its result; an `Exact` result at `needed` has at least
`needed_approvals + tolerated_missing` distinct validators assigned up to `needed`; `check_approval` approves it only if
`needed_approvals` of them approved, and gives `ApprovedOneThird` only if over a third of the bitfield approved. -/
theorem tranchesToApprove_safe {n : Nat} (he : ApprovalEntry.Built n e) (htn : trancheNow < 2 ^ 32 - 1) :
    ∃ r, (∀ fuel, trancheNow + 2 ≤ fuel →
        tranchesToApprove e approvals trancheNow blockTick noShowDuration neededApprovals fuel = some (some r)) ∧
      (∀ needed tol nns lat, r.requiredTranches = .exact needed tol nns lat →
        (e.validatorsUpTo needed).Nodup ∧ neededApprovals + tol ≤ (e.validatorsUpTo needed).length ∧
        ∀ (candidate : CandidateEntry) noShows tick,
          checkApproval candidate e r.requiredTranches = .approved noShows tick →
          ∃ vs : List Nat, vs.Nodup ∧ neededApprovals ≤ vs.length ∧
            ∀ v ∈ vs, v ∈ e.validatorsUpTo needed ∧ bit candidate.approvals v = true) ∧
      ∀ candidate : CandidateEntry, checkApproval candidate e r.requiredTranches = .approvedOneThird →
        candidate.approvals.length < 3 * countOnes candidate.approvals := by
  have hwf := he.wf.1
  unfold tranchesToApprove
  dsimp only
  -- the scan starts at tranche `0` and stops by tranche `trancheNow + 1`
  have hends : ∃ r, scanLoop (filledTrancheIterator e.tranches)
      (scanTranche approvals ((trancheNow + blockTick) % 2 ^ 64) blockTick noShowDuration neededApprovals e.nValidators)
      (trancheNow + 2) 0 (initialState neededApprovals) none = some (some r) :=
    scanLoop_ends (m := trancheNow)
      (fun k hk => by rw [filledTrancheIterator_eq hwf.sorted hwf.tranche_lt (by omega)])
      (fun s a => scanTranche_eq_none.mpr
        (Nat.lt_succ_of_le (driftedTrancheNow_le trancheNow blockTick (s.clockDrift noShowDuration))))
      (fun s a h => Nat.not_lt_zero _ (scanTranche_eq_none.mp h))
      (Nat.zero_le _) (by omega) (.inl rfl)
  obtain ⟨r, hr⟩ := hends
  have hbound : ExactBound e neededApprovals r :=
    scanLoop_invariant (ScanInv e neededApprovals) (ExactBound e neededApprovals)
      (fun k s o next hI hs => scanInv_step hwf htn hI hs) (scanInv_initialState e neededApprovals)
      (fun _ h => by cases h) hr
  refine ⟨r, fun fuel hfuel => ?_, fun needed tol nns lat hex => ?_, fun candidate => checkApproval_approvedOneThird⟩
  · obtain ⟨d, rfl⟩ := Nat.exists_eq_add_of_le hfuel
    exact scanLoop_add hr d
  · have hnd : (e.validatorsUpTo needed).Nodup := (e.validatorsUpTo_sublist needed).nodup hwf.nodup
    have hle := hbound needed tol nns lat hex
    refine ⟨hnd, hle, fun candidate noShows tick hc => ?_⟩
    rw [hex] at hc
    obtain ⟨vs, hvs, hlen, hmem⟩ := hwf.checkApproval_approved hc
    exact ⟨vs, hvs, by omega, hmem⟩

end Safety

/-! ## At `u32::MAX` -/

/-- Without entries, the iterator counts the `u32` tranches from `0`, wrapping. -/
theorem filledTrancheIterator_nil (k : Nat) : filledTrancheIterator [] k = (k % 2 ^ 32, []) := by
  simp [filledTrancheIterator, filledPrefix, fillGaps, postStart]

/-- At `tranche_now = u32::MAX`, on an entry without assignments that needs approvals, `tranches_to_approve` never ends,
whatever the fuel: the count stays pending, every tranche passes the test, and the iterator wraps back to `0`. -/
theorem tranchesToApprove_never_ends (n : Nat) (approvals : List Bool) {blockTick : Nat}
    (hbt : blockTick + 2 ^ 32 ≤ 2 ^ 64) (noShowDuration : Nat) {neededApprovals : Nat} (hneeded : 0 < neededApprovals)
    (fuel : Nat) :
    tranchesToApprove (ApprovalEntry.fresh n) approvals (2 ^ 32 - 1) blockTick noShowDuration neededApprovals fuel =
      none := by
  set s₀ := initialState neededApprovals
  -- at depth 0 there is no drift, and the tick now does not wrap
  have hdrift : (((2 ^ 32 - 1 + blockTick) % 2 ^ 64 - s₀.clockDrift noShowDuration) - blockTick) % 2 ^ 32 =
      2 ^ 32 - 1 := by
    rw [Nat.mod_eq_of_lt (show 2 ^ 32 - 1 + blockTick < 2 ^ 64 by omega)]
    simp [s₀, initialState, State.clockDrift]
  -- an empty tranche leaves the count as it is
  have hadvance : s₀.advance 0 0 none none [] = s₀ := by
    simp [s₀, initialState, State.advance, minPreferSome, maxOption, maxRecordedNoShowValidatorsPerCandidate,
      Nat.pos_iff_ne_zero.mp hneeded]
  -- and it stays pending, with no assignment
  have hpending : ∀ tranche, ∃ c nns m cd,
      (s₀.output tranche neededApprovals n noShowDuration).requiredTranches = .pending c nns m cd := by
    intro tranche
    simp [s₀, initialState, State.output, Nat.not_le.mpr hneeded]
  have hstep : ∀ k, scanTranche approvals ((2 ^ 32 - 1 + blockTick) % 2 ^ 64) blockTick noShowDuration neededApprovals
      n s₀ (k % 2 ^ 32) [] = some (s₀.output (k % 2 ^ 32) neededApprovals n noShowDuration, some s₀) := by
    intro k
    have hk : k % 2 ^ 32 ≤ 2 ^ 32 - 1 := Nat.le_pred_of_lt (Nat.mod_lt k (Nat.two_pow_pos 32))
    obtain ⟨c, nns, m, cd, hp⟩ := hpending (k % 2 ^ 32)
    unfold scanTranche
    simp only [hdrift, Nat.not_lt.mpr hk, if_false, countNoShows, List.foldl_nil, List.filter_nil, List.length_nil,
      List.map_nil, List.max?_nil, hadvance, hp]
  -- the scan goes on from every position, until the fuel runs out
  have hrun : ∀ fuel k last, scanLoop (filledTrancheIterator []) (scanTranche approvals
      ((2 ^ 32 - 1 + blockTick) % 2 ^ 64) blockTick noShowDuration neededApprovals n) fuel k s₀ last = none := by
    intro fuel
    induction fuel with
    | zero => intro k last; rfl
    | succ fuel ih =>
      intro k last
      simp only [scanLoop, filledTrancheIterator_nil, hstep]
      exact ih _ _
  have hn : (ApprovalEntry.fresh n).nValidators = n := List.length_replicate
  unfold tranchesToApprove
  simp only [hn]
  exact hrun fuel 0 none

theorem tranchesToApprove_never_ends_fresh :
    0 + 2 ^ 32 ≤ 2 ^ 64 ∧ 0 < 1 ∧ tranchesToApprove (ApprovalEntry.fresh 1) [false] (2 ^ 32 - 1) 0 1 1 3 = none :=
  ⟨by decide, by decide, tranchesToApprove_never_ends 1 [false] (by decide) 1 (by decide) 3⟩

end CoreChain.Approval

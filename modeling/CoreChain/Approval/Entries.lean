import CoreChain.Lib.Bits
import CoreChain.Lib.Vec

/-!
# Approval entries

The part of `polkadot/node/core/approval-voting/src/persisted_entries.rs` that approval checking reads: a
`TrancheEntry` (a delay tranche and the validators assigned in it, with the tick each assignment came at), an
`ApprovalEntry` (its tranches, in increasing order, and the bitfield of assigned validators), `import_assignment`,
`is_assigned` and `assignments_up_to`, and the approvals bitfield of a `CandidateEntry`.

`Built n` are the entries `import_assignment` builds from a fresh entry of `n` validators, called as `lib.rs` calls
it (`is_duplicate` is whether the validator is assigned already) with validators of the session. Such an entry is
well formed (`Built.wf`): its tranches increase, and its validators are in the session, each in one tranche and set
in the bitfield. `assignments_up_to` then sets exactly the validators of the tranches up to its argument
(`bit_assignmentsUpTo`), one bit each (`countOnes_assignmentsUpTo`).
-/

namespace CoreChain.Approval

/-- `TrancheEntry`: a `DelayTranche` (a `u32`), and the assignments in it, each a `ValidatorIndex` and the `Tick`
(a `u64`) it came at. -/
structure TrancheEntry where
  tranche : Nat
  assignments : List (Nat × Nat)
  deriving DecidableEq, Repr, Inhabited

/-- `ApprovalEntry`: its tranches and the bitfield of assigned validators, whose length is the number of validators.
The backing group, our assignment and approval signature and the approved flag are not read here. -/
structure ApprovalEntry where
  tranches : List TrancheEntry
  assignedValidators : List Bool
  deriving DecidableEq, Repr

/-- `CandidateEntry`: the bitfield of validators that approved the candidate. -/
structure CandidateEntry where
  approvals : List Bool
  deriving DecidableEq, Repr

namespace ApprovalEntry

/-- The entry of a candidate just included: no tranches, and `n` validators none of which is assigned. -/
def fresh (n : Nat) : ApprovalEntry :=
  ⟨[], List.replicate n false⟩

/-- `ApprovalEntry::n_validators`. -/
def nValidators (e : ApprovalEntry) : Nat :=
  e.assignedValidators.length

/-- `ApprovalEntry::is_assigned`. -/
def isAssigned (e : ApprovalEntry) (validatorIndex : Nat) : Bool :=
  bit e.assignedValidators validatorIndex

/-- `ApprovalEntry::import_assignment`: find the first tranche at or after this one, insert an empty tranche there
if it is not this one, append the assignment unless it is a duplicate, and mark the validator assigned. -/
def importAssignment (e : ApprovalEntry) (tranche : Nat) (validatorIndex : Nat) (tickNow : Nat)
    (isDuplicate : Bool) : ApprovalEntry :=
  let (tranches, idx) :=
    match e.tranches.findIdx? (fun t => decide (tranche ≤ t.tranche)) with
    | some pos =>
      if tranche < (e.tranches.getD pos default).tranche then (e.tranches.insertIdx pos (TrancheEntry.mk tranche []), pos)
      else (e.tranches, pos)
    | none => (e.tranches ++ [TrancheEntry.mk tranche []], e.tranches.length)
  let tranches :=
    if isDuplicate then tranches
    else tranches.modify idx fun t => { t with assignments := t.assignments ++ [(validatorIndex, tickNow)] }
  ⟨tranches, setBit e.assignedValidators validatorIndex⟩

/-- `ApprovalEntry::assignments_up_to`: the validators assigned in the tranches up to `tranche`, as a bitfield. -/
def assignmentsUpTo (e : ApprovalEntry) (tranche : Nat) : List Bool :=
  (e.tranches.takeWhile fun t => decide (t.tranche ≤ tranche)).foldl
    (fun a t => t.assignments.foldl (fun a p => setBit a p.1) a) (List.replicate e.assignedValidators.length false)

/-- The validators assigned in the tranches up to `tranche`, in order. -/
def validatorsUpTo (e : ApprovalEntry) (tranche : Nat) : List Nat :=
  ((e.tranches.takeWhile fun t => decide (t.tranche ≤ tranche)).flatMap (·.assignments)).map (·.1)

/-- All validators assigned, in order. -/
def validators (e : ApprovalEntry) : List Nat :=
  (e.tranches.flatMap (·.assignments)).map (·.1)

theorem assignmentsUpTo_eq (e : ApprovalEntry) (tranche : Nat) :
    e.assignmentsUpTo tranche = (e.validatorsUpTo tranche).foldl setBit (List.replicate e.nValidators false) := by
  unfold assignmentsUpTo validatorsUpTo nValidators
  rw [List.foldl_map, List.foldl_flatMap]

/-! ## Well formed entries -/

/-- An entry as `import_assignment` keeps it: tranches in increasing order and in `u32`, validators in the session,
each assigned once and set in the bitfield. -/
structure Wf (e : ApprovalEntry) : Prop where
  sorted : e.tranches.Pairwise fun a b => a.tranche < b.tranche
  tranche_lt : ∀ t ∈ e.tranches, t.tranche < 2 ^ 32
  validator_lt : ∀ v ∈ e.validators, v < e.nValidators
  nodup : e.validators.Nodup
  assigned : ∀ v, e.isAssigned v = true ↔ v ∈ e.validators

/-- `import_assignment` on sorted tranches: the tranches before this one and after it stay, and the assignment is
appended to this one, new or not. -/
theorem importAssignment_tranches {e : ApprovalEntry} (hs : e.tranches.Pairwise fun a b => a.tranche < b.tranche)
    (tranche : Nat) (validatorIndex : Nat) (tickNow : Nat) (isDuplicate : Bool) :
    ∃ pre post ts, (∀ t ∈ pre, t.tranche < tranche) ∧ (∀ t ∈ post, tranche < t.tranche) ∧
      (e.tranches = pre ++ post ∧ ts = [] ∨ e.tranches = pre ++ ⟨tranche, ts⟩ :: post) ∧
      (e.importAssignment tranche validatorIndex tickNow isDuplicate).tranches =
        pre ++ ⟨tranche, ts ++ if isDuplicate then [] else [(validatorIndex, tickNow)]⟩ :: post := by
  rcases findIdx?_split (fun t : TrancheEntry => decide (tranche ≤ t.tranche)) e.tranches with
    ⟨hnone, hall⟩ | ⟨pre, x, post, hsplit, hidx, hx, hpre⟩
  · -- every tranche is before this one: a new tranche goes last
    have hlt : ∀ t ∈ e.tranches, t.tranche < tranche := fun t ht => by simpa using hall t ht
    refine ⟨e.tranches, [], [], hlt, ?_, Or.inl ⟨by simp, rfl⟩, ?_⟩
    · intro t ht
      cases ht
    simp only [importAssignment, hnone]
    cases isDuplicate
    · exact modify_length_append e.tranches [] ⟨tranche, []⟩ _
    · rfl
  · have hpre' : ∀ t ∈ pre, t.tranche < tranche := fun t ht => by simpa using hpre t ht
    have hx' : tranche ≤ x.tranche := by simpa using hx
    -- the tranches after `x` come after this one
    have hpost : ∀ t ∈ post, tranche < t.tranche := by
      intro t ht
      rw [hsplit] at hs
      have hxt : x.tranche < t.tranche := (List.pairwise_cons.mp (List.pairwise_append.mp hs).2.1).1 t ht
      omega
    have hget : e.tranches.getD pre.length default = x := by
      rw [hsplit, List.getD_eq_getElem?_getD, List.getElem?_append_right (Nat.le_refl _), Nat.sub_self]
      rfl
    rw [hsplit] at hidx hget
    by_cases hnew : tranche < x.tranche
    · -- a new tranche goes before `x`
      refine ⟨pre, x :: post, [], hpre', List.forall_mem_cons.mpr ⟨hnew, hpost⟩, .inl ⟨hsplit, rfl⟩, ?_⟩
      simp only [importAssignment, hsplit, hidx, hget, if_pos hnew, insertIdx_length_append]
      cases isDuplicate
      · exact modify_length_append pre (x :: post) ⟨tranche, []⟩ _
      · rfl
    · -- `x` is this tranche
      have hxt : x.tranche = tranche := by omega
      obtain ⟨xt, ts⟩ := x
      simp only at hxt
      subst hxt
      refine ⟨pre, post, ts, hpre', hpost, .inr hsplit, ?_⟩
      simp only [importAssignment, hsplit, hidx, hget, if_neg hnew]
      cases isDuplicate
      · exact modify_length_append pre post ⟨xt, ts⟩ _
      · simp

theorem validators_split (pre post : List TrancheEntry) (t : TrancheEntry) :
    (⟨pre ++ t :: post, []⟩ : ApprovalEntry).validators =
      (pre.flatMap (·.assignments)).map (·.1) ++ t.assignments.map (·.1) ++ (post.flatMap (·.assignments)).map (·.1) := by
  simp [validators]

section Wf

variable {e : ApprovalEntry}

/-- `import_assignment`, called with `is_duplicate` telling whether the validator is assigned, keeps an entry well
formed: the validator joins the tranche once. -/
theorem Wf.importAssignment (hwf : e.Wf) {tranche v : Nat} (tickNow : Nat) (ht : tranche < 2 ^ 32)
    (hv : v < e.nValidators) : (e.importAssignment tranche v tickNow (e.isAssigned v)).Wf := by
  obtain ⟨pre, post, ts, hpre, hpost, hold, hnew⟩ := importAssignment_tranches hwf.sorted tranche v tickNow (e.isAssigned v)
  -- the assignment added, if any
  set added : List (Nat × Nat) := if e.isAssigned v then [] else [(v, tickNow)] with hadded
  have hold' : e.tranches = pre ++ ⟨tranche, ts⟩ :: post ∨ (e.tranches = pre ++ post ∧ ts = []) := hold.symm
  -- the old tranches around this one, and the old validators
  have hvals : e.validators = (pre.flatMap (·.assignments)).map (·.1) ++ ts.map (·.1) ++
      (post.flatMap (·.assignments)).map (·.1) := by
    rcases hold' with h | ⟨h, rfl⟩
    · rw [← validators_split pre post ⟨tranche, ts⟩, ← h]
      rfl
    · simp [validators, h]
  have hsorted : pre.Pairwise (fun a b => a.tranche < b.tranche) ∧ post.Pairwise (fun a b => a.tranche < b.tranche) := by
    have hs := hwf.sorted
    rcases hold' with h | ⟨h, -⟩ <;> rw [h] at hs
    · exact ⟨(List.pairwise_append.mp hs).1, (List.pairwise_cons.mp (List.pairwise_append.mp hs).2.1).2⟩
    · exact ⟨(List.pairwise_append.mp hs).1, (List.pairwise_append.mp hs).2.1⟩
  have hmem_old : ∀ t, t ∈ pre ∨ t ∈ post → t ∈ e.tranches := by
    intro t ht
    rcases hold' with h | ⟨h, -⟩ <;> rw [h] <;> rcases ht with ht | ht <;> simp [ht]
  -- the new validators are the old ones and the one added
  have hperm : (e.importAssignment tranche v tickNow (e.isAssigned v)).validators.Perm (e.validators ++ added.map (·.1)) := by
    rw [show (e.importAssignment tranche v tickNow (e.isAssigned v)).validators =
        (⟨(e.importAssignment tranche v tickNow (e.isAssigned v)).tranches, []⟩ : ApprovalEntry).validators from rfl,
      hnew, validators_split, hvals, List.map_append]
    simp only [List.append_assoc]
    exact List.Perm.append_left _ (List.Perm.append_left _ List.perm_append_comm)
  have hlen : (e.importAssignment tranche v tickNow (e.isAssigned v)).nValidators = e.nValidators :=
    length_setBit _ _
  -- a validator added was not assigned before
  have hfresh : ∀ w ∈ added.map (·.1), w = v ∧ v ∉ e.validators := by
    intro w hw
    rw [hadded] at hw
    split_ifs at hw with hassigned
    · cases hw
    · refine ⟨by simpa using hw, fun hmem => hassigned ((hwf.assigned v).mpr hmem)⟩
  refine ⟨?_, ?_, ?_, ?_, ?_⟩
  · -- the tranches stay in increasing order around this one
    rw [hnew, List.pairwise_append, List.pairwise_cons]
    refine ⟨hsorted.1, ⟨hpost, hsorted.2⟩, fun a ha b hb => ?_⟩
    rcases List.mem_cons.mp hb with rfl | hb
    · exact hpre a ha
    · exact Nat.lt_trans (hpre a ha) (hpost b hb)
  · intro t htm
    rw [hnew] at htm
    rcases List.mem_append.mp htm with h | h
    · exact hwf.tranche_lt t (hmem_old t (.inl h))
    · rcases List.mem_cons.mp h with rfl | h
      · exact ht
      · exact hwf.tranche_lt t (hmem_old t (.inr h))
  · intro w hw
    rw [hlen]
    rcases List.mem_append.mp (hperm.subset hw) with hw | hw
    · exact hwf.validator_lt w hw
    · rw [(hfresh w hw).1]
      exact hv
  · refine hperm.nodup_iff.mpr (List.nodup_append.mpr ⟨hwf.nodup, ?_, fun a ha b hb hab => ?_⟩)
    · rw [hadded]
      split_ifs <;> simp
    · obtain ⟨rfl, hnot⟩ := hfresh b hb
      exact hnot (hab ▸ ha)
  · intro w
    rw [hperm.mem_iff, List.mem_append]
    change bit (setBit e.assignedValidators v) w = true ↔ _
    rw [bit_setBit]
    by_cases hwv : w = v
    · subst hwv
      -- the validator is assigned now, whether it was before or not
      have hlt : w < e.assignedValidators.length := hv
      by_cases hassigned : e.isAssigned w = true
      · simp [hlt, (hwf.assigned w).mp hassigned]
      · simp [hlt, hadded, hassigned]
    · have hnot : w ∉ added.map (·.1) := fun hw => hwv (hfresh w hw).1
      simp only [hwv, decide_false, Bool.false_and, Bool.or_false, hnot, or_false]
      exact hwf.assigned w

theorem wf_fresh (n : Nat) : (fresh n).Wf := by
  refine ⟨List.Pairwise.nil, (fun _ h => by cases h), (fun _ h => by cases h), List.nodup_nil, fun v => ?_⟩
  by_cases hv : v < n <;> simp [isAssigned, fresh, validators, bit, List.getD_eq_getElem?_getD, hv]

end Wf

/-- The entries `import_assignment` builds from a fresh entry of `n` validators, as `lib.rs` calls it: for a validator
of the session, at a `u32` tranche, with `is_duplicate` telling whether the validator is assigned already. -/
inductive Built (n : Nat) : ApprovalEntry → Prop
  | fresh : Built n (fresh n)
  | importAssignment {e : ApprovalEntry} {tranche v : Nat} (tickNow : Nat) :
      Built n e → tranche < 2 ^ 32 → v < n → Built n (e.importAssignment tranche v tickNow (e.isAssigned v))

theorem Built.wf {n : Nat} {e : ApprovalEntry} (h : Built n e) : e.Wf ∧ e.nValidators = n := by
  induction h with
  | fresh => exact ⟨wf_fresh n, List.length_replicate⟩
  | importAssignment tickNow _ ht hv ih =>
    exact ⟨ih.1.importAssignment tickNow ht (ih.2 ▸ hv), (length_setBit _ _).trans ih.2⟩

/-! ## `assignments_up_to` -/

theorem validatorsUpTo_sublist (e : ApprovalEntry) (tranche : Nat) : (e.validatorsUpTo tranche).Sublist e.validators := by
  unfold validatorsUpTo validators
  conv_rhs => rw [← List.takeWhile_append_dropWhile (p := fun t => decide (t.tranche ≤ tranche)) (l := e.tranches)]
  rw [List.flatMap_append, List.map_append]
  exact List.sublist_append_left _ _

/-- `assignments_up_to` sets the validators of the tranches up to its argument. -/
theorem bit_assignmentsUpTo (e : ApprovalEntry) (tranche v : Nat) :
    bit (e.assignmentsUpTo tranche) v = (decide (v ∈ e.validatorsUpTo tranche) && decide (v < e.nValidators)) := by
  rw [assignmentsUpTo_eq, bit_foldl_setBit_zero]

/-- In a well formed entry, `assignments_up_to` has one bit for each validator of the tranches up to its argument. -/
theorem Wf.countOnes_assignmentsUpTo {e : ApprovalEntry} (hwf : e.Wf) (tranche : Nat) :
    countOnes (e.assignmentsUpTo tranche) = (e.validatorsUpTo tranche).length := by
  rw [assignmentsUpTo_eq]
  exact countOnes_foldl_setBit_zero ((e.validatorsUpTo_sublist tranche).nodup hwf.nodup)
    (fun v hv => hwf.validator_lt v ((e.validatorsUpTo_sublist tranche).subset hv))

end ApprovalEntry

end CoreChain.Approval

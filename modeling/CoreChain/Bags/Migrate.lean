import CoreChain.Bags.List
import Mathlib

/-!
# What `migrate` does to the bag of `Score::MAX`

`migrate` takes the ids out of every bag whose threshold is removed, puts them back by the new thresholds, and
removes the bags of the removed thresholds last, whatever they then hold (`migrate_lookup_removed`). An id whose
score is above every new threshold goes back to the bag of `Score::MAX` (`notionalBagFor_of_forall_lt`). So when
the old thresholds end in `Score::MAX` and the new ones omit it, the ids of that bag are put back into it, and the
bag is removed under them: the nodes stay, counted, and no bag and no walk of `List::iter` reaches them
(`migrate_orphans_top_bag`).
-/

namespace CoreChain.Bags

variable {A S : Type} [DecidableEq A] [LinearOrder S] [OrderTop S]

/-! ## The bag of a score -/

/-- A score above every threshold goes to the bag of `Score::MAX`. -/
theorem notionalBagFor_of_forall_lt {thresholds : List S} {score : S} (h : ∀ t ∈ thresholds, t < score) :
    notionalBagFor thresholds score = ⊤ := by
  have hpp : partitionPoint thresholds (fun threshold => decide (score > threshold)) = thresholds.length :=
    partitionPoint_of_forall (fun t ht => decide_eq_true (h t ht))
  unfold notionalBagFor
  rw [hpp, List.getElem?_eq_none (Nat.le_refl _), Option.getD_none]

/-! ## Sets as sorted lists -/

section Sets

variable {α : Type} [LinearOrder α]

theorem List.mem_setInsert {set : List α} {a b : α} : b ∈ List.setInsert set a ↔ b ∈ set ∨ b = a := by
  unfold List.setInsert
  split
  · case isTrue ha =>
    constructor
    · exact Or.inl
    · rintro (hb | rfl)
      · exact hb
      · exact ha
  · rw [List.mem_orderedInsert, or_comm]

theorem List.mem_foldl_setInsert {l set : List α} {b : α} : b ∈ l.foldl List.setInsert set ↔ b ∈ set ∨ b ∈ l := by
  induction l generalizing set with
  | nil => simp
  | cons a l ih =>
    rw [List.foldl_cons, ih, List.mem_setInsert, List.mem_cons]
    tauto

end Sets

/-! ## The removed bags -/

omit [OrderTop S] in
/-- The last loop of `migrate`: a bag is gone once its threshold is removed, and kept otherwise. -/
theorem lookup_foldl_erase (bs : List S) (st : Storage A S) (b : S) :
    (bs.foldl (fun st removedBag => { st with listBags := st.listBags.erase removedBag }) st).listBags.lookup b =
      if b ∈ bs then none else st.listBags.lookup b := by
  induction bs generalizing st with
  | nil => simp
  | cons a bs ih =>
    rw [List.foldl_cons, ih]
    by_cases hb : b ∈ bs
    · simp [hb]
    · by_cases hba : b = a
      · subst hba
        simp [hb, AList.lookup_erase]
      · simp [hb, hba, AList.lookup_erase_ne hba]

theorem migrate_lookup_removed [LinearOrder A] [Zero S] (thresholds : List S) (score : A → Option S)
    (st : Storage A S) {oldThresholds : List S} {b : S} (hold : b ∈ oldThresholds) (hnew : b ∉ thresholds) :
    (List.migrate thresholds score st oldThresholds).1.listBags.lookup b = none := by
  have hne : thresholds ≠ oldThresholds := fun h => hnew (h ▸ hold)
  have hremoved : b ∈ (oldThresholds.foldl List.setInsert []).filter (· ∉ thresholds.foldl List.setInsert []) := by
    simp [List.mem_filter, List.mem_foldl_setInsert, hold, hnew]
  unfold List.migrate
  rw [if_neg hne, lookup_foldl_erase, if_pos hremoved]

/-! ## The bag of `Score::MAX` removed under its ids -/

/-- `VoteWeight`, the score of the staking runtime: a `u64`. -/
abbrev VoteWeight := Fin 18446744073709551616

instance (priority := 1100) voteWeightNeZero : NeZero (18446744073709551616 : Nat) := ⟨by decide⟩

/-- With no thresholds, id 1 of score 5 goes to the bag of `Score::MAX`. Migrating from `[Score::MAX]` takes it out,
puts it back in that bag, then removes the bag: the node is stored and counted in no bag, `List::iter` yields nothing,
and `do_try_state` fails. -/
theorem migrate_orphans_top_bag :
    ∃ st, execute [] (fun _ => some 5) (Storage.empty : Storage ℕ VoteWeight) [.insert 1 5, .migrate [⊤]] = some st ∧
      Node.get st 1 = some ⟨1, none, none, ⊤, 5⟩ ∧ Bag.get st ⊤ = none ∧ List.iter [] st = [] ∧
      st.counterForListNodes = 1 ∧ List.doTryState [] st = .error "iter_count != stored_count" := by
  refine ⟨_, rfl, ?_⟩
  decide

/-- The id 1 of score 5 in the bag of `Score::MAX`, with no thresholds. -/
def oneInTop : Storage ℕ VoteWeight :=
  (execute [] (fun _ => some 5) Storage.empty [.insert 1 5]).getD Storage.empty

/-- `migrate` from `[Score::MAX]` to no thresholds, on a list that passes `do_try_state` under the old ones, each
`bag_upper` among them and each id scored: it moves the one id and returns 1, but the list fails `do_try_state` under
the new thresholds, its node left with no bag. -/
theorem migrate_breaks_try_state :
    List.doTryState [⊤] oneInTop = .ok () ∧ Node.get oneInTop 1 = some ⟨1, none, none, ⊤, 5⟩ ∧
      ∃ st, List.migrate [] (fun _ => some 5) oneInTop [⊤] = (st, 1) ∧
        List.doTryState [] st = .error "iter_count != stored_count" ∧ Node.get st 1 = some ⟨1, none, none, ⊤, 5⟩ ∧
        Bag.get st ⊤ = none := by
  refine ⟨by decide, by decide, _, rfl, ?_⟩
  decide

end CoreChain.Bags

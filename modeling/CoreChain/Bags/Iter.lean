import CoreChain.Bags.Migrate
import CoreChain.Lib.Machine
import Mathlib

/-!
# Iterating the list

`List::iter` walks the bags from the greatest bound down, and each bag from its head along `next`;
`List::iter_from(start)` walks on from `start` along `next` to the end of its bag, and then the bags of the
thresholds below that bag, found by a `partition_point`.

On a list that passes `do_try_state`, with its nodes stored under their own ids (`Storage.Keyed`) and strictly
increasing thresholds (the pallet's `integrity_test`):

* every stored node is in the walk of the bag of its `bag_upper`, and nowhere else (`doTryState_ok`, and the ids of
  `List::iter` are distinct);
* the bounds split around the bag of `start` (`split_of_sorted`), and `partition_point` cuts the thresholds at it
  (`take_partitionPoint`);
* a walk that ends before its fuel is the source's unbounded walk (`walk_of_length_lt`), and the walk of a bag goes on
  after a node as the walk from that node's `next` (`walk_eq_append_cons`).

So `iter_from(start)` is what `iter` yields after `start`, and `iter` yields the nodes by non-increasing bag
(`iter_from_suffix`).
-/

namespace CoreChain.Bags

variable {A S : Type} [DecidableEq A] [LinearOrder S]

/-- `List::iter_from`: the nodes after `start` in its bag, then the bags of the thresholds below its bag, from the
greatest. The walk along `next` is bounded as in `Bag::iter`. -/
def List.iterFrom (thresholds : List S) (st : Storage A S) (start : A) : Except ListError (List (Node A S)) := do
  let some startNode := Node.get st start | throw .nodeNotFound
  let startNodeUpper := startNode.bagUpper
  let startBag := Bag.walk st (st.listNodes.entries.length + 1) startNode.next
  let idx := partitionPoint thresholds (fun threshold => decide (startNodeUpper > threshold))
  let leftoverBags := ((thresholds.take idx).reverse.filterMap (Bag.get st)).flatMap (Bag.iter st)
  pure (startBag ++ leftoverBags)

/-- Every node is stored under its own id, as `Node::put` stores it. -/
def Storage.Keyed (st : Storage A S) : Prop :=
  ∀ id node, Node.get st id = some node → node.id = id

/-- The ids under which the nodes are stored can be checked on the map's entries. -/
theorem Storage.keyed_of_entries {st : Storage A S} (h : ∀ e ∈ st.listNodes.entries, e.2.id = e.1) : st.Keyed :=
  fun id node hnode => h ⟨id, node⟩ (AList.mem_lookup_iff.mp hnode)

/-! ## Walks -/

section Walk

variable {st : Storage A S}

theorem Bag.get_bagUpper {bagUpper : S} {bag : Bag A S} (h : Bag.get st bagUpper = some bag) :
    bag.bagUpper = bagUpper := by
  simp only [Bag.get, Option.map_eq_some_iff] at h
  obtain ⟨_, -, rfl⟩ := h
  rfl

theorem mem_walk : ∀ {fuel : Nat} {head : Option A} {node : Node A S}, node ∈ Bag.walk st fuel head →
    ∃ id, Node.get st id = some node
  | 0, _, _, h => by simp [Bag.walk] at h
  | _ + 1, none, _, h => by simp [Bag.walk] at h
  | fuel + 1, some id, node, h => by
    unfold Bag.walk at h
    split at h
    · simp at h
    · rename_i n hn
      rcases List.mem_cons.mp h with rfl | h
      · exact ⟨id, hn⟩
      · exact mem_walk h

/-- After a node, a walk goes on as the walk from the node's `next`, with the fuel that is left. -/
theorem walk_eq_append_cons : ∀ {fuel : Nat} {head : Option A} {pre rest : List (Node A S)} {node : Node A S},
    Bag.walk st fuel head = pre ++ node :: rest → rest = Bag.walk st (fuel - pre.length - 1) node.next
  | 0, _, pre, _, _, h => by simp [Bag.walk] at h
  | _ + 1, none, pre, _, _, h => by simp [Bag.walk] at h
  | fuel + 1, some id, pre, rest, node, h => by
    unfold Bag.walk at h
    split at h
    · simp at h
    · rename_i n _
      cases pre with
      | nil =>
        rw [List.nil_append, List.cons.injEq] at h
        obtain ⟨rfl, rfl⟩ := h
        simp
      | cons p pre =>
        rw [List.cons_append, List.cons.injEq] at h
        obtain ⟨rfl, h⟩ := h
        rw [walk_eq_append_cons h, List.length_cons]
        congr 1
        omega

/-- A walk that ends before its fuel runs out ends at a missing link, and more fuel does not change it. -/
theorem walk_of_length_lt : ∀ {fuel fuel' : Nat} {head : Option A}, (Bag.walk st fuel head).length < fuel →
    fuel ≤ fuel' → Bag.walk st fuel' head = Bag.walk st fuel head
  | 0, _, _, h, _ => by simp at h
  | _ + 1, _ + 1, none, _, _ => by simp [Bag.walk]
  | fuel + 1, fuel' + 1, some id, h, hle => by
    cases hn : Node.get st id with
    | none => simp [Bag.walk, hn]
    | some n =>
      simp only [Bag.walk, hn, List.length_cons] at h ⊢
      rw [@walk_of_length_lt fuel fuel' n.next (by omega) (by omega)]
  | _ + 1, 0, _, _, hle => by omega

/-- With the nodes under their own ids, a walk without repeated ids has at most as many nodes as are stored. -/
theorem length_walk_le (hkeyed : st.Keyed) {fuel : Nat} {head : Option A}
    (hnd : ((Bag.walk st fuel head).map Node.id).Nodup) :
    (Bag.walk st fuel head).length ≤ st.listNodes.entries.length := by
  have hsub : (Bag.walk st fuel head).map Node.id ⊆ st.listNodes.keys := by
    intro id hid
    obtain ⟨node, hnode, rfl⟩ := List.mem_map.mp hid
    obtain ⟨k, hk⟩ := mem_walk hnode
    rw [hkeyed k node hk]
    exact AList.mem_keys.mpr (AList.lookup_isSome.mp (Option.isSome_iff_exists.mpr ⟨node, hk⟩))
  have := (List.Nodup.subperm hnd hsub).length_le
  rwa [List.length_map, AList.keys, List.keys, List.length_map] at this

end Walk

/-! ## What `do_try_state` checks -/

section Invariant

variable [OrderTop S] {thresholds : List S} {st : Storage A S}

theorem forM_eq_ok {ε α : Type} {f : α → Except ε PUnit} :
    ∀ {l : List α}, l.forM f = .ok () → ∀ a ∈ l, f a = .ok ()
  | [], _, a, ha => absurd ha List.not_mem_nil
  | b :: l, h, a, ha => by
    unfold List.forM at h
    obtain ⟨u, hb, hl⟩ := Except.bind_eq_ok.mp h
    rcases List.mem_cons.mp ha with rfl | ha
    · exact hb
    · exact forM_eq_ok hl a ha

/-- A list that passes `do_try_state` yields no id twice, and each stored node is in the walk of the stored bag of
its `bag_upper`, one of the bounds. -/
theorem doTryState_ok (h : List.doTryState thresholds st = .ok ()) :
    ((List.iter thresholds st).map Node.id).Nodup ∧
      ∀ id node, Node.get st id = some node → ∃ bag, Bag.get st node.bagUpper = some bag ∧
        node.bagUpper ∈ List.withMax thresholds ∧ node.id ∈ (Bag.iter st bag).map Node.id := by
  unfold List.doTryState at h
  by_cases hnd : ((List.iter thresholds st).map Node.id).Nodup
  swap
  · rw [if_neg hnd] at h
    cases h
  rw [if_pos hnd] at h
  dsimp only at h
  split at h
  swap
  · cases h
  split at h
  swap
  · cases h
  obtain ⟨_, -, h⟩ := Except.bind_eq_ok.mp h
  split at h
  swap
  · cases h
  refine ⟨hnd, fun id node hnode => ?_⟩
  have hentry := forM_eq_ok h ⟨id, node⟩ (AList.mem_lookup_iff.mp hnode)
  -- the check found the bag of the node's bound among the stored bags, and the node's id in it
  split at hentry
  · rename_i expected hfind
    split at hentry
    swap
    · cases hentry
    rename_i hmem
    obtain ⟨⟨bagUpper, ids⟩, hfound, rfl⟩ := Option.map_eq_some_iff.mp hfind
    have hkey := List.find?_some hfound
    obtain ⟨bag, hbag, hpair⟩ := List.mem_map.mp (List.mem_of_find?_eq_some hfound)
    obtain ⟨t, ht, hget⟩ := List.mem_filterMap.mp hbag
    rw [Prod.mk.injEq] at hpair
    obtain ⟨rfl, rfl⟩ := hpair
    simp only [beq_iff_eq] at hkey
    rw [Bag.get_bagUpper hget] at hkey
    subst hkey
    exact ⟨bag, hget, ht, hmem⟩
  · cases hentry

end Invariant

/-! ## The bounds -/

section Bounds

variable [OrderTop S] {thresholds : List S}

/-- With strictly increasing thresholds, the bounds with `Score::MAX` added strictly increase too. -/
theorem withMax_sorted (hsorted : thresholds.Pairwise (· < ·)) : (List.withMax thresholds).Pairwise (· < ·) := by
  unfold List.withMax
  split
  · exact hsorted
  · rename_i hlast
    refine List.pairwise_append.mpr ⟨hsorted, List.pairwise_singleton _ _, fun a ha c hc => ?_⟩
    rw [List.mem_singleton] at hc
    subst hc
    -- `Score::MAX` could only be the last threshold
    refine lt_top_iff_ne_top.mpr fun htop => ?_
    subst htop
    obtain ⟨s, t, rfl⟩ := List.append_of_mem ha
    cases t with
    | nil => exact hlast (by simp)
    | cons c t =>
      have htail := (List.pairwise_append.mp hsorted).2.1
      exact not_top_lt (List.rel_of_pairwise_cons htail List.mem_cons_self)

/-- The bounds below a bag are the thresholds below it, `Score::MAX` being no threshold's lower bound. -/
theorem filter_withMax_lt (b : S) :
    (List.withMax thresholds).filter (fun a => decide (a < b)) = thresholds.filter (fun a => decide (a < b)) := by
  unfold List.withMax
  split
  · rfl
  · have htop : [(⊤ : S)].filter (fun a => decide (a < b)) = [] := by simp
    rw [List.filter_append, htop, List.append_nil]

omit [OrderTop S] in
/-- `partition_point` over strictly increasing thresholds cuts off those below the bound. -/
theorem take_partitionPoint_lt (hsorted : thresholds.Pairwise (· < ·)) (b : S) :
    thresholds.take (partitionPoint thresholds (fun threshold => decide (b > threshold))) =
      thresholds.filter (fun a => decide (a < b)) :=
  take_partitionPoint (hsorted.imp fun {a c} hac hc => by simpa using lt_trans hac (by simpa using hc))

end Bounds

/-! ## `iter` and `iter_from` -/

section Iter

variable [OrderTop S] {thresholds : List S} {st : Storage A S}

/-- The bags that `List::iter` walks. -/
theorem mem_iterBags {b : S} {bag : Bag A S} (hb : b ∈ List.withMax thresholds) (hget : Bag.get st b = some bag) :
    bag ∈ (List.iterThresholds thresholds).filterMap (Bag.get st) :=
  List.mem_filterMap.mpr ⟨b, List.mem_reverse.mpr hb, hget⟩

/-- `List::iter` splits at the bag of a bound: the bags above it, its own walk, and the bags below it. -/
theorem iter_split (hsorted : thresholds.Pairwise (· < ·)) {b : S} {bag : Bag A S}
    (hb : b ∈ List.withMax thresholds) (hget : Bag.get st b = some bag) :
    List.iter thresholds st =
      (((List.withMax thresholds).filter (fun a => decide (b < a))).reverse.filterMap (Bag.get st)).flatMap
          (Bag.iter st) ++
        Bag.iter st bag ++ ((thresholds.filter (fun a => decide (a < b))).reverse.filterMap (Bag.get st)).flatMap
          (Bag.iter st) := by
  have hsplit := split_of_sorted (withMax_sorted hsorted) hb
  have hrev : List.iterThresholds thresholds =
      ((List.withMax thresholds).filter (fun a => decide (b < a))).reverse ++
        b :: ((List.withMax thresholds).filter (fun a => decide (a < b))).reverse := by
    unfold List.iterThresholds
    conv_lhs => rw [hsplit]
    simp
  unfold List.iter
  rw [hrev, List.filterMap_append, List.filterMap_cons, hget, List.flatMap_append, List.flatMap_cons,
    filter_withMax_lt, List.append_assoc]

/-- In a list that passes `do_try_state`, with the nodes under their own ids, every node of a bag's walk is of that
bag: the walks of two bags share no id. -/
theorem bagUpper_of_mem_iter (hinv : List.doTryState thresholds st = .ok ()) {b : S}
    {bag : Bag A S} (hb : b ∈ List.withMax thresholds) (hget : Bag.get st b = some bag) {node : Node A S}
    (hnode : node ∈ Bag.iter st bag) : node.bagUpper = b := by
  obtain ⟨hnd, hbags⟩ := doTryState_ok hinv
  obtain ⟨id, hid⟩ := mem_walk hnode
  obtain ⟨bag', hget', hb', hmem'⟩ := hbags id node hid
  by_contra hne
  -- the two bags are distinct bags of the walk, and both hold the node's id
  have hdiff : bag ≠ bag' := fun h => hne (by rw [← Bag.get_bagUpper hget', ← h, Bag.get_bagUpper hget])
  unfold List.iter at hnd
  rw [List.map_flatMap] at hnd
  have hdisj := (List.nodup_flatMap.mp hnd).2
  have : Std.Symm (Function.onFun List.Disjoint fun b => (Bag.iter st b).map Node.id) :=
    ⟨fun _ _ h _ ha hb => h hb ha⟩
  exact hdisj.forall (mem_iterBags hb hget) (mem_iterBags hb' hget') hdiff
    (List.mem_map_of_mem hnode) hmem'

theorem iter_pairwise_bagUpper (hsorted : thresholds.Pairwise (· < ·))
    (hinv : List.doTryState thresholds st = .ok ()) :
    (List.iter thresholds st).Pairwise (fun a c => c.bagUpper ≤ a.bagUpper) := by
  -- each node carries the bound of the bag it is walked in
  have hof : ∀ bag ∈ (List.iterThresholds thresholds).filterMap (Bag.get st), ∀ node ∈ Bag.iter st bag,
      node.bagUpper = bag.bagUpper := by
    intro bag hbag node hnode
    obtain ⟨b, hb, hget⟩ := List.mem_filterMap.mp hbag
    rw [Bag.get_bagUpper hget]
    exact bagUpper_of_mem_iter hinv (List.mem_reverse.mp hb) hget hnode
  have hbags : ((List.iterThresholds thresholds).filterMap (Bag.get st)).Pairwise
      (fun bag bag' => bag'.bagUpper < bag.bagUpper) := by
    refine List.Pairwise.filterMap _ (fun a a' h bag hget bag' hget' => ?_)
      (List.pairwise_reverse.mpr (withMax_sorted hsorted))
    rw [Bag.get_bagUpper hget, Bag.get_bagUpper hget']
    exact h
  unfold List.iter
  refine List.pairwise_flatMap.mpr ⟨fun bag hbag => ?_, hbags.imp_of_mem fun {bag bag'} hbag hbag' hlt => ?_⟩
  · refine List.pairwise_of_forall_mem_list fun a ha c hc => ?_
    rw [hof bag hbag a ha, hof bag hbag c hc]
  · intro a ha c hc
    rw [hof bag hbag a ha, hof bag' hbag' c hc]
    exact le_of_lt hlt

theorem iterFrom_eq (hsorted : thresholds.Pairwise (· < ·)) (hkeyed : st.Keyed)
    (hinv : List.doTryState thresholds st = .ok ()) {x : A} {nx : Node A S} (hx : Node.get st x = some nx) :
    ∃ pre rest, List.iter thresholds st = pre ++ nx :: rest ∧ List.iterFrom thresholds st x = .ok rest := by
  obtain ⟨hnd, hbags⟩ := doTryState_ok hinv
  obtain ⟨bag, hget, hb, hmem⟩ := hbags x nx hx
  have hsplit := iter_split hsorted hb hget
  -- the walk of the bag meets `x`'s node
  obtain ⟨n, hn, hnid⟩ := List.mem_map.mp hmem
  have hnx : n = nx := by
    obtain ⟨k, hk⟩ := mem_walk hn
    have hkx : k = x := by rw [← hkeyed k n hk, hnid, hkeyed x nx hx]
    subst hkx
    exact Option.some.inj (hk.symm.trans hx)
  subst hnx
  -- the walk of the bag is part of `List::iter`, so it repeats no id and ends before its fuel
  have hbagnd : ((Bag.iter st bag).map Node.id).Nodup := by
    rw [hsplit, List.map_append, List.map_append] at hnd
    exact (List.nodup_append.mp (List.nodup_append.mp hnd).1).2.1
  have hlen := length_walk_le hkeyed hbagnd
  obtain ⟨pre, suf, hwalk⟩ := List.append_of_mem hn
  rw [Bag.iter] at hwalk
  have hsuf := walk_eq_append_cons hwalk
  have hlen' := congrArg List.length hwalk
  rw [List.length_append, List.length_cons] at hlen'
  have hfrom : Bag.walk st (st.listNodes.entries.length + 1) n.next = suf := by
    rw [hsuf]
    exact walk_of_length_lt (by rw [← hsuf]; omega) (by omega)
  generalize hbelow : ((thresholds.filter (fun a => decide (a < n.bagUpper))).reverse.filterMap (Bag.get st)).flatMap
    (Bag.iter st) = below at hsplit
  generalize (((List.withMax thresholds).filter (fun a => decide (n.bagUpper < a))).reverse.filterMap
    (Bag.get st)).flatMap (Bag.iter st) = above at hsplit
  refine ⟨above ++ pre, suf ++ below, by rw [hsplit, Bag.iter, hwalk]; simp, ?_⟩
  simp only [List.iterFrom, hx, take_partitionPoint_lt hsorted, hfrom, hbelow]
  rfl

end Iter

/-- On every list that passes `do_try_state`, with strictly increasing thresholds and each node stored under its own id:
`List::iter_from(start)` yields what `List::iter` yields after `start`, in order, and `List::iter` yields the nodes by
non-increasing `bag_upper`. -/
theorem iter_from_suffix [OrderTop S] {thresholds : List S} (hsorted : thresholds.Pairwise (· < ·))
    {st : Storage A S} (hkeyed : st.Keyed) (hinv : List.doTryState thresholds st = .ok ()) :
    (∀ x nx, Node.get st x = some nx →
      ∃ pre rest, List.iter thresholds st = pre ++ nx :: rest ∧ List.iterFrom thresholds st x = .ok rest) ∧
    (List.iter thresholds st).Pairwise (fun a c => c.bagUpper ≤ a.bagUpper) :=
  ⟨fun _ _ hx => iterFrom_eq hsorted hkeyed hinv hx, iter_pairwise_bagUpper hsorted hinv⟩

/-- Two ids, of scores 5 and 20, inserted with no thresholds: both in the bag of `Score::MAX`, 1 at its head. -/
def twoInTop : Storage ℕ VoteWeight :=
  (execute [] (fun _ => none) Storage.empty [.insert 1 5, .insert 2 20]).getD Storage.empty

theorem iter_from_suffix_twoInTop :
    ([] : List VoteWeight).Pairwise (· < ·) ∧ twoInTop.Keyed ∧ List.doTryState [] twoInTop = .ok () ∧
    (∀ x nx, Node.get twoInTop x = some nx →
      ∃ pre rest, List.iter [] twoInTop = pre ++ nx :: rest ∧ List.iterFrom [] twoInTop x = .ok rest) ∧
    (List.iter [] twoInTop).Pairwise (fun a c => c.bagUpper ≤ a.bagUpper) := by
  have hsorted : ([] : List VoteWeight).Pairwise (· < ·) := List.Pairwise.nil
  have hkeyed : twoInTop.Keyed := Storage.keyed_of_entries (by decide)
  have hinv : List.doTryState [] twoInTop = .ok () := by decide
  exact ⟨hsorted, hkeyed, hinv, iter_from_suffix hsorted hkeyed hinv⟩

end CoreChain.Bags

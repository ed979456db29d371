import CoreChain.Lib.Vec
import Mathlib

/-!
# The bags list

The model of `substrate/frame/bags-list/src/list/mod.rs`. The ids are kept in bags, one for each threshold of
`BagThresholds` and one for `Score::MAX`; a bag is a doubly linked list whose nodes are stored one by one in
`ListNodes` (a counted map) under their ids, with the bag's head and tail in `ListBags` under its upper bound.

Every operation is a function of the storage, written as the source reads and writes it, one `get` or `put` at
a time, so that a read sees every write before it. The order of iteration of the source's `BTreeSet` and
`BTreeMap` is their key order; here they are sorted lists.
-/

namespace CoreChain.Bags

/-- `ListError`. -/
inductive ListError where
  | duplicate
  | notHeavier
  | notInSameBag
  | nodeNotFound
  | locked
  deriving DecidableEq, Repr

/-- `Node`. -/
structure Node (A S : Type) where
  id : A
  prev : Option A
  next : Option A
  bagUpper : S
  score : S
  deriving DecidableEq, Repr

/-- `Bag`: its head and tail are stored, its upper bound is the key it is stored under. -/
structure Bag (A S : Type) where
  head : Option A
  tail : Option A
  bagUpper : S
  deriving DecidableEq, Repr

/-- The storage of the list: `ListNodes` with its counter, and `ListBags`. -/
structure Storage (A S : Type) [DecidableEq A] [DecidableEq S] where
  listNodes : AList (fun _ : A => Node A S)
  counterForListNodes : Nat
  listBags : AList (fun _ : S => Option A × Option A)

variable {A S : Type} [DecidableEq A] [LinearOrder S] [OrderTop S]

namespace Storage

/-- The storage before anything is inserted. -/
def empty : Storage A S := ⟨∅, 0, ∅⟩

/-- `ListNodes::insert` of a counted map: the counter grows when the key is new. -/
def insertNode (st : Storage A S) (id : A) (node : Node A S) : Storage A S :=
  { st with
    listNodes := st.listNodes.insert id node
    counterForListNodes := if (st.listNodes.lookup id).isSome then st.counterForListNodes
      else st.counterForListNodes + 1 }

/-- `ListNodes::remove` of a counted map: the counter shrinks when the key was there. -/
def removeNode (st : Storage A S) (id : A) : Storage A S :=
  { st with
    listNodes := st.listNodes.erase id
    counterForListNodes := if (st.listNodes.lookup id).isSome then st.counterForListNodes - 1
      else st.counterForListNodes }

end Storage

/-! ## Nodes -/

namespace Node

/-- `Node::get`. -/
def get (st : Storage A S) (id : A) : Option (Node A S) :=
  st.listNodes.lookup id

/-- `Node::put`. -/
def put (st : Storage A S) (node : Node A S) : Storage A S :=
  st.insertNode node.id node

/-- `Node::prev`. -/
def prevNode (node : Node A S) (st : Storage A S) : Option (Node A S) :=
  node.prev.bind (get st)

/-- `Node::next`. -/
def nextNode (node : Node A S) (st : Storage A S) : Option (Node A S) :=
  node.next.bind (get st)

/-- `Node::excise`: the neighbours of the node point to each other; the node itself is not written. -/
def excise (st : Storage A S) (node : Node A S) : Storage A S :=
  let st := match node.prevNode st with
    | some prev => put st { prev with next := node.next }
    | none => st
  match node.nextNode st with
  | some next => put st { next with prev := node.prev }
  | none => st

/-- `Node::remove_from_storage_unchecked`. -/
def removeFromStorageUnchecked (st : Storage A S) (node : Node A S) : Storage A S :=
  st.removeNode node.id

/-- `Node::is_terminal`. -/
def isTerminal (node : Node A S) : Bool :=
  node.prev.isNone || node.next.isNone

end Node

/-- `notional_bag_for`: the first threshold at least the score, or `Score::MAX` past them all. -/
def notionalBagFor (thresholds : List S) (score : S) : S :=
  (thresholds[partitionPoint thresholds (fun threshold => decide (score > threshold))]?).getD ⊤

/-- `Node::is_misplaced`. -/
def Node.isMisplaced (thresholds : List S) (node : Node A S) (currentScore : S) : Bool :=
  notionalBagFor thresholds currentScore != node.bagUpper

/-! ## Bags -/

namespace Bag

/-- `Bag::get`. -/
def get (st : Storage A S) (bagUpper : S) : Option (Bag A S) :=
  (st.listBags.lookup bagUpper).map fun ht => ⟨ht.1, ht.2, bagUpper⟩

/-- `Bag::get_or_make`. -/
def getOrMake (st : Storage A S) (bagUpper : S) : Bag A S :=
  (get st bagUpper).getD ⟨none, none, bagUpper⟩

/-- `Bag::is_empty`. -/
def isEmpty (bag : Bag A S) : Bool :=
  bag.head.isNone && bag.tail.isNone

/-- `Bag::put`: an empty bag is removed. -/
def put (st : Storage A S) (bag : Bag A S) : Storage A S :=
  if bag.isEmpty then { st with listBags := st.listBags.erase bag.bagUpper }
  else { st with listBags := st.listBags.insert bag.bagUpper (bag.head, bag.tail) }

/-- The nodes from the head, following `next`, for at most `fuel` steps. The source follows the links without a
bound; a walk longer than the number of stored nodes repeats a node, and there the source never ends. -/
def walk (st : Storage A S) : Nat → Option A → List (Node A S)
  | 0, _ => []
  | _ + 1, none => []
  | fuel + 1, some id =>
    match Node.get st id with
    | none => []
    | some node => node :: walk st fuel node.next

/-- `Bag::iter`: one step more than there are nodes, so that a walk that loops shows a node twice. -/
def iter (st : Storage A S) (bag : Bag A S) : List (Node A S) :=
  walk st (st.listNodes.entries.length + 1) bag.head

/-- `Bag::insert_node_unchecked`: the node becomes the tail. -/
def insertNodeUnchecked (st : Storage A S) (bag : Bag A S) (node : Node A S) : Storage A S × Bag A S :=
  if bag.tail = some node.id then
    -- `defensive!("system logic error: inserting a node who has the id of tail")`
    (st, bag)
  else
    let id := node.id
    let node := { node with bagUpper := bag.bagUpper, prev := bag.tail, next := none }
    let st := Node.put st node
    let st := match bag.tail.bind (Node.get st) with
      | some oldTail => Node.put st { oldTail with next := some id }
      | none => st
    let bag := { bag with tail := some id }
    let bag := if bag.head.isNone then { bag with head := some id } else bag
    (st, bag)

/-- `Bag::insert_unchecked`. -/
def insertUnchecked [Zero S] (st : Storage A S) (bag : Bag A S) (id : A) (score : S) : Storage A S × Bag A S :=
  insertNodeUnchecked st bag ⟨id, none, none, 0, score⟩

/-- `Bag::remove_node_unchecked`. -/
def removeNodeUnchecked (st : Storage A S) (bag : Bag A S) (node : Node A S) : Storage A S × Bag A S :=
  let st := Node.excise st node
  let bag := if bag.tail = some node.id then { bag with tail := node.prev } else bag
  let bag := if bag.head = some node.id then { bag with head := node.next } else bag
  (st, bag)

end Bag

/-! ## The list -/

namespace List

variable (thresholds : List S)

/-- `List::contains`. -/
def contains (st : Storage A S) (id : A) : Bool :=
  (st.listNodes.lookup id).isSome

/-- `List::insert`. -/
def insert [Zero S] (st : Storage A S) (id : A) (score : S) : Except ListError (Storage A S) :=
  if contains st id then .error .duplicate
  else
    let bagScore := notionalBagFor thresholds score
    let bag := Bag.getOrMake st bagScore
    let (st, bag) := Bag.insertUnchecked st bag id score
    .ok (Bag.put st bag)

/-- `List::insert_many`: the number of ids inserted. -/
def insertMany [Zero S] (st : Storage A S) (ids : List A) (scoreOf : A → Option S) : Storage A S × Nat :=
  ids.foldl (fun (acc : Storage A S × Nat) v =>
    match scoreOf v with
    | some score =>
      match insert thresholds acc.1 v score with
      | .ok st => (st, acc.2 + 1)
      | .error _ => acc
    | none => acc) (st, 0)

/-- The loop of `List::remove_many` over the ids: the bags it touched are kept, by their upper bound, until the
end. -/
def removeManyLoop (st : Storage A S) (bags : List (S × Bag A S)) (count : Nat) :
    List A → Storage A S × List (S × Bag A S) × Nat
  | [] => (st, bags, count)
  | id :: ids =>
    match Node.get st id with
    | none => removeManyLoop st bags count ids
    | some node =>
      let count := count + 1
      let (st, bags) :=
        if !node.isTerminal then (Node.excise st node, bags)
        else
          -- `bags.entry(node.bag_upper).or_insert_with(|| Bag::get_or_make(node.bag_upper))`
          let bag := (((bags.find? (·.1 == node.bagUpper)).map (·.2)).getD (Bag.getOrMake st node.bagUpper))
          let (st, bag) := Bag.removeNodeUnchecked st bag node
          -- the map is kept in key order
          (st, (bags.filter (·.1 != node.bagUpper)).orderedInsert (fun a b => a.1 ≤ b.1) (node.bagUpper, bag))
      removeManyLoop (Node.removeFromStorageUnchecked st node) bags count ids

/-- `List::remove_many`: the number of ids removed. -/
def removeMany (st : Storage A S) (ids : List A) : Storage A S × Nat :=
  let (st, bags, count) := removeManyLoop st [] 0 ids
  -- each bag is put once, in key order
  (bags.foldl (fun st b => Bag.put st b.2) st, count)

/-- `List::remove`. -/
def remove (st : Storage A S) (id : A) : Except ListError (Storage A S) :=
  if !contains st id then .error .nodeNotFound
  else .ok (removeMany st [id]).1

/-- `List::update_position_for`. -/
def updatePositionFor (st : Storage A S) (node : Node A S) (newScore : S) : Storage A S × Option (S × S) :=
  let node := { node with score := newScore }
  if node.isMisplaced thresholds newScore then
    let oldBagUpper := node.bagUpper
    let st :=
      if !node.isTerminal then Node.excise st node
      else match Bag.get st node.bagUpper with
        | some bag =>
          let (st, bag) := Bag.removeNodeUnchecked st bag node
          Bag.put st bag
        -- `defensive!("Node did not have a bag; BagsList is in an inconsistent state")`
        | none => st
    let newBagUpper := notionalBagFor thresholds newScore
    let bag := Bag.getOrMake st newBagUpper
    let (st, bag) := Bag.insertNodeUnchecked st bag node
    (Bag.put st bag, some (oldBagUpper, newBagUpper))
  else (Node.put st node, none)

/-- `List::insert_at_unchecked`, with `atNode` the source's `at`: `none` where the source panics, at a bag that is
not stored. -/
def insertAtUnchecked (st : Storage A S) (atNode : Node A S) (node : Node A S) : Option (Storage A S) := do
  let node := { node with prev := atNode.prev }
  let st := match atNode.prevNode st with
    | some prev => Node.put st { prev with next := some node.id }
    | none => st
  let node := { node with next := some atNode.id }
  let atNode := { atNode with prev := some node.id }
  let st ← if node.isTerminal then do
      -- `.expect("given nodes must always have a valid bag. qed.")`
      let bag ← Bag.get st atNode.bagUpper
      let bag := if node.prev = none then { bag with head := some node.id } else bag
      pure (Bag.put st bag)
    else pure st
  pure (Node.put (Node.put st atNode) node)

/-- The order of `Option<Score>`: `None` is below every score. -/
def optionLt : Option S → Option S → Bool
  | none, some _ => true
  | some a, some b => decide (a < b)
  | _, none => false

/-- `List::put_in_front_of`, with `score` the `ScoreProvider`; `none` where the source panics. -/
def putInFrontOf (score : A → Option S) (st : Storage A S) (lighterId heavierId : A) :
    Option (Except ListError (Storage A S)) :=
  match Node.get st lighterId, Node.get st heavierId with
  | none, _ => some (.error .nodeNotFound)
  | _, none => some (.error .nodeNotFound)
  | some lighterNode, some heavierNode =>
    if lighterNode.bagUpper ≠ heavierNode.bagUpper then some (.error .notInSameBag)
    else if !optionLt (score lighterId) (score heavierId) then some (.error .notHeavier)
    else
      -- `let _ = Self::remove(&heavier_id).defensive_proof(..)`
      let st := match remove st heavierId with
        | .ok st => st
        | .error _ => st
      match Node.get st lighterId with
      | none => some (.error .nodeNotFound)
      | some lighterNode => (insertAtUnchecked st lighterNode heavierNode).map .ok

/-- `List::unsafe_clear`. -/
def unsafeClear (_st : Storage A S) : Storage A S :=
  Storage.empty

/-- `List::unsafe_regenerate`. -/
def unsafeRegenerate [Zero S] (st : Storage A S) (all : List A) (scoreOf : A → Option S) : Storage A S × Nat :=
  insertMany thresholds (unsafeClear st) all scoreOf

/-- The bounds of the bags: `Score::MAX` is added when the thresholds omit it. -/
def withMax : List S :=
  if thresholds.getLast? = some ⊤ then thresholds else thresholds ++ [⊤]

/-- The bounds `List::iter` walks, from the greatest. -/
def iterThresholds : List S :=
  (withMax thresholds).reverse

/-- `List::iter`. -/
def iter (st : Storage A S) : List (Node A S) :=
  (iterThresholds thresholds).filterMap (Bag.get st) |>.flatMap (Bag.iter st)

/-- A `BTreeSet` with one more element, in key order. -/
def setInsert {α : Type} [LinearOrder α] (set : List α) (a : α) : List α :=
  if a ∈ set then set else set.orderedInsert (· ≤ ·) a

/-- A step of both loops of `List::migrate`: the ids of a bag join the affected accounts, the first time the bag is
affected. -/
def affectBag [LinearOrder A] (st : Storage A S) (acc : List A × List S) (affectedBag : S) : List A × List S :=
  if affectedBag ∈ acc.2 then acc
  else
    let accounts := match Bag.get st affectedBag with
      | some bag => (Bag.iter st bag).foldl (fun set node => setInsert set node.id) acc.1
      | none => acc.1
    (accounts, setInsert acc.2 affectedBag)

/-- `List::migrate` from `oldThresholds` to `thresholds`, with `score` the `ScoreProvider`. -/
def migrate [LinearOrder A] [Zero S] (score : A → Option S) (st : Storage A S) (oldThresholds : List S) :
    Storage A S × Nat :=
  if thresholds = oldThresholds then (st, 0)
  else
    let oldSet := oldThresholds.foldl setInsert []
    let newSet := thresholds.foldl setInsert []
    -- a new bag takes the ids of the old bag its threshold fell in, `notional_bag_for` at the old thresholds
    let affected := (newSet.filter (· ∉ oldSet)).foldl
      (fun acc insertedBag => affectBag st acc (notionalBagFor oldThresholds insertedBag)) ([], [])
    -- a removed bag gives up all its ids
    let removedBags := oldSet.filter (· ∉ newSet)
    let affectedAccounts := (removedBags.foldl (affectBag st) affected).1
    let st := (removeMany st affectedAccounts).1
    let st := (insertMany thresholds st affectedAccounts score).1
    -- the removed bags go last, whatever ids they hold
    (removedBags.foldl (fun st removedBag => { st with listBags := st.listBags.erase removedBag }) st,
      affectedAccounts.length)

end List

/-- `Pallet::do_rebag`, without its events. -/
def doRebag (thresholds : List S) (st : Storage A S) (account : A) (newScore : S) :
    Except ListError (Storage A S × Option (S × S)) :=
  match Node.get st account with
  | none => .error .nodeNotFound
  | some node => .ok (List.updatePositionFor thresholds st node newScore)

/-! ## The checks of `do_try_state`

The source's own statement of the invariant of the list, run in its tests: every check with its message. -/

/-- `Bag::do_try_state`. -/
def Bag.doTryState (st : Storage A S) (bag : Bag A S) : Except String Unit := do
  -- a bag without a head has no tail, and one without a tail has no head
  unless ((bag.head.bind (Node.get st)).map (·.prev.isNone)).getD bag.tail.isNone do
    throw "head has a prev"
  unless ((bag.tail.bind (Node.get st)).map (·.next.isNone)).getD bag.head.isNone do
    throw "tail has a next"
  unless ((Bag.iter st bag).map Node.id).Nodup do
    throw "duplicate found in bag"

/-- `Node::do_try_state`. -/
def Node.doTryState (st : Storage A S) (node : Node A S) : Except String Unit := do
  let some expectedBag := Bag.get st node.bagUpper | throw "bag not found for node"
  let nonTerminalCheck :=
    !node.isTerminal && expectedBag.head != some node.id && expectedBag.tail != some node.id
  let terminalCheck := expectedBag.head == some node.id || expectedBag.tail == some node.id
  unless nonTerminalCheck || terminalCheck do
    throw "a terminal node is neither its bag head or tail"

/-- `List::do_try_state`. The nodes are checked in the order of the map, where the source has the order of the
hashed keys. -/
def List.doTryState (thresholds : List S) (st : Storage A S) : Except String Unit := do
  unless ((List.iter thresholds st).map Node.id).Nodup do
    throw "duplicate identified"
  let iterCount := (List.iter thresholds st).length
  let storedCount := st.counterForListNodes
  let nodesCount := st.listNodes.entries.length
  unless iterCount = storedCount do
    throw "iter_count != stored_count"
  unless storedCount = nodesCount do
    throw "stored_count != nodes_count"
  let activeBags := (List.withMax thresholds).filterMap (Bag.get st)
  let bagsMap := activeBags.map fun b => (b.bagUpper, (Bag.iter st b).map Node.id)
  activeBags.forM (Bag.doTryState st)
  let nodesInBagsCount := activeBags.foldl (fun acc cur => acc + (Bag.iter st cur).length) 0
  unless nodesCount = nodesInBagsCount do
    throw "stored_count != nodes_in_bags_count"
  st.listNodes.entries.forM fun entry => do
    let some expectedBag := (bagsMap.find? (·.1 == entry.2.bagUpper)).map (·.2)
      | throw "bag not found for the node in active bags"
    unless entry.2.id ∈ expectedBag do
      throw "node not found in the bag"
    Node.doTryState st entry.2

/-! ## Runs

The calls that change the list, one after another from a storage: a call that fails leaves the storage as it was,
and a call that panics ends the run. -/

/-- A call into the list, with the score of the calls that read the `ScoreProvider` left to the run. -/
inductive Call (A S : Type) where
  | insert (id : A) (score : S)
  | remove (id : A)
  | rebag (id : A) (newScore : S)
  | putInFrontOf (lighter heavier : A)
  | migrate (oldThresholds : List S)
  | regenerate (all : List A)
  deriving DecidableEq, Repr

variable [LinearOrder A] [Zero S] (thresholds : List S) (score : A → Option S)

/-- One call: `none` where the source panics. -/
def Call.apply (st : Storage A S) : Call A S → Option (Except ListError (Storage A S))
  | .insert id s => some (List.insert thresholds st id s)
  | .remove id => some (List.remove st id)
  | .rebag id newScore => some ((doRebag thresholds st id newScore).map (·.1))
  | .putInFrontOf lighter heavier => List.putInFrontOf score st lighter heavier
  | .migrate oldThresholds => some (.ok (List.migrate thresholds score st oldThresholds).1)
  | .regenerate all => some (.ok (List.unsafeRegenerate thresholds st all score).1)

/-- The calls one after another. -/
def execute : Storage A S → List (Call A S) → Option (Storage A S)
  | st, [] => some st
  | st, call :: calls =>
    match call.apply thresholds score st with
    | none => none
    | some (.error _) => execute st calls
    | some (.ok st) => execute st calls

end CoreChain.Bags

import CoreChain.MessageQueue.Page
import Mathlib

/-!
# The message-queue pallet

The model of `substrate/frame/message-queue/src/lib.rs` over its storage: `BookStateFor` (a value query: the
default book where nothing is stored), `Pages` under an origin and a page index, and `ServiceHead`. The queues with
pages to process are knit into the ready ring by the `ready_neighbours` of their books.

Weight is one number: a weight meter consumes while the consumed weight stays within its limit. The processor of
messages is a parameter: for a message, an origin and a meter it returns the outcome, the meter after it and the
messages it enqueues (`enqueue_messages` calls into this pallet); an error rolls back what it enqueued, as the
transaction around it does in the source.

The loops of servicing end by weight in the source; here they take `fuel`, and a run with enough fuel is the
source's run. The loop over the items of a page takes one step more than the heap has bytes: every item it
executes moves `first` on by a header.
-/

namespace CoreChain.MessageQueue

/-- `Neighbours`. -/
structure Neighbours (O : Type) where
  prev : O
  next : O
  deriving DecidableEq, Repr

/-- `BookState`. -/
structure BookState (O : Type) where
  begin : Nat
  «end» : Nat
  count : Nat
  readyNeighbours : Option (Neighbours O)
  messageCount : Nat
  size : Nat
  deriving DecidableEq, Repr

/-- `BookState::default`. -/
def BookState.default {O : Type} : BookState O :=
  ⟨0, 0, 0, none, 0, 0⟩

/-- `WeightMeter`. -/
structure WeightMeter where
  consumed : Nat
  limit : Nat
  deriving DecidableEq, Repr

namespace WeightMeter

/-- `WeightMeter::with_limit`. -/
def withLimit (limit : Nat) : WeightMeter :=
  ⟨0, limit⟩

/-- `WeightMeter::try_consume`. -/
def tryConsume (meter : WeightMeter) (w : Nat) : Option WeightMeter :=
  if meter.consumed + w ≤ meter.limit then some ⟨meter.consumed + w, meter.limit⟩ else none

end WeightMeter

/-- `Weight::MAX`, in the dimension modelled. -/
def weightMax : Nat := 2 ^ 64 - 1

/-- `checked_sub`. -/
def checkedSub (a b : Nat) : Option Nat :=
  if b ≤ a then some (a - b) else none

/-- The weights of `WeightInfo` that servicing charges and `execute_overweight` reports. -/
structure WeightInfo where
  bumpServiceHead : Nat
  setServiceHead : Nat
  serviceQueueBase : Nat
  servicePageBaseCompletion : Nat
  servicePageBaseNoCompletion : Nat
  servicePageItem : Nat
  readyRingUnknit : Nat
  executeOverweightPageRemoved : Nat
  executeOverweightPageUpdated : Nat
  deriving DecidableEq, Repr

/-- `ProcessMessageError`. -/
inductive ProcessMessageError where
  | badFormat
  | corrupt
  | unsupported
  | overweight (w : Nat)
  | yield
  | stackLimitReached
  deriving DecidableEq, Repr

/-- `ProcessMessage::process_message`, with the messages it enqueues, by origin. -/
structure MessageProcessor (O : Type) where
  processMessage : List UInt8 → O → WeightMeter →
    Except ProcessMessageError Bool × WeightMeter × List (O × List (List UInt8))

/-- The `Config` of the pallet. -/
structure Config (O : Type) where
  heapSize : Nat
  maxStale : Nat
  serviceWeight : Option Nat
  idleMaxServiceWeight : Option Nat
  weightInfo : WeightInfo
  messageProcessor : MessageProcessor O
  /-- `QueuePausedQuery::is_paused`. -/
  isPaused : O → Bool

/-- `Error`. -/
inductive Error where
  | notReapable
  | noPage
  | noMessage
  | alreadyProcessed
  | queued
  | insufficientWeight
  | temporarilyUnprocessable
  | queuePaused
  | recursiveDisallowed
  deriving DecidableEq, Repr

/-- `MessageExecutionStatus`. -/
inductive MessageExecutionStatus where
  | insufficientWeight
  | overweight
  | processed
  | unprocessable (permanent : Bool)
  | stackLimitReached
  deriving DecidableEq, Repr

/-- `ItemExecutionStatus`. -/
inductive ItemExecutionStatus where
  | bailed
  | noProgress
  | noItem
  | executed (isProcessed : Bool)
  deriving DecidableEq, Repr

/-- `PageExecutionStatus`. -/
inductive PageExecutionStatus where
  | bailed
  | noProgress
  | noMore
  deriving DecidableEq, Repr

/-- The storage of the pallet. -/
structure Storage (O : Type) [DecidableEq O] where
  bookStateFor : AList (fun _ : O => BookState O)
  pages : AList (fun _ : O × Nat => Page)
  serviceHead : Option O

variable {O : Type} [DecidableEq O]

namespace Storage

/-- The storage before any message. -/
def empty : Storage O :=
  ⟨∅, ∅, none⟩

/-- `BookStateFor::get`. -/
def getBook (st : Storage O) (origin : O) : BookState O :=
  (st.bookStateFor.lookup origin).getD BookState.default

/-- `BookStateFor::insert`. -/
def putBook (st : Storage O) (origin : O) (bookState : BookState O) : Storage O :=
  { st with bookStateFor := st.bookStateFor.insert origin bookState }

/-- `BookStateFor::mutate`: a value query writes back what it read, the default included. -/
def mutateBook (st : Storage O) (origin : O) (f : BookState O → BookState O) : Storage O :=
  st.putBook origin (f (st.getBook origin))

/-- `Pages::get`. -/
def getPage (st : Storage O) (origin : O) (pageIndex : Nat) : Option Page :=
  st.pages.lookup (origin, pageIndex)

/-- `Pages::insert`. -/
def putPage (st : Storage O) (origin : O) (pageIndex : Nat) (page : Page) : Storage O :=
  { st with pages := st.pages.insert (origin, pageIndex) page }

/-- `Pages::remove`. -/
def removePage (st : Storage O) (origin : O) (pageIndex : Nat) : Storage O :=
  { st with pages := st.pages.erase (origin, pageIndex) }

@[simp] theorem getBook_putBook_self (st : Storage O) (origin : O) (bookState : BookState O) :
    (st.putBook origin bookState).getBook origin = bookState := by
  simp [getBook, putBook, AList.lookup_insert]

@[simp] theorem getPage_removePage_self (st : Storage O) (origin : O) (pageIndex : Nat) :
    (st.removePage origin pageIndex).getPage origin pageIndex = none := by
  simp [getPage, removePage, AList.lookup_erase]

@[simp] theorem getPage_putBook (st : Storage O) (origin origin' : O) (bookState : BookState O) (pageIndex : Nat) :
    (st.putBook origin' bookState).getPage origin pageIndex = st.getPage origin pageIndex := rfl

end Storage

/-! ## The ready ring -/

/-- `ready_ring_knit`: `origin` goes in before the head, and its neighbours come back; `none` where a book of the
ring has no neighbours, after the writes before it. -/
def readyRingKnit (st : Storage O) (origin : O) : Storage O × Option (Neighbours O) :=
  match st.serviceHead with
  | some head =>
    let headBookState := st.getBook head
    match headBookState.readyNeighbours with
    | none => (st, none)
    | some headNeighbours =>
      let tail := headNeighbours.prev
      let st := st.putBook head { headBookState with readyNeighbours := some { headNeighbours with prev := origin } }
      let tailBookState := st.getBook tail
      match tailBookState.readyNeighbours with
      | none => (st, none)
      | some tailNeighbours =>
        let st := st.putBook tail { tailBookState with readyNeighbours := some { tailNeighbours with next := origin } }
        (st, some ⟨tail, head⟩)
  | none => ({ st with serviceHead := some origin }, some ⟨origin, origin⟩)

/-- `ready_ring_unknit`. -/
def readyRingUnknit (st : Storage O) (origin : O) (neighbours : Neighbours O) : Storage O :=
  if origin = neighbours.next then
    -- the only queue of the ring
    { st with serviceHead := none }
  else
    let st := st.mutateBook neighbours.next fun b =>
      { b with readyNeighbours := b.readyNeighbours.map fun n => { n with prev := neighbours.prev } }
    let st := st.mutateBook neighbours.prev fun b =>
      { b with readyNeighbours := b.readyNeighbours.map fun n => { n with next := neighbours.next } }
    match st.serviceHead with
    | some head => if head = origin then { st with serviceHead := some neighbours.next } else st
    -- `defensive!("`ServiceHead` must be some if there was a ready queue")`
    | none => st

section Pallet

variable (cfg : Config O)

/-- `bump_service_head`: the head before the bump. -/
def bumpServiceHead (st : Storage O) (weight : WeightMeter) : Storage O × WeightMeter × Option O :=
  match weight.tryConsume cfg.weightInfo.bumpServiceHead with
  | none => (st, weight, none)
  | some weight =>
    match st.serviceHead with
    | some head =>
      match (st.getBook head).readyNeighbours with
      | some headNeighbours => ({ st with serviceHead := some headNeighbours.next }, weight, some head)
      -- `defensive!("The head must point to a queue in the ready ring")`
      | none => (st, weight, none)
    | none => (st, weight, none)

/-- `set_service_head`: `none` for the source's `Err(())`. -/
def setServiceHead (st : Storage O) (weight : WeightMeter) (queue : O) : Storage O × WeightMeter × Option Bool :=
  match weight.tryConsume cfg.weightInfo.setServiceHead with
  | none => (st, weight, none)
  | some weight =>
    -- never a head that is not ready
    if (st.getBook queue).readyNeighbours.isSome then ({ st with serviceHead := some queue }, weight, some true)
    else (st, weight, some false)

/-- `ForceSetHead::force_set_head`. -/
def forceSetHead (st : Storage O) (weight : WeightMeter) (origin : O) : Storage O × WeightMeter × Option Bool :=
  setServiceHead cfg st weight origin

/-- `single_msg_overhead`. -/
def singleMsgOverhead : Nat :=
  cfg.weightInfo.bumpServiceHead + cfg.weightInfo.serviceQueueBase +
    max cfg.weightInfo.servicePageBaseCompletion cfg.weightInfo.servicePageBaseNoCompletion +
    cfg.weightInfo.servicePageItem + cfg.weightInfo.readyRingUnknit

/-- `max_message_weight`. -/
def maxMessageWeight (limit : Nat) : Option Nat :=
  let serviceWeight := cfg.serviceWeight.getD 0
  let onIdleWeight := cfg.idleMaxServiceWeight.getD 0
  let maxMessageWeight := if serviceWeight > onIdleWeight then serviceWeight else onIdleWeight
  if maxMessageWeight = 0 then checkedSub limit (singleMsgOverhead cfg)
  else checkedSub maxMessageWeight (singleMsgOverhead cfg)

/-! ## Enqueueing -/

/-- One message of `do_enqueue_messages`: onto the page in progress if it fits, or onto a new page. The page in
progress is stored when the message does not fit on it. -/
def enqueueStep (origin : O) (acc : Storage O × BookState O × Option Page) (message : List UInt8) :
    Storage O × BookState O × Option Page :=
  let st := acc.1
  let bookState := acc.2.1
  let appended : Storage O × Option Page := match acc.2.2 with
    | some page =>
      match page.tryAppendMessage cfg.heapSize message with
      | some page => (st, some page)
      | none => (st.putPage origin (bookState.end - 1) page, none)
    | none => (st, none)
  let opened : BookState O × Page := match appended.2 with
    | some page => (bookState, page)
    | none => ({ bookState with «end» := bookState.end + 1, count := bookState.count + 1 }, Page.fromMessage message)
  (appended.1,
    { opened.1 with messageCount := opened.1.messageCount + 1, size := opened.1.size + message.length },
    some opened.2)

/-- `do_enqueue_messages`. -/
def doEnqueueMessages (st : Storage O) (origin : O) (messages : List (List UInt8)) : Storage O :=
  let bookState := st.getBook origin
  -- the page in progress
  let maybePage := if bookState.end > bookState.begin then st.getPage origin (bookState.end - 1) else none
  let r := messages.foldl (enqueueStep cfg origin) (st, bookState, maybePage)
  let bookState := r.2.1
  let st := match r.2.2 with
    | some page => r.1.putPage origin (bookState.end - 1) page
    | none => r.1
  let knit : Storage O × BookState O :=
    if bookState.readyNeighbours.isNone then
      match readyRingKnit st origin with
      | (st, some neighbours) => (st, { bookState with readyNeighbours := some neighbours })
      -- `defensive!("Ring state invalid when knitting")`
      | (st, none) => (st, bookState)
    else (st, bookState)
  knit.1.putBook origin knit.2

/-- `EnqueueMessage::enqueue_messages`. -/
def enqueueMessages (st : Storage O) (messages : List (List UInt8)) (origin : O) : Storage O :=
  doEnqueueMessages cfg st origin messages

/-! ## Servicing -/

/-- `process_message_payload`. -/
def processMessagePayload (st : Storage O) (origin : O) (message : List UInt8) (meter : WeightMeter)
    (overweightLimit : Nat) : MessageExecutionStatus × Storage O × WeightMeter :=
  let r := cfg.messageProcessor.processMessage message origin meter
  match r.1 with
  | .ok _ => (.processed, r.2.2.foldl (fun st e => doEnqueueMessages cfg st e.1 e.2) st, r.2.1)
  | .error (.overweight w) =>
    if w > overweightLimit then (.overweight, st, r.2.1)
    -- temporarily overweight
    else (.insufficientWeight, st, r.2.1)
  | .error .yield => (.unprocessable false, st, r.2.1)
  | .error .badFormat => (.unprocessable true, st, r.2.1)
  | .error .corrupt => (.unprocessable true, st, r.2.1)
  | .error .unsupported => (.unprocessable true, st, r.2.1)
  | .error .stackLimitReached => (.stackLimitReached, st, r.2.1)

/-- `service_page_item`. The page and the book are stored before the message runs and read back after it, so that
what the message enqueued is seen. -/
def servicePageItem (origin : O) (pageIndex : Nat) (bookState : BookState O) (page : Page) (st : Storage O)
    (weight : WeightMeter) (overweightLimit : Nat) :
    ItemExecutionStatus × BookState O × Page × Storage O × WeightMeter :=
  if page.isComplete then (.noItem, bookState, page, st, weight)
  else match weight.tryConsume cfg.weightInfo.servicePageItem with
  | none => (.bailed, bookState, page, st, weight)
  | some weight =>
    match page.peekFirst with
    | none => (.noItem, bookState, page, st, weight)
    | some payload =>
      let st := (st.putPage origin pageIndex page).putBook origin bookState
      let r := processMessagePayload cfg st origin payload weight overweightLimit
      let st := r.2.1
      let weight := r.2.2
      let bookState := st.getBook origin
      match st.getPage origin pageIndex with
      -- `defensive!("page must exist since we just inserted it ...")`
      | none => (.noItem, bookState, page, st, weight)
      | some page =>
        match r.1 with
        | .insufficientWeight => (.bailed, bookState, page, st, weight)
        | .unprocessable false => (.noProgress, bookState, page, st, weight)
        | .overweight => (.executed false, bookState, page.skipFirst false, st, weight)
        | _ =>
          let bookState :=
            { bookState with messageCount := bookState.messageCount - 1, size := bookState.size - payload.length }
          (.executed true, bookState, page.skipFirst true, st, weight)

/-- The loop of `service_page` over the items of the page, with the number of messages processed. -/
def servicePageLoop (origin : O) (pageIndex : Nat) (overweightLimit : Nat) :
    Nat → Nat → BookState O → Page → Storage O → WeightMeter →
      PageExecutionStatus × Nat × BookState O × Page × Storage O × WeightMeter
  | 0, total, bookState, page, st, weight => (.noMore, total, bookState, page, st, weight)
  | fuel + 1, total, bookState, page, st, weight =>
    let r := servicePageItem cfg origin pageIndex bookState page st weight overweightLimit
    match r.1 with
    | .bailed => (.bailed, total, r.2)
    | .noItem => (.noMore, total, r.2)
    | .noProgress => (.noProgress, total, r.2)
    | .executed true => servicePageLoop origin pageIndex overweightLimit fuel (total + 1) r.2.1 r.2.2.1 r.2.2.2.1 r.2.2.2.2
    | .executed false => servicePageLoop origin pageIndex overweightLimit fuel total r.2.1 r.2.2.1 r.2.2.2.1 r.2.2.2.2

/-- `service_page`: a completed page is removed. -/
def servicePage (origin : O) (bookState : BookState O) (st : Storage O) (weight : WeightMeter)
    (overweightLimit : Nat) : Nat × PageExecutionStatus × BookState O × Storage O × WeightMeter :=
  match weight.tryConsume (max cfg.weightInfo.servicePageBaseCompletion cfg.weightInfo.servicePageBaseNoCompletion) with
  | none => (0, .bailed, bookState, st, weight)
  | some weight =>
    let pageIndex := bookState.begin
    match st.getPage origin pageIndex with
    -- `defensive!("message-queue: referenced page not found")`
    | none => (0, .noMore, bookState, st, weight)
    | some page =>
      let r := servicePageLoop cfg origin pageIndex overweightLimit (cfg.heapSize + 1) 0 bookState page st weight
      let bookState := r.2.2.1
      let page := r.2.2.2.1
      let st := r.2.2.2.2.1
      if page.isComplete then
        (r.2.1, r.1, { bookState with count := bookState.count - 1 }, st.removePage origin pageIndex, r.2.2.2.2.2)
      else (r.2.1, r.1, bookState, st.putPage origin pageIndex page, r.2.2.2.2.2)

/-- The loop of `service_queue` over the ready pages: a page it ends goes past `begin`. -/
def serviceQueueLoop (origin : O) (overweightLimit : Nat) :
    Nat → Nat → BookState O → Storage O → WeightMeter → Nat × BookState O × Storage O × WeightMeter
  | 0, total, bookState, st, weight => (total, bookState, st, weight)
  | fuel + 1, total, bookState, st, weight =>
    if bookState.end > bookState.begin then
      let r := servicePage cfg origin bookState st weight overweightLimit
      match r.2.1 with
      | .bailed => (total + r.1, r.2.2)
      | .noProgress => (total + r.1, r.2.2)
      | .noMore =>
        serviceQueueLoop origin overweightLimit fuel (total + r.1)
          { r.2.2.1 with begin := r.2.2.1.begin + 1 } r.2.2.2.1 r.2.2.2.2
    else (total, bookState, st, weight)

/-- `service_queue`: whether it processed a message, and the next queue of the ring. A queue with no ready page
left is unknit. -/
def serviceQueue (fuel : Nat) (origin : O) (st : Storage O) (weight : WeightMeter) (overweightLimit : Nat) :
    Bool × Option O × Storage O × WeightMeter :=
  match weight.tryConsume (cfg.weightInfo.serviceQueueBase + cfg.weightInfo.readyRingUnknit) with
  | none => (false, none, st, weight)
  | some weight =>
    let bookState := st.getBook origin
    if cfg.isPaused origin then (false, bookState.readyNeighbours.map (·.next), st, weight)
    else
      let r := serviceQueueLoop cfg origin overweightLimit fuel 0 bookState st weight
      let bookState := r.2.1
      let nextReady := bookState.readyNeighbours.map (·.next)
      let unknit : Storage O × BookState O :=
        if bookState.begin ≥ bookState.end then
          match bookState.readyNeighbours with
          | some neighbours => (readyRingUnknit r.2.2.1 origin neighbours, { bookState with readyNeighbours := none })
          | none => (r.2.2.1, bookState)
        else (r.2.2.1, bookState)
      (decide (r.1 > 0), nextReady, unknit.1.putBook origin unknit.2, r.2.2.2)

/-- The loop of `service_queues_impl` around the ring: it stops where it meets again the first queue of a round in
which no queue made progress. -/
def serviceQueuesLoop (overweightLimit : Nat) (fuel : Nat) :
    Nat → O → Option O → Storage O → WeightMeter → Storage O × WeightMeter
  | 0, _, _, st, weight => (st, weight)
  | rounds + 1, next, lastNoProgress, st, weight =>
    let r := serviceQueue cfg fuel next st weight overweightLimit
    match r.2.1 with
    | none => r.2.2
    | some n =>
      if !r.1 then
        if lastNoProgress = some n then r.2.2
        else
          serviceQueuesLoop overweightLimit fuel rounds n (if lastNoProgress.isNone then some next else lastNoProgress)
            r.2.2.1 r.2.2.2
      else serviceQueuesLoop overweightLimit fuel rounds n none r.2.2.1 r.2.2.2

/-- `ServiceQueues::service_queues`: the storage after it and the weight it consumed. -/
def serviceQueues (fuel : Nat) (weightLimit : Nat) (st : Storage O) : Storage O × Nat :=
  let weight := WeightMeter.withLimit weightLimit
  -- the most a single message may take; zero where not even one message fits
  let overweightLimit := (maxMessageWeight cfg weightLimit).getD 0
  let r := bumpServiceHead cfg st weight
  match r.2.2 with
  | none => (r.1, r.2.1.consumed)
  | some next =>
    let s := serviceQueuesLoop cfg overweightLimit fuel fuel next none r.1 r.2.1
    (s.1, s.2.consumed)

/-! ## Overweight messages, reaping and sweeping -/

/-- `do_execute_overweight_inner`: the storage after it and the weight it used. -/
def doExecuteOverweightInner (st : Storage O) (origin : O) (pageIndex index weightLimit : Nat) :
    Except Error (Storage O × Nat) :=
  let bookState := st.getBook origin
  if cfg.isPaused origin then .error .queuePaused
  else match st.getPage origin pageIndex with
  | none => .error .noPage
  | some page =>
    match page.peekIndex index with
    | none => .error .noMessage
    | some (pos, isProcessed, payload) =>
      if ¬(pageIndex < bookState.begin ∨ (pageIndex = bookState.begin ∧ pos < page.first)) then .error .queued
      else if isProcessed then .error .alreadyProcessed
      else
        -- never permanently overweight here
        let r := processMessagePayload cfg st origin payload (WeightMeter.withLimit weightLimit) weightMax
        match r.1 with
        | .overweight => .error .insufficientWeight
        | .insufficientWeight => .error .insufficientWeight
        | .stackLimitReached => .error .temporarilyUnprocessable
        | .unprocessable false => .error .temporarilyUnprocessable
        | _ =>
          let page := page.noteProcessedAtPos pos
          let bookState :=
            { bookState with messageCount := bookState.messageCount - 1, size := bookState.size - payload.length }
          if page.remaining = 0 then
            .ok (((r.2.1.removePage origin pageIndex).putBook origin { bookState with count := bookState.count - 1 }),
              r.2.2.consumed + cfg.weightInfo.executeOverweightPageRemoved)
          else
            .ok ((r.2.1.putPage origin pageIndex page).putBook origin bookState,
              r.2.2.consumed + cfg.weightInfo.executeOverweightPageUpdated)

/-- The `cullable` closure of `do_reap_page_inner`: a page below the watermark, once there are too many stale
pages. -/
def cullable (bookState : BookState O) (pageIndex : Nat) : Bool :=
  let totalPages := bookState.count
  let readyPages := min (bookState.end - bookState.begin) totalPages
  -- pages with unprocessed overweight messages
  let stalePages := totalPages - readyPages
  let maxStale := cfg.maxStale
  match checkedSub stalePages (maxStale + 1) with
  | none => false
  | some x =>
    let overflow := x + 1
    let backlog := max (maxStale * maxStale / overflow) maxStale
    let watermark := bookState.begin - backlog
    decide (pageIndex < watermark)

/-- `do_reap_page_inner`. -/
def doReapPageInner (st : Storage O) (origin : O) (pageIndex : Nat) : Except Error (Storage O) :=
  let bookState := st.getBook origin
  if ¬pageIndex < bookState.begin then .error .notReapable
  else match st.getPage origin pageIndex with
  | none => .error .noPage
  | some page =>
    if ¬(page.remaining = 0 ∨ cullable cfg bookState pageIndex = true) then .error .notReapable
    else
      .ok ((st.removePage origin pageIndex).putBook origin
        { bookState with
          count := bookState.count - 1
          messageCount := bookState.messageCount - page.remaining
          size := bookState.size - page.remainingSize })

/-- `EnqueueMessage::sweep_queue`: the queue's pages stay, none is ready. -/
def sweepQueue (st : Storage O) (origin : O) : Storage O :=
  if (st.bookStateFor.lookup origin).isNone then st
  else
    let bookState := st.getBook origin
    let bookState := { bookState with begin := bookState.end }
    match bookState.readyNeighbours with
    | some neighbours => (readyRingUnknit st origin neighbours).putBook origin { bookState with readyNeighbours := none }
    | none => st.putBook origin bookState

/-! ## The checks of `do_try_state`

The source's own statement of the invariant of the pallet, run in its tests. It panics on a ready page that is not
stored, and it walks the ring until it comes back to where it started: `none` for both. -/

/-- The loop of `do_try_state` over the items of a page: the unprocessed ones, by index until `peek_index` finds no
item. Every item takes a header, so the heap has fewer items than bytes. -/
def countUnprocessed (page : Page) : Nat → Nat → Nat
  | 0, _ => 0
  | fuel + 1, i =>
    match page.peekIndex i with
    | some (_, processed, _) => (if processed then 0 else 1) + countUnprocessed page fuel (i + 1)
    | none => 0

/-- The basic checks of `do_try_state` on a book. -/
def checkBook (book : BookState O) : ExceptT String Option Unit := do
  unless book.end ≥ book.begin do throw "Invariant"
  unless book.end < 2 ^ 30 do throw "Likely overflow or corruption"
  unless book.messageCount < 2 ^ 30 do throw "Likely overflow or corruption"
  unless book.size < 2 ^ 30 do throw "Likely overflow or corruption"
  unless book.count < 2 ^ 30 do throw "Likely overflow or corruption"
  -- the ready pages and the pages of the footprint
  unless book.end - book.begin ≤ book.count do throw "There cannot be more ready than total pages"

/-- The checks of `do_try_state` on a ready page. -/
def checkPage (st : Storage O) (head : O) (pageIndex : Nat) : ExceptT String Option Unit := do
  let some page := st.getPage head pageIndex | ExceptT.lift none
  unless page.remaining > 0 do throw "These must be some messages that have not been processed yet!"
  unless page.remaining = countUnprocessed page (page.heap.length + 1) 0 do throw "Memory Corruption"

/-- The walk of `do_try_state` around the ring, bumping the head from `startingOrigin` until the next queue is
`startingOrigin` again. -/
def checkRing (startingOrigin : O) : Nat → Storage O → ExceptT String Option Unit
  | 0, _ => ExceptT.lift none
  | fuel + 1, st => do
    let r := bumpServiceHead cfg st (WeightMeter.withLimit weightMax)
    let some head := r.2.2 | pure ()
    let st := r.1
    unless (st.bookStateFor.lookup head).isSome do throw "Service head must point to an existing book"
    let headBookState := st.getBook head
    unless headBookState.messageCount > 0 do throw "There must be some messages if in ReadyRing"
    unless headBookState.size > 0 do throw "There must be some message size if in ReadyRing"
    unless headBookState.end > headBookState.begin do throw "End > Begin if unprocessed messages exists"
    let some neighbours := headBookState.readyNeighbours | throw "There must be neighbours if in ReadyRing"
    if neighbours.next = head then
      unless neighbours.prev = head do throw "Can only happen if only queue in ReadyRing"
    for pageIndex in List.range' headBookState.begin (headBookState.end - headBookState.begin) do
      checkPage st head pageIndex
    if neighbours.next = startingOrigin then pure () else checkRing startingOrigin fuel st

/-- `do_try_state`. The books are checked in the order of the map, where the source has the order of the hashed
keys. -/
def doTryState (st : Storage O) : ExceptT String Option Unit := do
  for entry in st.bookStateFor.entries do
    checkBook entry.2
  match st.serviceHead with
  | none => pure ()
  | some startingOrigin => checkRing cfg startingOrigin (st.bookStateFor.entries.length + 1) st

end Pallet

end CoreChain.MessageQueue

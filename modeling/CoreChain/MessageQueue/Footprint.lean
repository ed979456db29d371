import CoreChain.MessageQueue.Overweight

/-!
# Predicting the footprint of enqueueing

`QueueFootprintQuery::get_batches_footprints` tells a caller, for every prefix of a batch of messages, how many
messages, bytes and new pages enqueueing that prefix would add to a queue, and stops where the pages of the queue
would pass a limit. It enqueues nothing: it runs its own copy of the page-filling decision of
`do_enqueue_messages`, on heap positions only.

The copy agrees with enqueueing (`getBatchesFootprints_agrees`):

* `do_enqueue_messages`, seen through its book and the heap position of its page in progress, is a fold of `tally`
  over the messages (`view_foldl_enqueueStep`), and the book it stores has the counters of that fold
  (`getBook_doEnqueueMessages`);
* the estimator's loop takes each message in one turn, or in two when the message opens a page
  (`footprintsLoop_cons_cases`); a turn that pushes a footprint keeps `Tracks`, the estimator's page count, position
  and last footprint against the tally (`Tracks.push`);
* the run lemma `footprintsLoop_spec` follows the messages by induction.

A message too long for an empty page (longer than `MaxMessageLen`, which the `BoundedSlice` of the source rules
out) makes the loop open pages up to its limit and stop without a footprint for it (`footprintsLoop_stuck`), so the
agreement needs no bound on the messages.
-/

namespace CoreChain.MessageQueue

/-- `BatchFootprint`. -/
structure BatchFootprint where
  msgsCount : Nat := 0
  sizeInBytes : Nat := 0
  newPagesCount : Nat := 0
  deriving DecidableEq, Repr

/-- `BatchesFootprints`. -/
structure BatchesFootprints where
  firstPagePos : Nat := 0
  footprints : List BatchFootprint := []
  deriving DecidableEq, Repr

namespace BatchesFootprints

/-- `BatchesFootprints::push`: the footprint of the batch one message longer than the last one. Its counters
saturate in the source, at `usize` and `u32` bounds that the counts of one batch stay below. -/
def push (self : BatchesFootprints) (msg : List UInt8) (newPage : Bool) : BatchesFootprints :=
  let previousFootprint := self.footprints.getLast?.getD {}
  let newPagesCount :=
    if newPage then previousFootprint.newPagesCount + 1 else previousFootprint.newPagesCount
  { self with
    footprints := self.footprints ++
      [{ msgsCount := previousFootprint.msgsCount + 1,
         sizeInBytes := previousFootprint.sizeInBytes + msg.length,
         newPagesCount }] }

end BatchesFootprints

/-- The `while let` loop of `get_batches_footprints`. A message that does not fit at the current position opens a
page and is tried again at its start, as long as the count of pages stays within the limit. -/
def footprintsLoop (heapSize totalPagesLimit : Nat) (msgs : List (List UInt8)) (newPage : Bool)
    (totalPagesCount currentPagePos : Nat) (batchesFootprints : BatchesFootprints) : BatchesFootprints :=
  match msgs with
  | [] => batchesFootprints
  | msg :: rest =>
    if totalPagesCount > totalPagesLimit then batchesFootprints
    else
      match Page.canAppendMessageAt heapSize currentPagePos msg.length with
      | some newPos =>
        footprintsLoop heapSize totalPagesLimit rest false totalPagesCount newPos
          (batchesFootprints.push msg newPage)
      -- would not fit into the current page
      | none => footprintsLoop heapSize totalPagesLimit (msg :: rest) true (totalPagesCount + 1) 0 batchesFootprints
termination_by (msgs.length, totalPagesLimit + 1 - totalPagesCount)

variable {O : Type}

section Pallet

variable [DecidableEq O] (cfg : Config O)

/-- `get_batches_footprints`: the loop starts at the heap position of the last page of the queue, or where no
message fits when there is none, with the pages of the queue counted. -/
def getBatchesFootprints (st : Storage O) (origin : O) (msgs : List (List UInt8)) (totalPagesLimit : Nat) :
    BatchesFootprints :=
  let book := st.getBook origin
  let start : Nat × Nat × BatchesFootprints :=
    if book.end > book.begin then
      match st.getPage origin (book.end - 1) with
      | some page => (book.end - book.begin, page.heapPos, { firstPagePos := page.heapPos })
      | none => (book.end - book.begin, cfg.heapSize, {})
    else (0, cfg.heapSize, {})
  footprintsLoop cfg.heapSize totalPagesLimit msgs false start.1 start.2.1 start.2.2

end Pallet

/-! ## The estimator's loop -/

namespace BatchesFootprints

theorem push_footprints (self : BatchesFootprints) (msg : List UInt8) (newPage : Bool) :
    (self.push msg newPage).footprints =
      self.footprints ++
        [{ msgsCount := (self.footprints.getLast?.getD {}).msgsCount + 1,
           sizeInBytes := (self.footprints.getLast?.getD {}).sizeInBytes + msg.length,
           newPagesCount := (self.footprints.getLast?.getD {}).newPagesCount + if newPage then 1 else 0 }] := by
  cases newPage <;> rfl

end BatchesFootprints

section Loop

variable (heapSize totalPagesLimit : Nat)

@[simp] theorem footprintsLoop_nil (newPage : Bool) (totalPagesCount currentPagePos : Nat)
    (batchesFootprints : BatchesFootprints) :
    footprintsLoop heapSize totalPagesLimit [] newPage totalPagesCount currentPagePos batchesFootprints =
      batchesFootprints := by
  rw [footprintsLoop]

theorem footprintsLoop_cons (msg : List UInt8) (rest : List (List UInt8)) (newPage : Bool)
    (totalPagesCount currentPagePos : Nat) (batchesFootprints : BatchesFootprints) :
    footprintsLoop heapSize totalPagesLimit (msg :: rest) newPage totalPagesCount currentPagePos batchesFootprints =
      if totalPagesCount > totalPagesLimit then batchesFootprints
      else
        match Page.canAppendMessageAt heapSize currentPagePos msg.length with
        | some newPos =>
          footprintsLoop heapSize totalPagesLimit rest false totalPagesCount newPos
            (batchesFootprints.push msg newPage)
        | none =>
          footprintsLoop heapSize totalPagesLimit (msg :: rest) true (totalPagesCount + 1) 0 batchesFootprints := by
  rw [footprintsLoop]

/-- A message that does not fit on an empty page opens pages until the limit, and the loop stops there. -/
theorem footprintsLoop_stuck {msg : List UInt8} (rest : List (List UInt8))
    (hlong : Page.canAppendMessageAt heapSize 0 msg.length = none) (totalPagesCount : Nat)
    (batchesFootprints : BatchesFootprints) :
    footprintsLoop heapSize totalPagesLimit (msg :: rest) true totalPagesCount 0 batchesFootprints =
      batchesFootprints := by
  rw [footprintsLoop_cons]
  by_cases hc : totalPagesCount > totalPagesLimit
  · rw [if_pos hc]
  · rw [if_neg hc, hlong]
    exact footprintsLoop_stuck rest hlong (totalPagesCount + 1) batchesFootprints
termination_by totalPagesLimit + 1 - totalPagesCount

/-- One message of the loop from a message boundary: the loop stops, or it pushes the message's footprint at the
position or, when it does not fit there, on a new page, with the count of pages within the limit. -/
theorem footprintsLoop_cons_cases (msg : List UInt8) (rest : List (List UInt8)) (totalPagesCount currentPagePos : Nat)
    (batchesFootprints : BatchesFootprints) :
    footprintsLoop heapSize totalPagesLimit (msg :: rest) false totalPagesCount currentPagePos batchesFootprints =
        batchesFootprints ∨
      ∃ newPage newPos, totalPagesCount + (if newPage then 1 else 0) ≤ totalPagesLimit ∧
        Page.canAppendMessageAt heapSize (if newPage then 0 else currentPagePos) msg.length = some newPos ∧
        (newPage = true → Page.canAppendMessageAt heapSize currentPagePos msg.length = none) ∧
        footprintsLoop heapSize totalPagesLimit (msg :: rest) false totalPagesCount currentPagePos batchesFootprints =
          footprintsLoop heapSize totalPagesLimit rest false (totalPagesCount + if newPage then 1 else 0) newPos
            (batchesFootprints.push msg newPage) := by
  rw [footprintsLoop_cons]
  by_cases hc : totalPagesCount > totalPagesLimit
  · left
    rw [if_pos hc]
  rw [if_neg hc]
  cases hfit : Page.canAppendMessageAt heapSize currentPagePos msg.length with
  | some newPos =>
    right
    exact ⟨false, newPos, by simp only [Bool.false_eq_true, if_false]; omega, hfit, nofun, rfl⟩
  | none =>
    -- the message is tried again at the start of a new page
    rw [footprintsLoop_cons]
    by_cases hc' : totalPagesCount + 1 > totalPagesLimit
    · left
      rw [if_pos hc']
    rw [if_neg hc']
    cases hfit0 : Page.canAppendMessageAt heapSize 0 msg.length with
    | none =>
      left
      exact footprintsLoop_stuck heapSize totalPagesLimit rest hfit0 _ _
    | some newPos =>
      right
      exact ⟨true, newPos, by simp only [if_true]; omega, hfit0, fun _ => rfl, rfl⟩

end Loop

/-! ## Enqueueing seen through its counters -/

/-- The heap position of the page in progress; where there is none, the heap size, at which no message fits. -/
def pagePos (heapSize : Nat) : Option Page → Nat
  | some page => page.heapPos
  | none => heapSize

/-- The book and the position of its page in progress after one more message: the message goes at the position if
it fits there, or opens a page of its own. -/
def tally (heapSize : Nat) (acc : BookState O × Nat) (message : List UInt8) : BookState O × Nat :=
  let bookState := acc.1
  match Page.canAppendMessageAt heapSize acc.2 message.length with
  | some newPos =>
    ({ bookState with messageCount := bookState.messageCount + 1, size := bookState.size + message.length }, newPos)
  | none =>
    ({ bookState with
        «end» := bookState.end + 1, count := bookState.count + 1,
        messageCount := bookState.messageCount + 1, size := bookState.size + message.length },
      ItemHeader.maxEncodedLen + message.length)

theorem canAppendMessageAt_heapSize (heapSize messageLen : Nat) :
    Page.canAppendMessageAt heapSize heapSize messageLen = none := by
  unfold Page.canAppendMessageAt
  rw [if_neg (by simp only [ItemHeader.maxEncodedLen]; omega)]

theorem heapPos_fromMessage (message : List UInt8) :
    (Page.fromMessage message).heapPos = ItemHeader.maxEncodedLen + message.length := by
  simp [Page.fromMessage, Page.heapPos]

/-- Appending moves the heap position to where `can_append_message_at` says. -/
theorem tryAppendMessage_heapPos (heapSize : Nat) (page : Page) (message : List UInt8) :
    (page.tryAppendMessage heapSize message).map Page.heapPos =
      Page.canAppendMessageAt heapSize page.heapPos message.length := by
  unfold Page.tryAppendMessage Page.canAppendMessageAt
  dsimp only
  split_ifs <;> simp [Page.heapPos]

section Pallet

variable [DecidableEq O] (cfg : Config O)

/-- The book and the page position of the fold of `do_enqueue_messages`. -/
def view (acc : Storage O × BookState O × Option Page) : BookState O × Nat :=
  (acc.2.1, pagePos cfg.heapSize acc.2.2)

theorem view_enqueueStep (origin : O) (acc : Storage O × BookState O × Option Page) (message : List UInt8) :
    view cfg (enqueueStep cfg origin acc message) = tally cfg.heapSize (view cfg acc) message := by
  obtain ⟨st, bookState, maybePage⟩ := acc
  cases maybePage with
  | none =>
    simp [view, enqueueStep, tally, pagePos, canAppendMessageAt_heapSize, heapPos_fromMessage]
  | some page =>
    have happend := tryAppendMessage_heapPos cfg.heapSize page message
    cases h : page.tryAppendMessage cfg.heapSize message with
    | none =>
      rw [h, Option.map_none] at happend
      simp [view, enqueueStep, tally, pagePos, h, ← happend, heapPos_fromMessage]
    | some page' =>
      rw [h, Option.map_some] at happend
      simp [view, enqueueStep, tally, pagePos, h, ← happend]

/-- `do_enqueue_messages` follows the tally, message by message. -/
theorem view_foldl_enqueueStep (origin : O) (acc : Storage O × BookState O × Option Page)
    (messages : List (List UInt8)) :
    view cfg (messages.foldl (enqueueStep cfg origin) acc) = messages.foldl (tally cfg.heapSize) (view cfg acc) :=
  (List.foldl_hom (view cfg) fun acc message => (view_enqueueStep cfg origin acc message).symm).symm

/-- Where enqueueing starts: the heap position of the last page of the queue, if the queue has pages and it is
stored. -/
def startPos (st : Storage O) (origin : O) : Nat :=
  let bookState := st.getBook origin
  pagePos cfg.heapSize (if bookState.end > bookState.begin then st.getPage origin (bookState.end - 1) else none)

/-- The book `do_enqueue_messages` stores has the counters of the tally of its messages; knitting the queue into the
ready ring changes its neighbours only. -/
theorem getBook_doEnqueueMessages (st : Storage O) (origin : O) (messages : List (List UInt8)) :
    let book' := (doEnqueueMessages cfg st origin messages).getBook origin
    let r := messages.foldl (tally cfg.heapSize) (st.getBook origin, startPos cfg st origin)
    book'.count = r.1.count ∧ book'.messageCount = r.1.messageCount ∧ book'.size = r.1.size := by
  intro book' r
  have hbook : ∃ n, book' = { (view cfg (messages.foldl (enqueueStep cfg origin)
      (st, st.getBook origin, if (st.getBook origin).end > (st.getBook origin).begin
        then st.getPage origin ((st.getBook origin).end - 1) else none))).1 with readyNeighbours := n } := by
    simp only [book', doEnqueueMessages, view]
    generalize List.foldl (enqueueStep cfg origin) _ messages = acc
    split
    -- knitting into the ready ring sets the neighbours, or leaves the book as it is
    · split <;> exact ⟨_, by simp; rfl⟩
    · exact ⟨_, by simp; rfl⟩
  rw [view_foldl_enqueueStep] at hbook
  obtain ⟨n, hn⟩ := hbook
  rw [hn]
  exact ⟨rfl, rfl, rfl⟩

/-- The loop of `get_batches_footprints` starts from the page count of the queue and where enqueueing starts. -/
theorem getBatchesFootprints_eq (st : Storage O) (origin : O) (msgs : List (List UInt8)) (totalPagesLimit : Nat) :
    ∃ firstPagePos, getBatchesFootprints cfg st origin msgs totalPagesLimit =
      footprintsLoop cfg.heapSize totalPagesLimit msgs false ((st.getBook origin).end - (st.getBook origin).begin)
        (startPos cfg st origin) { firstPagePos } := by
  unfold getBatchesFootprints startPos
  by_cases hpages : (st.getBook origin).end > (st.getBook origin).begin
  · cases hpage : st.getPage origin ((st.getBook origin).end - 1) with
    | some page => exact ⟨page.heapPos, by simp [hpages, hpage, pagePos]⟩
    | none => exact ⟨0, by simp [hpages, hpage, pagePos]⟩
  · have hzero : (st.getBook origin).end - (st.getBook origin).begin = 0 := by omega
    exact ⟨0, by simp [hpages, hzero, pagePos]⟩

end Pallet

/-! ## The estimate against the tally -/

section Agreement

variable (heapSize totalPagesLimit : Nat) (book : BookState O) (pages : Nat)

/-- The counters `book'` has gained over `book` are those of a footprint. -/
def Agrees (footprint : BatchFootprint) (book' : BookState O) : Prop :=
  book'.count = book.count + footprint.newPagesCount ∧
    book'.messageCount = book.messageCount + footprint.msgsCount ∧ book'.size = book.size + footprint.sizeInBytes

/-- The estimator's state at a message boundary against the tally from `book`: its last footprint is what the book
has gained, its position is the tally's, and it counts the queue's `pages` and the new ones. -/
def Tracks (totalPagesCount currentPagePos : Nat) (batchesFootprints : BatchesFootprints)
    (acc : BookState O × Nat) : Prop :=
  Agrees book (batchesFootprints.footprints.getLast?.getD {}) acc.1 ∧ acc.2 = currentPagePos ∧
    totalPagesCount = pages + (batchesFootprints.footprints.getLast?.getD {}).newPagesCount

variable {heapSize book pages}

theorem Tracks.start (currentPagePos firstPagePos : Nat) :
    Tracks book pages pages currentPagePos { firstPagePos } (book, currentPagePos) := by
  simp [Tracks, Agrees]

/-- A pushed footprint keeps the estimator in step with the tally: at the position when the message fits there,
or on a new page, which the tally opens too. -/
theorem Tracks.push {totalPagesCount currentPagePos newPos : Nat} {batchesFootprints : BatchesFootprints}
    {acc : BookState O × Nat} {msg : List UInt8} {newPage : Bool}
    (h : Tracks book pages totalPagesCount currentPagePos batchesFootprints acc)
    (hfit : Page.canAppendMessageAt heapSize (if newPage then 0 else currentPagePos) msg.length = some newPos)
    (hnew : newPage = true → Page.canAppendMessageAt heapSize currentPagePos msg.length = none) :
    Tracks book pages (totalPagesCount + if newPage then 1 else 0) newPos (batchesFootprints.push msg newPage)
      (tally heapSize acc msg) := by
  obtain ⟨⟨hcount, hmessages, hsize⟩, hpos, hpages⟩ := h
  obtain ⟨bookState, pos⟩ := acc
  dsimp only at hpos hcount hmessages hsize
  subst hpos
  simp only [Tracks, Agrees, BatchesFootprints.push_footprints, List.getLast?_append, List.getLast?_singleton,
    Option.some_or, Option.getD_some]
  cases newPage with
  | false =>
    simp only [Bool.false_eq_true, if_false] at hfit ⊢
    simp only [tally, hfit, true_and]
    omega
  | true =>
    simp only [if_true] at hfit ⊢
    have hat : newPos = ItemHeader.maxEncodedLen + msg.length := by
      simp only [Page.canAppendMessageAt] at hfit
      split_ifs at hfit
      cases hfit
      omega
    simp only [tally, hnew rfl, hat, true_and]
    omega

/-- The run of the estimator's loop from a message boundary: it adds footprints to those it has, and the footprint
of each further prefix of the messages is what the tally of that prefix gains, with its pages within the limit. -/
theorem footprintsLoop_spec (msgs : List (List UInt8)) :
    ∀ totalPagesCount currentPagePos batchesFootprints acc,
      Tracks book pages totalPagesCount currentPagePos batchesFootprints acc →
      ∃ extra, (footprintsLoop heapSize totalPagesLimit msgs false totalPagesCount currentPagePos
          batchesFootprints).footprints = batchesFootprints.footprints ++ extra ∧
        ∀ (i : Nat) footprint, extra[i]? = some footprint →
          Agrees book footprint ((msgs.take (i + 1)).foldl (tally heapSize) acc).1 ∧
            pages + footprint.newPagesCount ≤ totalPagesLimit := by
  induction msgs with
  | nil =>
    intro totalPagesCount currentPagePos batchesFootprints acc _
    exact ⟨[], by simp, by simp⟩
  | cons msg rest ih =>
    intro totalPagesCount currentPagePos batchesFootprints acc h
    rcases footprintsLoop_cons_cases heapSize totalPagesLimit msg rest totalPagesCount currentPagePos
      batchesFootprints with hstop | ⟨newPage, newPos, hlimit, hfit, hnew, hrun⟩
    · exact ⟨[], by simp [hstop], by simp⟩
    have hpushed := h.push hfit hnew
    obtain ⟨extra, hextra, hall⟩ := ih _ _ _ _ hpushed
    -- the footprint just pushed leads the ones of the rest of the run
    refine ⟨(batchesFootprints.push msg newPage).footprints.getLast?.getD {} :: extra, ?_, ?_⟩
    · rw [hrun, hextra, BatchesFootprints.push_footprints]
      simp
    · intro i footprint hi
      cases i with
      | zero =>
        simp only [List.getElem?_cons_zero, Option.some.injEq] at hi
        subst hi
        obtain ⟨hagrees, -, hpages⟩ := hpushed
        exact ⟨by simpa using hagrees, by omega⟩
      | succ i =>
        simp only [List.getElem?_cons_succ] at hi
        simpa using hall i footprint hi

end Agreement

section Pallet

variable [DecidableEq O] (cfg : Config O)

theorem getBatchesFootprints_agrees (st : Storage O) (origin : O) (msgs : List (List UInt8))
    (totalPagesLimit i : Nat) (footprint : BatchFootprint)
    (hi : (getBatchesFootprints cfg st origin msgs totalPagesLimit).footprints[i]? = some footprint) :
    let book := st.getBook origin
    let book' := (enqueueMessages cfg st (msgs.take (i + 1)) origin).getBook origin
    book'.count = book.count + footprint.newPagesCount ∧
      book'.messageCount = book.messageCount + footprint.msgsCount ∧ book'.size = book.size + footprint.sizeInBytes ∧
      book.end - book.begin + footprint.newPagesCount ≤ totalPagesLimit := by
  intro book book'
  obtain ⟨firstPagePos, hrun⟩ := getBatchesFootprints_eq cfg st origin msgs totalPagesLimit
  have hstart : Tracks book (book.end - book.begin) (book.end - book.begin) (startPos cfg st origin)
      { firstPagePos } (book, startPos cfg st origin) :=
    Tracks.start _ _
  obtain ⟨extra, hextra, hall⟩ := @footprintsLoop_spec O cfg.heapSize totalPagesLimit _ _ msgs _ _ _ _ hstart
  rw [hrun, hextra] at hi
  obtain ⟨⟨hcount, hmessages, hsize⟩, hlimit⟩ := hall i footprint (by simpa using hi)
  obtain ⟨hcount', hmessages', hsize'⟩ := getBook_doEnqueueMessages cfg st origin (msgs.take (i + 1))
  refine ⟨?_, ?_, ?_, hlimit⟩
  · rw [← hcount]; exact hcount'
  · rw [← hmessages]; exact hmessages'
  · rw [← hsize]; exact hsize'

/-- One message on an empty queue with a limit of one page: it does not fit where there is no page, so its
footprint opens one. -/
theorem getBatchesFootprints_agrees_oneMessage :
    (getBatchesFootprints weighingConfig Storage.empty 0 [[1]] 1).footprints[0]? = some ⟨1, 1, 1⟩ ∧
      let book := (Storage.empty : Storage Nat).getBook 0
      let book' := (enqueueMessages weighingConfig Storage.empty ([[1]].take (0 + 1)) 0).getBook 0
      book'.count = book.count + 1 ∧ book'.messageCount = book.messageCount + 1 ∧ book'.size = book.size + 1 ∧
        book.end - book.begin + 1 ≤ 1 := by
  have hrun : (getBatchesFootprints weighingConfig Storage.empty 0 [[1]] 1).footprints[0]? = some ⟨1, 1, 1⟩ := by
    change (footprintsLoop 64 1 [[1]] false 0 64 {}).footprints[0]? = _
    -- the message does not fit where there is no page, and fits on the page it opens
    have hnone : Page.canAppendMessageAt 64 64 ([1] : List UInt8).length = none := rfl
    have hopen : Page.canAppendMessageAt 64 0 ([1] : List UInt8).length = some 6 := rfl
    rw [footprintsLoop_cons, if_neg (by decide), hnone, footprintsLoop_cons, if_neg (by decide), hopen]
    simp only [footprintsLoop_nil]
    rfl
  exact ⟨hrun, getBatchesFootprints_agrees weighingConfig Storage.empty 0 [[1]] 1 0 ⟨1, 1, 1⟩ hrun⟩

end Pallet

end CoreChain.MessageQueue

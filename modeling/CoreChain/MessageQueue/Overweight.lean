import CoreChain.MessageQueue.Pallet

/-!
# Executing an overweight message

`execute_overweight` runs a message that servicing skipped as overweight. It may pick one of the page at `begin`,
before its `first`. When that message is the last unprocessed one of the page, the page is removed; but the book
it writes back keeps the `begin`, `end` and ready neighbours it read before the message ran
(`doExecuteOverweightInner_book`). The ready pages of the queue then start at a page that is not stored.

That happens from empty storage: two messages on one page, the first overweight, the second processed with the
last of the weight, so that servicing bails out at the page with `first` past its last item; then
`execute_overweight` runs the first message (`executeOverweight_removes_begin_page`).
-/

namespace CoreChain.MessageQueue

variable {O : Type} [DecidableEq O] (cfg : Config O)

/-- The book `execute_overweight` writes back is the one read before the message ran, less the counters of the message
and of a removed page: its ready pages and ring links are as before, whatever page it removed and whatever the message
enqueued on its own queue. -/
theorem doExecuteOverweightInner_book {st st' : Storage O} {origin : O} {pageIndex index weightLimit w : Nat}
    (h : doExecuteOverweightInner cfg st origin pageIndex index weightLimit = .ok (st', w)) :
    (st'.getBook origin).begin = (st.getBook origin).begin ∧ (st'.getBook origin).end = (st.getBook origin).end ∧
      (st'.getBook origin).readyNeighbours = (st.getBook origin).readyNeighbours := by
  unfold doExecuteOverweightInner at h
  dsimp only at h
  repeat' split at h
  -- the errors write nothing; the two `Ok`s, with the page removed or updated, write the book last
  all_goals cases h
  all_goals simp

/-- A processor for which a message `[w]` needs the weight `w`, and is overweight where the meter cannot take it. -/
def weighing : MessageProcessor Nat where
  processMessage message _ meter :=
    match meter.tryConsume (message.headD 0).toNat with
    | some meter => (.ok true, meter, [])
    | none => (.error (.overweight (message.headD 0).toNat), meter, [])

/-- Pages of 64 bytes, every servicing weight 1, no service weight configured, and no queue paused. -/
def weighingConfig : Config Nat :=
  ⟨64, 0, none, none, ⟨1, 1, 1, 1, 1, 1, 1, 0, 0⟩, weighing, fun _ => false⟩

/-- Messages `[2]` and `[0]` on queue `0`, serviced with weight 6: a message may take weight 1, so `[2]` is overweight
and skipped; `[0]` takes the last of the weight, and servicing bails out before seeing that the page is done.
`execute_overweight` of `[2]` with weight 2 then removes the page, and the book still has page 0 ready: `do_try_state`
fails. -/
theorem executeOverweight_removes_begin_page :
    ∃ st w, doExecuteOverweightInner weighingConfig
        (serviceQueues weighingConfig 2 6 (enqueueMessages weighingConfig Storage.empty [[2], [0]] 0)).1 0 0 0 2 =
        .ok (st, w) ∧
      (st.getBook 0).begin = 0 ∧ (st.getBook 0).end = 1 ∧ (st.getBook 0).readyNeighbours.isSome ∧
      st.getPage 0 0 = none ∧
      (doTryState weighingConfig st).run = some (.error "There cannot be more ready than total pages") := by
  refine ⟨_, _, rfl, ?_⟩
  decide

end CoreChain.MessageQueue

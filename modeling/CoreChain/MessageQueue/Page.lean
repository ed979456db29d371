import CoreChain.Lib.Compact

/-!
# Pages of the message queue

The model of the `Page` of `substrate/frame/message-queue/src/lib.rs`. A page is a heap of bytes holding items one
after another, each an `ItemHeader` (its payload length and whether it was processed) followed by the payload,
with counters of the items and bytes that remain to be processed and two heap offsets: `first`, the header of the
next item to process, and `last`, the header of the last item.

With `Size = u32`, the header is SCALE: the length as four little-endian bytes, then the flag as one byte. The
counters are `Nat`: they count at most the items of one heap, far below `u32::MAX`, where the source saturates.

A header is read back from the bytes it was written to (`decode_encode`).
-/

namespace CoreChain.MessageQueue

/-- `ItemHeader<u32>`. -/
structure ItemHeader where
  payloadLen : Nat
  isProcessed : Bool
  deriving DecidableEq, Repr

namespace ItemHeader

/-- `ItemHeader::<u32>::max_encoded_len()`. -/
def maxEncodedLen : Nat := 5

/-- The SCALE encoding. -/
def encode (h : ItemHeader) : List UInt8 :=
  leBytes 4 h.payloadLen ++ [if h.isProcessed then 1 else 0]

/-- The SCALE decoding of a `bool`: `0` or `1`, anything else is an error. -/
def decodeBool : List UInt8 → Option (Bool × List UInt8)
  | 0 :: rest => some (false, rest)
  | 1 :: rest => some (true, rest)
  | _ => none

/-- The SCALE decoding, with the bytes after the header. -/
def decode (input : List UInt8) : Option (ItemHeader × List UInt8) :=
  (leRead 4 input).bind fun r => (decodeBool r.2).map fun b => (⟨r.1, b.1⟩, b.2)

@[simp] theorem length_encode (h : ItemHeader) : h.encode.length = maxEncodedLen := by
  simp [encode, maxEncodedLen]

theorem decodeBool_encode (b : Bool) (rest : List UInt8) :
    decodeBool ((if b then 1 else 0) :: rest) = some (b, rest) := by
  cases b <;> rfl

theorem decode_encode (h : ItemHeader) (hlen : h.payloadLen < 2 ^ 32) (rest : List UInt8) :
    decode (h.encode ++ rest) = some (h, rest) := by
  have hle : h.payloadLen < 256 ^ 4 := by simpa using hlen
  unfold decode encode
  rw [List.append_assoc, leRead_leBytes 4 _ _ hle]
  simp [decodeBool_encode]

end ItemHeader

/-- The bytes `bytes` written over the heap from `pos` on. -/
def writeAt (heap : List UInt8) (pos : Nat) (bytes : List UInt8) : List UInt8 :=
  heap.take pos ++ bytes ++ heap.drop (pos + bytes.length)

/-- `Page<u32, HeapSize>`. -/
structure Page where
  remaining : Nat
  remainingSize : Nat
  firstIndex : Nat
  first : Nat
  last : Nat
  heap : List UInt8
  deriving DecidableEq, Repr

namespace Page

/-- `Page::from_message`. -/
def fromMessage (message : List UInt8) : Page :=
  ⟨1, message.length, 0, 0, 0, ItemHeader.encode ⟨message.length, false⟩ ++ message⟩

/-- `Page::heap_pos`. -/
def heapPos (page : Page) : Nat :=
  page.heap.length

/-- `Page::can_append_message_at`: the offset after the message, if it fits in the heap. -/
def canAppendMessageAt (heapSize pos messageLen : Nat) : Option Nat :=
  let newPos := pos + (ItemHeader.maxEncodedLen + messageLen)
  if newPos ≤ heapSize then some newPos else none

/-- `Page::try_append_message`. -/
def tryAppendMessage (heapSize : Nat) (page : Page) (message : List UInt8) : Option Page :=
  let pos := page.heapPos
  (canAppendMessageAt heapSize pos message.length).map fun _ =>
    { page with
      heap := page.heap ++ (ItemHeader.encode ⟨message.length, false⟩ ++ message)
      last := pos
      remaining := page.remaining + 1
      remainingSize := page.remainingSize + message.length }

/-- `Page::peek_first`: `none` past the last item, and on a heap it cannot decode. -/
def peekFirst (page : Page) : Option (List UInt8) :=
  if page.first > page.last then none
  else
    let f := min page.first page.heap.length
    match ItemHeader.decode (page.heap.drop f) with
    | some (h, itemSlice) => if h.payloadLen ≤ itemSlice.length then some (itemSlice.take h.payloadLen) else none
    -- `defensive!("message-queue: heap corruption")`
    | none => none

/-- The item whose header `h` was read at `pos` is marked processed, and the counters drop by it. -/
def markProcessed (page : Page) (pos : Nat) (h : ItemHeader) : Page :=
  { page with
    heap := writeAt page.heap pos (ItemHeader.encode { h with isProcessed := true })
    remaining := page.remaining - 1
    remainingSize := page.remainingSize - h.payloadLen }

/-- `Page::skip_first`. -/
def skipFirst (page : Page) (isProcessed : Bool) : Page :=
  let f := min page.first page.heap.length
  match ItemHeader.decode (page.heap.drop f) with
  | some (h, _) =>
    let page := if isProcessed && !h.isProcessed then page.markProcessed f h else page
    { page with
      first := page.first + ItemHeader.maxEncodedLen + h.payloadLen
      firstIndex := page.firstIndex + 1 }
  | none => page

/-- The loop of `Page::peek_index`: the offset of the item `index` items on, and the heap from there. -/
def peekIndexLoop : Nat → Nat → List UInt8 → Option (Nat × List UInt8)
  | 0, pos, itemSlice => some (pos, itemSlice)
  | n + 1, pos, itemSlice =>
    match ItemHeader.decode itemSlice with
    | some (h, itemSlice) =>
      if itemSlice.length < h.payloadLen then none
      else peekIndexLoop n (pos + (ItemHeader.maxEncodedLen + h.payloadLen)) (itemSlice.drop h.payloadLen)
    | none => none

/-- `Page::peek_index`: the offset of the item, whether it was processed, and its payload. -/
def peekIndex (page : Page) (index : Nat) : Option (Nat × Bool × List UInt8) :=
  match peekIndexLoop index 0 page.heap with
  | some (pos, itemSlice) =>
    match ItemHeader.decode itemSlice with
    | some (h, itemSlice) =>
      if itemSlice.length < h.payloadLen then none else some (pos, h.isProcessed, itemSlice.take h.payloadLen)
    | none => none
  | none => none

/-- `Page::note_processed_at_pos`. -/
def noteProcessedAtPos (page : Page) (pos : Nat) : Page :=
  match ItemHeader.decode (page.heap.drop pos) with
  | some (h, _) => if !h.isProcessed then page.markProcessed pos h else page
  | none => page

/-- `Page::is_complete`. -/
def isComplete (page : Page) : Bool :=
  page.remaining == 0

end Page

end CoreChain.MessageQueue

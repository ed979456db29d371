import CoreChain.MessageQueue.Page

/-!
# The items of a page

A page built by `Page::from_message` and `Page::try_append_message` holds its messages as items: the heap is their
headers and payloads one after another (`heapOf`), message `i` starts at `itemPos` of the messages before it, and
`Page.Stores page items` says that the heap, `first`, `last` and the two counters agree with a list of items, each a
payload with the flag of its header.

A message makes a page that stores it (`stores_fromMessage`), and appending keeps this (`stores_tryAppendMessage`), as
do `skip_first` and `note_processed_at_pos` at the offset of an item, which only set that item's flag
(`stores_skipFirst`, `stores_noteProcessedAtPos`). A page that stores its items shows them (`shows_of_stores`):
`peek_index` reads each one back at its offset and `None` past the last, and `peek_first` reads item `first_index`.
Over a whole run of such calls the page keeps showing the messages it was built of (`page_run_keeps_items`).

`note_processed_at_pos` trusts its offset: at one inside a payload it reads payload bytes as a header and writes a
flag into the payload (`noteProcessedAtPos_inside_payload`). The pallet calls it with an offset `peek_index` returned.
-/

namespace CoreChain.MessageQueue

/-- An item of a page: its payload, and whether its header marks it processed. -/
structure Item where
  payload : List UInt8
  isProcessed : Bool
  deriving DecidableEq, Repr

namespace Item

/-- The bytes of an item on the heap: its header, then its payload. -/
def bytes (it : Item) : List UInt8 :=
  ItemHeader.encode ⟨it.payload.length, it.isProcessed⟩ ++ it.payload

/-- The item with its header marked processed. -/
def mark (it : Item) : Item :=
  { it with isProcessed := true }

@[simp] theorem length_bytes (it : Item) : it.bytes.length = ItemHeader.maxEncodedLen + it.payload.length := by
  simp [bytes]

@[simp] theorem payload_mark (it : Item) : it.mark.payload = it.payload := rfl

theorem decode_bytes (it : Item) (hfit : it.payload.length < 2 ^ 32) (rest : List UInt8) :
    ItemHeader.decode (it.bytes ++ rest) = some (⟨it.payload.length, it.isProcessed⟩, it.payload ++ rest) := by
  rw [bytes, List.append_assoc]
  exact ItemHeader.decode_encode ⟨it.payload.length, it.isProcessed⟩ hfit (it.payload ++ rest)

end Item

/-! ## The heap of a list of items -/

/-- The heap holding `items` one after another. -/
def heapOf (items : List Item) : List UInt8 :=
  items.flatMap Item.bytes

/-- The heap offset of message `i` on a page of `messages`: the headers and payloads of those before it. -/
def itemPos (messages : List (List UInt8)) (i : Nat) : Nat :=
  ((messages.take i).map fun m => ItemHeader.maxEncodedLen + m.length).sum

/-- The number of items not processed. -/
def remainingOf (items : List Item) : Nat :=
  items.countP fun it => !it.isProcessed

/-- The bytes of the items not processed. -/
def remainingSizeOf (items : List Item) : Nat :=
  ((items.filter fun it => !it.isProcessed).map fun it => it.payload.length).sum

@[simp] theorem heapOf_nil : heapOf [] = [] := rfl

@[simp] theorem heapOf_cons (it : Item) (items : List Item) : heapOf (it :: items) = it.bytes ++ heapOf items := by
  simp [heapOf]

@[simp] theorem heapOf_append (items items' : List Item) :
    heapOf (items ++ items') = heapOf items ++ heapOf items' := by
  simp [heapOf]

theorem heapOf_take_append_drop (items : List Item) (i : Nat) :
    heapOf (items.take i) ++ heapOf (items.drop i) = heapOf items := by
  rw [← heapOf_append, List.take_append_drop]

@[simp] theorem remainingOf_nil : remainingOf [] = 0 := rfl

@[simp] theorem remainingOf_cons (it : Item) (items : List Item) :
    remainingOf (it :: items) = remainingOf items + (if it.isProcessed then 0 else 1) := by
  cases h : it.isProcessed <;> simp [remainingOf, h]

@[simp] theorem remainingOf_append (items items' : List Item) :
    remainingOf (items ++ items') = remainingOf items + remainingOf items' := by
  simp [remainingOf, List.countP_append]

@[simp] theorem remainingSizeOf_nil : remainingSizeOf [] = 0 := rfl

@[simp] theorem remainingSizeOf_cons (it : Item) (items : List Item) :
    remainingSizeOf (it :: items) = (if it.isProcessed then 0 else it.payload.length) + remainingSizeOf items := by
  cases h : it.isProcessed <;> simp [remainingSizeOf, h]

@[simp] theorem remainingSizeOf_append (items items' : List Item) :
    remainingSizeOf (items ++ items') = remainingSizeOf items + remainingSizeOf items' := by
  simp [remainingSizeOf, List.filter_append]

theorem itemPos_map_payload (items : List Item) (i : Nat) :
    itemPos (items.map Item.payload) i = (heapOf (items.take i)).length := by
  simp [itemPos, heapOf, List.length_flatMap, ← List.map_take, Function.comp_def]

theorem itemPos_split (pre post : List Item) (it : Item) :
    itemPos ((pre ++ it :: post).map Item.payload) pre.length = (heapOf pre).length := by
  rw [itemPos_map_payload, List.take_left]

theorem itemPos_of_length_le {items : List Item} {i : Nat} (h : items.length ≤ i) :
    itemPos (items.map Item.payload) i = (heapOf items).length := by
  rw [itemPos_map_payload, List.take_of_length_le h]

theorem itemPos_succ {messages : List (List UInt8)} {i : Nat} (h : i < messages.length) :
    itemPos messages (i + 1) = itemPos messages i + (ItemHeader.maxEncodedLen + messages[i].length) := by
  simp only [itemPos, List.take_add_one, List.getElem?_eq_getElem h, Option.toList_some, List.map_append,
    List.map_cons, List.map_nil, List.sum_append, List.sum_cons, List.sum_nil, Nat.add_zero]

theorem itemPos_mono (messages : List (List UInt8)) {i j : Nat} (h : i ≤ j) :
    itemPos messages i ≤ itemPos messages j := by
  induction h with
  | refl => exact Nat.le_refl _
  | step _ ih =>
    refine Nat.le_trans ih ?_
    simp [itemPos, List.take_add_one]

/-- The heap from the offset of item `i` on holds the items from `i` on. -/
theorem drop_heapOf_itemPos (items : List Item) (i : Nat) :
    (heapOf items).drop (itemPos (items.map Item.payload) i) = heapOf (items.drop i) := by
  rw [itemPos_map_payload, ← heapOf_take_append_drop items i, List.drop_left]

/-- Writing over the bytes `old` something as long leaves the bytes around them. -/
theorem writeAt_append {pre old new post : List UInt8} (h : new.length = old.length) :
    writeAt (pre ++ (old ++ post)) pre.length new = pre ++ (new ++ post) := by
  simp [writeAt, h]

theorem length_of_decode {input rest : List UInt8} {h : ItemHeader} (hdec : ItemHeader.decode input = some (h, rest)) :
    input.length = ItemHeader.maxEncodedLen + rest.length := by
  simp only [ItemHeader.decode, Option.bind_eq_some_iff, Option.map_eq_some_iff] at hdec
  obtain ⟨⟨x, r⟩, hread, ⟨b, r'⟩, hbool, hres⟩ := hdec
  obtain ⟨-, rfl⟩ := leRead_eq_some 4 input x r hread
  simp only [Prod.mk.injEq] at hres
  obtain ⟨-, rfl⟩ := hres
  have hr : r.length = r'.length + 1 := by
    unfold ItemHeader.decodeBool at hbool
    split at hbool <;> simp_all
  simp [hr, ItemHeader.maxEncodedLen]
  omega

/-- A header decoded at `pos` is written back inside the heap: the heap keeps its length. -/
theorem length_noteProcessedAtPos (page : Page) (pos : Nat) :
    (page.noteProcessedAtPos pos).heap.length = page.heap.length := by
  unfold Page.noteProcessedAtPos
  split
  · rename_i h rest hdec
    have hlen := length_of_decode hdec
    split
    · simp only [List.length_drop] at hlen
      simp [Page.markProcessed, writeAt, ItemHeader.maxEncodedLen] at hlen ⊢
      omega
    · rfl
  · rfl

/-! ## Pages that store their items -/

/-- The page stores `items`: its heap is theirs, `last` and `first` are the offsets of the last item and of item
`firstIndex`, and `remaining` and `remainingSize` count the items not processed and their bytes. -/
structure Page.Stores (page : Page) (items : List Item) : Prop where
  ne_nil : items ≠ []
  fits : ∀ it ∈ items, it.payload.length < 2 ^ 32
  heap_eq : page.heap = heapOf items
  last_eq : page.last = itemPos (items.map Item.payload) (items.length - 1)
  firstIndex_le : page.firstIndex ≤ items.length
  first_eq : page.first = itemPos (items.map Item.payload) page.firstIndex
  remaining_eq : page.remaining = remainingOf items
  remainingSize_eq : page.remainingSize = remainingSizeOf items

namespace Page

variable {page : Page} {items : List Item}

/-- The item at `pre.length` is read off the heap from its offset. -/
theorem decode_of_stores {pre post : List Item} {it : Item} (h : page.Stores (pre ++ it :: post)) :
    ItemHeader.decode (page.heap.drop (heapOf pre).length) =
      some (⟨it.payload.length, it.isProcessed⟩, it.payload ++ heapOf post) := by
  have hfit : it.payload.length < 2 ^ 32 := h.fits it (by simp)
  rw [h.heap_eq, heapOf_append, List.drop_left, heapOf_cons, Item.decode_bytes it hfit]

theorem decode_of_stores_past (h : page.Stores items) {i : Nat} (hi : items.length ≤ i) :
    ItemHeader.decode (page.heap.drop (itemPos (items.map Item.payload) i)) = none := by
  rw [h.heap_eq, drop_heapOf_itemPos, List.drop_of_length_le hi]
  rfl

theorem itemPos_le_heap (h : page.Stores items) (j : Nat) :
    itemPos (items.map Item.payload) j ≤ page.heap.length := by
  rw [itemPos_map_payload, h.heap_eq, ← heapOf_take_append_drop items j, List.length_append]
  exact Nat.le_add_right _ _

theorem first_le_heap (h : page.Stores items) : page.first ≤ page.heap.length := by
  rw [h.first_eq]
  exact itemPos_le_heap h _

/-- `first ≤ last` says that `first_index` is an item. -/
theorem first_le_last_iff (h : page.Stores items) : page.first ≤ page.last ↔ page.firstIndex < items.length := by
  have hne : 0 < items.length := List.length_pos_iff.2 h.ne_nil
  rw [h.first_eq, h.last_eq]
  constructor
  · intro hle
    by_contra hge
    have hfi : page.firstIndex = items.length := by have := h.firstIndex_le; omega
    have hlast := @itemPos_succ (items.map Item.payload) (items.length - 1) (by simp; omega)
    rw [Nat.sub_add_cancel hne] at hlast
    unfold ItemHeader.maxEncodedLen at hlast
    rw [hfi, hlast] at hle
    omega
  · intro hlt
    exact itemPos_mono _ (by omega)

theorem stores_fromMessage {message : List UInt8} (hlen : message.length < 2 ^ 32) :
    (fromMessage message).Stores [⟨message, false⟩] where
  ne_nil := by simp
  fits := by simpa using hlen
  heap_eq := by simp [fromMessage, Item.bytes]
  last_eq := rfl
  firstIndex_le := by simp [fromMessage]
  first_eq := rfl
  remaining_eq := rfl
  remainingSize_eq := by simp [fromMessage]

/-- Appending a message adds it as an item not processed, where the heap ended. -/
theorem stores_tryAppendMessage {heapSize : Nat} (hheap : heapSize < 2 ^ 32) (h : page.Stores items)
    {message : List UInt8} {page' : Page} (happ : page.tryAppendMessage heapSize message = some page') :
    page'.Stores (items ++ [⟨message, false⟩]) := by
  simp only [tryAppendMessage, canAppendMessageAt, Option.map_eq_some_iff] at happ
  obtain ⟨newPos, hfit, rfl⟩ := happ
  have hlen : message.length < 2 ^ 32 := by
    split at hfit
    · have := Option.some.inj hfit
      omega
    · cases hfit
  have hbefore : ∀ i ≤ items.length,
      itemPos ((items ++ [(⟨message, false⟩ : Item)]).map Item.payload) i = itemPos (items.map Item.payload) i := by
    intro i hi
    rw [itemPos_map_payload, itemPos_map_payload, List.take_append_of_le_length hi]
  refine ⟨by simp, ?_, ?_, ?_, ?_, ?_, ?_, ?_⟩
  · intro it hit
    rcases List.mem_append.1 hit with hit | hit
    · exact h.fits it hit
    · simp only [List.mem_singleton] at hit
      subst hit
      exact hlen
  · simp [h.heap_eq, Item.bytes]
  · simp only [heapPos, List.length_append, List.length_singleton, Nat.add_sub_cancel]
    rw [hbefore _ (Nat.le_refl _), itemPos_of_length_le (Nat.le_refl _), h.heap_eq]
  · simp only [List.length_append, List.length_singleton]
    exact Nat.le_succ_of_le h.firstIndex_le
  · exact (hbefore _ h.firstIndex_le).trans h.first_eq.symm |>.symm
  · simp [h.remaining_eq]
  · simp [h.remainingSize_eq]

/-- Marking an unprocessed item sets its flag and takes it off the counters. -/
theorem stores_markProcessed {pre post : List Item} {payload : List UInt8}
    (h : page.Stores (pre ++ ⟨payload, false⟩ :: post)) :
    (page.markProcessed (heapOf pre).length ⟨payload.length, false⟩).Stores
      (pre ++ ⟨payload, true⟩ :: post) := by
  have hlen : (ItemHeader.encode ⟨payload.length, true⟩).length =
      (ItemHeader.encode ⟨payload.length, false⟩).length := by
    simp
  refine ⟨by simp, ?_, ?_, ?_, Nat.le_trans h.firstIndex_le (by simp), ?_, ?_, ?_⟩
  · intro it hit
    simp only [List.mem_append, List.mem_cons] at hit
    rcases hit with hit | rfl | hit
    · exact h.fits it (by simp [hit])
    · exact h.fits ⟨payload, false⟩ (by simp)
    · exact h.fits it (by simp [hit])
  · simp only [markProcessed]
    rw [h.heap_eq, heapOf_append, heapOf_cons, Item.bytes, List.append_assoc, writeAt_append hlen]
    simp [Item.bytes]
  · simpa [markProcessed] using h.last_eq
  · simpa [markProcessed] using h.first_eq
  · simp [markProcessed, h.remaining_eq]
  · simp [markProcessed, h.remainingSize_eq]
    omega

/-- Moving `first` over the item it points at. -/
theorem stores_advance {pre post : List Item} {it : Item} (h : page.Stores (pre ++ it :: post))
    (hfi : page.firstIndex = pre.length) :
    ({ page with
        first := page.first + ItemHeader.maxEncodedLen + it.payload.length
        firstIndex := page.firstIndex + 1 } : Page).Stores (pre ++ it :: post) := by
  have hnext := @itemPos_succ ((pre ++ it :: post).map Item.payload) pre.length (by simp)
  refine ⟨h.ne_nil, h.fits, h.heap_eq, h.last_eq, by simp [hfi], ?_, h.remaining_eq, h.remainingSize_eq⟩
  simp only [hfi, hnext, h.first_eq]
  simp [Nat.add_assoc]

/-- `skip_first` moves over item `first_index`, marking it processed if asked to. -/
theorem stores_skipFirst (h : page.Stores items) (isProcessed : Bool) :
    (page.skipFirst isProcessed).Stores (if isProcessed then items.modify page.firstIndex Item.mark else items) := by
  by_cases hfi : page.firstIndex < items.length
  · obtain ⟨pre, it, post, rfl, hpre, hmod⟩ := List.exists_of_modify Item.mark hfi
    obtain ⟨payload, flag⟩ := it
    have hf : min page.first page.heap.length = (heapOf pre).length := by
      rw [Nat.min_eq_left (first_le_heap h), h.first_eq, ← hpre, itemPos_split]
    have hdec := decode_of_stores h
    cases isProcessed with
    | false =>
      simp only [skipFirst, hf, hdec, Bool.false_and, Bool.false_eq_true, if_false]
      exact stores_advance h hpre.symm
    | true =>
      rw [if_pos rfl, hmod]
      cases flag with
      | true =>
        simp only [skipFirst, hf, hdec, Bool.not_true, Bool.and_false, Bool.false_eq_true, if_false]
        exact stores_advance h hpre.symm
      | false =>
        simp only [skipFirst, hf, hdec, Bool.not_false, Bool.and_self, if_true]
        exact stores_advance (stores_markProcessed h) hpre.symm
  · have hf : min page.first page.heap.length = itemPos (items.map Item.payload) page.firstIndex := by
      rw [Nat.min_eq_left (first_le_heap h), h.first_eq]
    have hnone := decode_of_stores_past h (Nat.le_of_not_lt hfi)
    have hkeep : items.modify page.firstIndex Item.mark = items := List.modify_eq_self (Nat.le_of_not_lt hfi)
    cases isProcessed <;> simpa [skipFirst, hf, hnone, hkeep] using h

/-- `note_processed_at_pos` at the offset of item `j` marks that item processed. -/
theorem stores_noteProcessedAtPos (h : page.Stores items) (j : Nat) :
    (page.noteProcessedAtPos (itemPos (items.map Item.payload) j)).Stores (items.modify j Item.mark) := by
  by_cases hj : j < items.length
  · obtain ⟨pre, it, post, rfl, rfl, hmod⟩ := List.exists_of_modify Item.mark hj
    obtain ⟨payload, flag⟩ := it
    rw [hmod, itemPos_split]
    have hdec := decode_of_stores h
    cases flag with
    | true => simpa [noteProcessedAtPos, hdec, Item.mark] using h
    | false => simpa [noteProcessedAtPos, hdec, Item.mark] using stores_markProcessed h
  · rw [List.modify_eq_self (Nat.le_of_not_lt hj)]
    simpa [noteProcessedAtPos, decode_of_stores_past h (Nat.le_of_not_lt hj)] using h

/-! ## Reading the items back -/

/-- The loop of `peek_index` steps over whole items. -/
theorem peekIndexLoop_heapOf : ∀ (items : List Item), (∀ it ∈ items, it.payload.length < 2 ^ 32) →
    ∀ (i pos : Nat), i ≤ items.length →
      peekIndexLoop i pos (heapOf items) = some (pos + itemPos (items.map Item.payload) i, heapOf (items.drop i))
  | _, _, 0, pos, _ => by simp [peekIndexLoop, itemPos]
  | [], _, _ + 1, _, hi => by simp at hi
  | it :: items, hfits, i + 1, pos, hi => by
    have hfit : it.payload.length < 2 ^ 32 := hfits it (by simp)
    have ih := peekIndexLoop_heapOf items (fun it' hit' => hfits it' (by simp [hit']))
      i (pos + (ItemHeader.maxEncodedLen + it.payload.length)) (by simpa using hi)
    have hpos : itemPos (it.payload :: items.map Item.payload) (i + 1) =
        ItemHeader.maxEncodedLen + it.payload.length + itemPos (items.map Item.payload) i := by
      simp [itemPos]
    simp [peekIndexLoop, Item.decode_bytes it hfit, ih, hpos, Nat.add_assoc]

/-- Past the last item the loop of `peek_index` finds no header. -/
theorem peekIndexLoop_past : ∀ (items : List Item), (∀ it ∈ items, it.payload.length < 2 ^ 32) →
    ∀ (i pos : Nat), items.length < i → peekIndexLoop i pos (heapOf items) = none
  | [], _, _ + 1, _, _ => rfl
  | it :: items, hfits, i + 1, pos, hi => by
    have hfit : it.payload.length < 2 ^ 32 := hfits it (by simp)
    have ih := peekIndexLoop_past items (fun it' hit' => hfits it' (by simp [hit']))
      i (pos + (ItemHeader.maxEncodedLen + it.payload.length)) (by simpa using hi)
    simp [peekIndexLoop, Item.decode_bytes it hfit, ih]

/-- `peek_index` reads item `i` back with its offset and flag, and `None` past the last item. -/
theorem peekIndex_of_stores (h : page.Stores items) (i : Nat) :
    page.peekIndex i = items[i]?.map fun it => (itemPos (items.map Item.payload) i, it.isProcessed, it.payload) := by
  rw [peekIndex, h.heap_eq]
  rcases Nat.lt_or_ge i items.length with hi | hi
  · have hfit := h.fits _ (List.getElem_mem hi)
    rw [peekIndexLoop_heapOf items h.fits i 0 (Nat.le_of_lt hi), List.drop_eq_getElem_cons hi, heapOf_cons,
      List.getElem?_eq_getElem hi]
    simp [Item.decode_bytes _ hfit]
  · rcases Nat.eq_or_lt_of_le hi with rfl | hlt
    · rw [peekIndexLoop_heapOf items h.fits _ 0 (Nat.le_refl _), List.drop_length, List.getElem?_eq_none hi]
      rfl
    · rw [peekIndexLoop_past items h.fits i 0 hlt, List.getElem?_eq_none hi]
      rfl

/-- `peek_first` reads item `first_index`, and `None` once `first` is past the last item. -/
theorem peekFirst_of_stores (h : page.Stores items) :
    page.peekFirst = (items.map Item.payload)[page.firstIndex]? := by
  by_cases hfi : page.firstIndex < items.length
  · have hle : ¬ page.first > page.last := Nat.not_lt.2 ((first_le_last_iff h).2 hfi)
    obtain ⟨pre, it, post, rfl, hpre, -⟩ := List.exists_of_modify Item.mark hfi
    have hf : min page.first page.heap.length = (heapOf pre).length := by
      rw [Nat.min_eq_left (first_le_heap h), h.first_eq, ← hpre, itemPos_split]
    simp [peekFirst, hle, hf, decode_of_stores h, ← hpre]
  · have hgt : page.first > page.last := Nat.lt_of_not_le (mt (first_le_last_iff h).1 hfi)
    have hnone : (items.map Item.payload)[page.firstIndex]? = none :=
      List.getElem?_eq_none (by simpa using Nat.le_of_not_lt hfi)
    simp [peekFirst, hgt, hnone]

theorem map_payload_modify_mark (items : List Item) (j : Nat) :
    (items.modify j Item.mark).map Item.payload = items.map Item.payload := by
  apply List.ext_getElem (by simp)
  intro n _ _
  simp only [List.getElem_map, List.getElem_modify]
  split <;> rfl

/-- What a page shows of `messages`: for some flags, `peek_index` reads each message back at its offset and `None` past
the last, `peek_first` reads message `first_index` while `first ≤ last`, and the counters are the number and bytes of
the unprocessed messages. -/
def Shows (page : Page) (messages : List (List UInt8)) : Prop :=
  ∃ items : List Item, items.map Item.payload = messages ∧
    (∀ i, page.peekIndex i = items[i]?.map fun it => (itemPos messages i, it.isProcessed, it.payload)) ∧
    page.first = itemPos messages page.firstIndex ∧
    (page.first ≤ page.last ↔ page.firstIndex < messages.length) ∧
    page.peekFirst = messages[page.firstIndex]? ∧
    page.remaining = remainingOf items ∧ page.remainingSize = remainingSizeOf items

theorem shows_of_stores (h : page.Stores items) : page.Shows (items.map Item.payload) :=
  ⟨items, rfl, peekIndex_of_stores h, h.first_eq, by simpa using first_le_last_iff h, peekFirst_of_stores h,
    h.remaining_eq, h.remainingSize_eq⟩

/-! ## Runs of calls -/

/-- `try_append_message` of each message in turn; `none` if one does not fit. -/
def appendAll (heapSize : Nat) (page : Page) : List (List UInt8) → Option Page
  | [] => some page
  | message :: messages => (page.tryAppendMessage heapSize message).bind fun page => page.appendAll heapSize messages

theorem stores_appendAll {heapSize : Nat} (hheap : heapSize < 2 ^ 32) : ∀ (messages : List (List UInt8))
    (page page' : Page) (items : List Item), page.Stores items → page.appendAll heapSize messages = some page' →
      page'.Stores (items ++ messages.map fun m => ⟨m, false⟩)
  | [], page, page', items, h, happ => by
    simp only [appendAll, Option.some.injEq] at happ
    subst happ
    simpa using h
  | message :: messages, page, page', items, h, happ => by
    simp only [appendAll, Option.bind_eq_some_iff] at happ
    obtain ⟨page₁, h₁, hrest⟩ := happ
    have hrun := stores_appendAll hheap messages page₁ page' _ (stores_tryAppendMessage hheap h h₁) hrest
    simpa using hrun

end Page

/-- The calls made on a page once its messages are in. -/
inductive PageOp
  | skipFirst (isProcessed : Bool)
  | noteProcessedAtPos (pos : Nat)
  deriving DecidableEq, Repr

/-- One call; `none` where `&self.heap[pos..]` of `note_processed_at_pos` is out of bounds and panics. The other slices
are in bounds: `skip_first` clamps `first` to the heap, and a header is written over the bytes it was read from
(`length_noteProcessedAtPos`). -/
def PageOp.apply : PageOp → Page → Option Page
  | .skipFirst isProcessed, page => some (page.skipFirst isProcessed)
  | .noteProcessedAtPos pos, page => if pos ≤ page.heap.length then some (page.noteProcessedAtPos pos) else none

/-- A run of calls, up to the first that panics. -/
def Page.runOps (page : Page) : List PageOp → Option Page
  | [] => some page
  | op :: ops => (op.apply page).bind fun page => page.runOps ops

namespace Page

variable {page : Page} {items : List Item}

/-- A call at the offset of an item does not panic, and the page stores the same messages. -/
theorem stores_apply (h : page.Stores items) {op : PageOp}
    (hop : ∀ pos, op = .noteProcessedAtPos pos → ∃ j, pos = itemPos (items.map Item.payload) j) :
    ∃ page' items', op.apply page = some page' ∧ page'.Stores items' ∧
      items'.map Item.payload = items.map Item.payload := by
  cases op with
  | skipFirst isProcessed =>
    refine ⟨_, _, rfl, stores_skipFirst h isProcessed, ?_⟩
    split
    · exact map_payload_modify_mark items _
    · rfl
  | noteProcessedAtPos pos =>
    obtain ⟨j, rfl⟩ := hop _ rfl
    refine ⟨_, _, ?_, stores_noteProcessedAtPos h j, map_payload_modify_mark items j⟩
    simp [PageOp.apply, itemPos_le_heap h j]

theorem stores_runOps : ∀ (ops : List PageOp) (page : Page) (items : List Item), page.Stores items →
    (∀ pos, PageOp.noteProcessedAtPos pos ∈ ops → ∃ j, pos = itemPos (items.map Item.payload) j) →
    ∃ page' items', page.runOps ops = some page' ∧ page'.Stores items' ∧
      items'.map Item.payload = items.map Item.payload
  | [], page, items, h, _ => ⟨page, items, rfl, h, rfl⟩
  | op :: ops, page, items, h, hops => by
    obtain ⟨page₁, items₁, happ, h₁, hmap₁⟩ :=
      stores_apply h (fun pos hpos => hops pos (hpos ▸ List.mem_cons_self))
    obtain ⟨page', items', hrun, h', hmap'⟩ :=
      stores_runOps ops page₁ items₁ h₁ (fun pos hpos => hmap₁ ▸ hops pos (List.mem_cons_of_mem _ hpos))
    exact ⟨page', items', by simp [runOps, happ, hrun], h', hmap'.trans hmap₁⟩

/-- A page built of `m0 :: ms` and then run through `skip_first` and `note_processed_at_pos` at item offsets never
panics and keeps showing its messages. -/
theorem page_run_keeps_items {heapSize : Nat} (hheap : heapSize < 2 ^ 32) {m0 : List UInt8}
    (hm0 : m0.length < 2 ^ 32) {ms : List (List UInt8)} {page : Page}
    (hbuild : (fromMessage m0).appendAll heapSize ms = some page) {ops : List PageOp}
    (hops : ∀ pos, PageOp.noteProcessedAtPos pos ∈ ops → ∃ j, pos = itemPos (m0 :: ms) j) :
    ∃ page', page.runOps ops = some page' ∧ page'.Shows (m0 :: ms) := by
  have hbuilt := stores_appendAll hheap ms _ _ _ (stores_fromMessage hm0) hbuild
  have hpay : ((⟨m0, false⟩ : Item) :: ms.map fun m => ⟨m, false⟩).map Item.payload = m0 :: ms := by
    simp [Function.comp_def]
  rw [List.singleton_append] at hbuilt
  obtain ⟨page', items', hrun, h', hmap⟩ := stores_runOps ops page _ hbuilt (by rw [hpay]; exact hops)
  refine ⟨page', hrun, ?_⟩
  rw [← hpay, ← hmap]
  exact shows_of_stores h'

theorem page_run_keeps_items_two :
    ∃ page', (⟨2, 3, 0, 0, 6, [1, 0, 0, 0, 0, 7, 2, 0, 0, 0, 0, 8, 9]⟩ : Page).runOps
      [.skipFirst true, .noteProcessedAtPos 6] = some page' ∧ page'.Shows [[7], [8, 9]] :=
  @page_run_keeps_items 16 (by decide) [7] (by decide) [[8, 9]]
    ⟨2, 3, 0, 0, 6, [1, 0, 0, 0, 0, 7, 2, 0, 0, 0, 0, 8, 9]⟩ (by decide) [.skipFirst true, .noteProcessedAtPos 6]
    (fun pos hpos => ⟨1, by simp_all [itemPos, ItemHeader.maxEncodedLen]⟩)

/-- At an offset inside a payload, `note_processed_at_pos` reads payload bytes as a header and writes a flag into the
payload: the counter drops though item `0` is not processed, and the page no longer shows its message. Past the heap it
panics. -/
theorem noteProcessedAtPos_inside_payload :
    (∃ page', (fromMessage [0, 0, 0, 0, 0]).runOps [.noteProcessedAtPos 5] = some page' ∧ page'.remaining = 0 ∧
      page'.peekIndex 0 = some (0, false, [0, 0, 0, 0, 1]) ∧ ¬ page'.Shows [[0, 0, 0, 0, 0]]) ∧
    (fromMessage []).runOps [.noteProcessedAtPos 6] = none := by
  have hpeek : ((fromMessage [0, 0, 0, 0, 0]).noteProcessedAtPos 5).peekIndex 0 = some (0, false, [0, 0, 0, 0, 1]) := by
    decide
  refine ⟨⟨_, rfl, rfl, hpeek, ?_⟩, rfl⟩
  rintro ⟨items, hmap, hread, -⟩
  have hpay : (items.map Item.payload)[0]? = some [0, 0, 0, 0, 0] := by rw [hmap]; rfl
  rw [List.getElem?_map] at hpay
  have h0 := hread 0
  rw [hpeek] at h0
  cases hit : items[0]? with
  | none => simp [hit] at hpay
  | some it =>
    simp only [hit, Option.map_some, Option.some.injEq, Prod.mk.injEq] at hpay h0
    rw [hpay] at h0
    simp at h0

end Page

end CoreChain.MessageQueue

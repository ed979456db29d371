import CoreChain.Lib.Bytes

/-!
# The freeing-bump allocator

The model of `substrate/client/allocator/src/freeing_bump.rs`. The heap is the linear memory from the aligned heap
base up; a block is an 8-byte header followed by a power of two of at least 8 bytes. A header is one little-endian
`u64`: bit 32 set with the order below it for a block in use, clear with the link to the next free block of its
order for a free one. The allocator keeps the head of one free list for each of the 23 orders, and a bumper: a
request for an order whose list is empty is served at the bumper, which moves up, growing the memory by doubling up
to its page limit.

`allocate` and `deallocate` return the heap they leave and what they return. `?` returns the heap as it is at
that point, and `armed` is the `PoisonBomb`: an error of the armed body poisons the allocator, after which every
call fails. Arithmetic in `u32` wraps, as in a release build (a debug build panics there instead).

The memory is the host's `Memory`: bytes, a page count and a page limit. A page is 64 KiB and the limit is at most
`MAX_WASM_PAGES`; `grow` adds zeroed pages up to the limit.
-/

namespace CoreChain.Allocator

/-- `Error`. -/
inductive Error where
  | requestedAllocationTooLarge
  | allocatorOutOfSpace
  | memoryShrinked
  | other (msg : String)
  deriving DecidableEq, Repr

/-- `ALIGNMENT`. -/
def alignment : Nat := 8

/-- `HEADER_SIZE`. -/
def headerSize : Nat := 8

/-- `N_ORDERS`. -/
def nOrders : Nat := 23

/-- `MIN_POSSIBLE_ALLOCATION`. -/
def minPossibleAllocation : Nat := 8

/-- `MAX_POSSIBLE_ALLOCATION` of `sp_core`, 32 MiB. -/
def maxPossibleAllocation : Nat := 33554432

/-- `NIL_MARKER`, `u32::MAX`. -/
def nilMarker : Nat := 4294967295

/-- `PAGE_SIZE`. -/
def pageSize : Nat := 65536

/-- `MAX_WASM_PAGES`: 4 GiB of pages. -/
def maxWasmPages : Nat := 4 * 1024 * 1024 * 1024 / pageSize

/-! ## Bit scans of `u32` -/

/-- `u32::trailing_zeros`: the zero bits below the lowest one bit, `32` for zero. -/
def trailingZeros (n : Nat) : Nat :=
  go 32 n
where
  go : Nat → Nat → Nat
    | 0, _ => 0
    | k + 1, n => if n % 2 = 1 then 0 else go k (n / 2) + 1

/-- `u32::next_power_of_two`: the least power of two not below `n`, found by doubling from `1` at most 32 times
(the sizes given to it are at most `MAX_POSSIBLE_ALLOCATION`). -/
def nextPowerOfTwo (n : Nat) : Nat :=
  go 32 1
where
  go : Nat → Nat → Nat
    | 0, p => p
    | k + 1, p => if p < n then go k (p * 2) else p

theorem nextPowerOfTwo_go {n : Nat} : ∀ (k j : Nat), n ≤ 2 ^ (j + k) → (j = 0 ∨ 2 ^ (j - 1) < n) →
    ∃ i, nextPowerOfTwo.go n k (2 ^ j) = 2 ^ i ∧ n ≤ 2 ^ i ∧ (i = 0 ∨ 2 ^ (i - 1) < n)
  | 0, j, hn, hinv => ⟨j, rfl, hn, hinv⟩
  | k + 1, j, hn, hinv => by
    unfold nextPowerOfTwo.go
    by_cases hlt : 2 ^ j < n
    · rw [if_pos hlt, ← pow_succ]
      apply nextPowerOfTwo_go k (j + 1)
      · rwa [show j + 1 + k = j + (k + 1) by omega]
      · exact .inr hlt
    · rw [if_neg hlt]
      exact ⟨j, rfl, by omega, hinv⟩

/-- A positive size up to `2 ^ 32` rounds up to a power of two less than twice it. -/
theorem nextPowerOfTwo_spec {n : Nat} (hn : n ≤ 2 ^ 32) :
    ∃ i, nextPowerOfTwo n = 2 ^ i ∧ n ≤ 2 ^ i ∧ (i = 0 ∨ 2 ^ (i - 1) < n) :=
  nextPowerOfTwo_go 32 0 hn (.inl rfl)

theorem trailingZeros_go_two_pow : ∀ (j k : Nat), j ≤ k → trailingZeros.go (k + 1) (2 ^ j) = j
  | 0, k, _ => by simp [trailingZeros.go]
  | j + 1, k, hj => by
    obtain ⟨k, rfl⟩ : ∃ k', k = k' + 1 := ⟨k - 1, by omega⟩
    have heven : 2 ^ (j + 1) % 2 = 0 := by rw [pow_succ, Nat.mul_mod_left]
    have hhalf : 2 ^ (j + 1) / 2 = 2 ^ j := by rw [pow_succ, Nat.mul_div_cancel _ (by decide)]
    rw [trailingZeros.go, if_neg (by omega), hhalf, trailingZeros_go_two_pow j k (by omega)]

theorem trailingZeros_two_pow {j : Nat} (hj : j ≤ 31) : trailingZeros (2 ^ j) = j :=
  trailingZeros_go_two_pow j 31 hj

/-! ## Orders, links and headers -/

/-- `Order`: the exponent of a block's size over the minimum, below `N_ORDERS`. -/
structure Order where
  raw : Nat
  lt : raw < nOrders
  deriving DecidableEq, Repr

/-- The order of a size of at most `MAX_POSSIBLE_ALLOCATION`, clamped from below, as `from_size` computes it. -/
def sizeOrder (size : Nat) : Nat :=
  let clampedSize := if size < minPossibleAllocation then minPossibleAllocation else size
  let powerOfTwoSize := nextPowerOfTwo clampedSize
  trailingZeros powerOfTwoSize - trailingZeros minPossibleAllocation

/-- A size of at most 32 MiB rounds up to `8 << order` with `order < 23`, and not past twice its clamped value. -/
theorem sizeOrder_spec {size : Nat} (h : size ≤ maxPossibleAllocation) :
    sizeOrder size < nOrders ∧ size ≤ 8 * 2 ^ sizeOrder size ∧
      (sizeOrder size = 0 ∨ 8 * 2 ^ sizeOrder size < 2 * size) := by
  have hmax : maxPossibleAllocation = 2 ^ 25 := rfl
  set clamped := if size < minPossibleAllocation then minPossibleAllocation else size with hclamped
  have hc₁ : 8 ≤ clamped := by
    rw [hclamped]
    unfold minPossibleAllocation
    split <;> omega
  have hc₂ : clamped ≤ 2 ^ 25 := by
    rw [hclamped]
    unfold minPossibleAllocation
    split <;> omega
  obtain ⟨i, hi, hle, hlow⟩ := nextPowerOfTwo_spec (n := clamped) (by omega)
  -- the power of two lies between 8 and 2 ^ 25
  have hi₃ : 3 ≤ i := by
    by_contra hlt
    have : 2 ^ i ≤ 2 ^ 2 := Nat.pow_le_pow_right (by decide) (by omega)
    omega
  have hi₂₅ : i ≤ 25 := by
    rcases hlow with rfl | hlow
    · omega
    · by_contra hgt
      have : 2 ^ 25 ≤ 2 ^ (i - 1) := Nat.pow_le_pow_right (by decide) (by omega)
      omega
  have horder : sizeOrder size = i - 3 := by
    show trailingZeros (nextPowerOfTwo clamped) - trailingZeros minPossibleAllocation = i - 3
    rw [hi, trailingZeros_two_pow (by omega)]
    rfl
  have hpow : 8 * 2 ^ (i - 3) = 2 ^ i := by
    rw [show (8 : Nat) = 2 ^ 3 from rfl, ← pow_add]
    congr 1
    omega
  rw [horder, hpow]
  refine ⟨by unfold nOrders; omega, ?_, ?_⟩
  · rw [hclamped] at hle
    unfold minPossibleAllocation at hle
    split at hle <;> omega
  · rcases hlow with rfl | hlow
    · omega
    · by_cases hi3 : i = 3
      · exact .inl (by omega)
      · right
        have hhalf : 2 ^ i = 2 * 2 ^ (i - 1) := by
          rw [← pow_succ']
          congr 1
          omega
        rw [hclamped] at hlow
        unfold minPossibleAllocation at hlow
        split at hlow
        · have : 2 ^ 3 ≤ 2 ^ (i - 1) := Nat.pow_le_pow_right (by decide) (by omega)
          omega
        · omega

namespace Order

/-- `Order::from_raw`. -/
def fromRaw (order : Nat) : Except Error Order :=
  if h : order < nOrders then .ok ⟨order, h⟩ else .error (.other "invalid order")

/-- `Order::from_size`: a size above 32 MiB is refused; a smaller one is clamped to 8, rounded up to a power of
two, and its order is the trailing zeros above those of 8. -/
def fromSize (size : Nat) : Except Error Order :=
  if h : size > maxPossibleAllocation then .error .requestedAllocationTooLarge
  else .ok ⟨sizeOrder size, (sizeOrder_spec (Nat.le_of_not_lt h)).1⟩

/-- `Order::size`: `MIN_POSSIBLE_ALLOCATION << order`. -/
def size (o : Order) : Nat :=
  minPossibleAllocation <<< o.raw

theorem size_eq (o : Order) : o.size = 8 * 2 ^ o.raw :=
  Nat.shiftLeft_eq _ _

end Order

/-- `Link`: the end of a free list, or the header of the next free block. -/
inductive Link where
  | nil
  | ptr (p : Nat)
  deriving DecidableEq, Repr

namespace Link

/-- `Link::from_raw`. -/
def fromRaw (raw : Nat) : Link :=
  if raw ≠ nilMarker then .ptr raw else .nil

/-- `Link::into_raw`. -/
def intoRaw : Link → Nat
  | .nil => nilMarker
  | .ptr p => p

end Link

/-- `Header`. -/
inductive Header where
  | free (link : Link)
  | occupied (order : Order)
  deriving DecidableEq, Repr

namespace Header

/-- `Header::into_occupied`. -/
def intoOccupied : Header → Option Order
  | .occupied order => some order
  | _ => none

/-- `Header::into_free`. -/
def intoFree : Header → Option Link
  | .free link => some link
  | _ => none

end Header

/-! ## The linear memory -/

/-- A wasm linear memory, as the `Memory` trait gives it: its bytes, its pages, and its page limit, which is at most
`MAX_WASM_PAGES` and at least the pages it has. -/
structure Memory where
  data : Nat → UInt8
  pages : Nat
  maxPages : Option Nat
  maxPages_le : maxPages.getD maxWasmPages ≤ maxWasmPages
  pages_le : pages ≤ maxPages.getD maxWasmPages

namespace Memory

/-- `MemoryExt::size`. -/
def size (m : Memory) : Nat :=
  m.pages * pageSize

/-- A zeroed memory of `pages` pages with no limit of its own. -/
def zeroed (pages : Nat) (h : pages ≤ maxWasmPages) : Memory :=
  ⟨fun _ => 0, pages, none, Nat.le_refl _, h⟩

/-- `grow`: zeroed pages are added up to the limit. -/
def grow (m : Memory) (additional : Nat) : Option Memory :=
  if h : m.pages + additional ≤ m.maxPages.getD maxWasmPages then
    some ⟨fun a => if a < m.size then m.data a else 0, m.pages + additional, m.maxPages, m.maxPages_le, h⟩
  else none

end Memory

/-- `heap_range`: the range of `length` bytes from `offset`, if it is within `u32` and the memory. -/
def heapRange (offset length heapLen : Nat) : Option (Nat × Nat) :=
  if offset + length < 2 ^ 32 then
    if offset + length ≤ heapLen then some (offset, offset + length) else none
  else none

namespace Memory

/-- `MemoryExt::read_le_u64`. -/
def readLeU64 (m : Memory) (ptr : Nat) : Except Error Nat :=
  match heapRange ptr 8 m.size with
  | none => .error (.other "read out of heap bounds")
  | some _ => .ok (readLe m.data ptr 8)

/-- `MemoryExt::write_le_u64`. -/
def writeLeU64 (m : Memory) (ptr val : Nat) : Except Error Memory :=
  match heapRange ptr 8 m.size with
  | none => .error (.other "write out of heap bounds")
  | some _ => .ok { m with data := writeLe m.data ptr 8 val }

end Memory

namespace Header

/-- `Header::read_from`: bit 32 tells an occupied header from a free one, the low 32 bits hold the order or the
link. -/
def readFrom (memory : Memory) (headerPtr : Nat) : Except Error Header := do
  let rawHeader ← memory.readLeU64 headerPtr
  let occupied := rawHeader &&& 0x100000000 != 0
  let headerData := rawHeader % 2 ^ 32
  if occupied then
    return .occupied (← Order.fromRaw headerData)
  else
    return .free (Link.fromRaw headerData)

/-- `Header::write_into`. -/
def writeInto (h : Header) (memory : Memory) (headerPtr : Nat) : Except Error Memory :=
  let (headerData, occupiedMask) := match h with
    | .occupied order => (order.raw, 0x100000000)
    | .free link => (link.intoRaw, 0)
  let rawHeader := headerData ||| occupiedMask
  memory.writeLeU64 headerPtr rawHeader

end Header

/-! ## The allocator -/

/-- `FreeLists`: the head of the free list of every order. -/
structure FreeLists where
  heads : Order → Link

namespace FreeLists

/-- `FreeLists::new`. -/
def new : FreeLists :=
  ⟨fun _ => .nil⟩

/-- `free_lists[order] = link`. -/
def set (f : FreeLists) (order : Order) (link : Link) : FreeLists :=
  ⟨fun o => if o = order then link else f.heads o⟩

/-- `FreeLists::replace`: the old head and the lists with the new one. -/
def replace (f : FreeLists) (order : Order) (new : Link) : Link × FreeLists :=
  (f.heads order, f.set order new)

end FreeLists

/-- `AllocationStats`. -/
structure AllocationStats where
  bytesAllocated : Nat := 0
  bytesAllocatedPeak : Nat := 0
  bytesAllocatedSum : Nat := 0
  addressSpaceUsed : Nat := 0

/-- `pages_from_size`: the pages that hold `size` bytes, if their number fits in `u32`. -/
def pagesFromSize (size : Nat) : Option Nat :=
  let pages := (size + pageSize - 1) / pageSize
  if pages < 2 ^ 32 then some pages else none

/-- `FreeingBumpHeapAllocator`. -/
structure FreeingBumpHeapAllocator where
  originalHeapBase : Nat
  bumper : Nat
  freeLists : FreeLists
  poisoned : Bool
  lastObservedMemorySize : Nat
  stats : AllocationStats

namespace FreeingBumpHeapAllocator

/-- `FreeingBumpHeapAllocator::new`: the heap base rounded up to the alignment, in `u32`. -/
def new (heapBase : Nat) : FreeingBumpHeapAllocator :=
  let alignedHeapBase := (heapBase + alignment - 1) / alignment * alignment % 2 ^ 32
  ⟨alignedHeapBase, alignedHeapBase, FreeLists.new, false, 0, {}⟩

end FreeingBumpHeapAllocator

/-- `bump`: the bumper and the memory after moving the bumper up by `size`, growing the memory when it is too
small, and the bumper before. -/
def bump (bumper size : Nat) (memory : Memory) : Except Error (Nat × Nat × Memory) := do
  let requiredSize := bumper + size
  let memory ← if requiredSize > memory.size then do
      let requiredPages ← match pagesFromSize requiredSize with
        | some pages => pure pages
        | none => throw .allocatorOutOfSpace
      let currentPages := memory.pages
      let maxPages := memory.maxPages.getD maxWasmPages
      if currentPages ≥ maxPages then throw .allocatorOutOfSpace
      if requiredPages > maxPages then throw .allocatorOutOfSpace
      -- double the pages, up to the limit, or take what is required if that is more
      let nextPages := max (min (currentPages * 2) maxPages) requiredPages
      match memory.grow (nextPages - currentPages) with
      | some memory => pure memory
      | none => throw .allocatorOutOfSpace
    else pure memory
  pure (bumper, (bumper + size) % 2 ^ 32, memory)

/-- `observe_memory_size`: the new observed size, unless the memory shrank. -/
def observeMemorySize (lastObservedMemorySize : Nat) (mem : Memory) : Except Error Nat :=
  if mem.size < lastObservedMemorySize then .error .memoryShrinked else .ok mem.size

/-- The allocator and the linear memory it is given. -/
structure Heap where
  allocator : FreeingBumpHeapAllocator
  memory : Memory

namespace Heap

/-- The heap with the allocator changed. -/
def withAllocator (h : Heap) (f : FreeingBumpHeapAllocator → FreeingBumpHeapAllocator) : Heap :=
  { h with allocator := f h.allocator }

/-- `PoisonBomb`: an error of the armed body poisons the allocator. -/
def armed {α : Type} : Heap × Except Error α → Heap × Except Error α
  | (h, .ok a) => (h, .ok a)
  | (h, .error e) => (h.withAllocator fun a => { a with poisoned := true }, .error e)

/-- The header of a new block of `order`: the head of its free list, taken off the list, or the bumper, bumped. -/
def takeBlock (h : Heap) (order : Order) : Heap × Except Error Nat :=
  match h.allocator.freeLists.heads order with
  | .ptr headerPtr =>
    if headerPtr + order.size + headerSize > h.memory.size then
      (h, .error (.other "Invalid header pointer detected"))
    else
      match (Header.readFrom h.memory headerPtr).bind fun header =>
          match header.intoFree with
          | some link => .ok link
          | none => .error (.other "free list points to a occupied header") with
      | .error e => (h, .error e)
      | .ok nextFree =>
        (h.withAllocator fun a => { a with freeLists := a.freeLists.set order nextFree }, .ok headerPtr)
  | .nil =>
    match bump h.allocator.bumper (order.size + headerSize) h.memory with
    | .error e => (h, .error e)
    | .ok (headerPtr, bumper, memory) => ({ allocator := { h.allocator with bumper }, memory }, .ok headerPtr)

/-- The stats after an allocation of `order`. -/
def recordAllocation (a : FreeingBumpHeapAllocator) (order : Order) : FreeingBumpHeapAllocator :=
  let bytesAllocated := (a.stats.bytesAllocated + (order.size + headerSize)) % 2 ^ 32
  { a with stats :=
    { bytesAllocated
      bytesAllocatedSum := a.stats.bytesAllocatedSum + (order.size + headerSize)
      bytesAllocatedPeak := max a.stats.bytesAllocatedPeak bytesAllocated
      addressSpaceUsed := (a.bumper + 2 ^ 32 - a.originalHeapBase) % 2 ^ 32 } }

/-- The body of `allocate` while the bomb is armed. -/
def allocateArmed (h : Heap) (size : Nat) : Heap × Except Error Nat :=
  match observeMemorySize h.allocator.lastObservedMemorySize h.memory with
  | .error e => (h, .error e)
  | .ok lastObservedMemorySize =>
    let h := h.withAllocator fun a => { a with lastObservedMemorySize }
    match Order.fromSize size with
    | .error e => (h, .error e)
    | .ok order =>
      match h.takeBlock order with
      | (h, .error e) => (h, .error e)
      | (h, .ok headerPtr) =>
        match (Header.occupied order).writeInto h.memory headerPtr with
        | .error e => (h, .error e)
        | .ok memory =>
          ({ allocator := recordAllocation h.allocator order, memory }, .ok (headerPtr + headerSize))

/-- `FreeingBumpHeapAllocator::allocate`. -/
def allocate (h : Heap) (size : Nat) : Heap × Except Error Nat :=
  if h.allocator.poisoned then (h, .error (.other "the allocator has been poisoned"))
  else armed (h.allocateArmed size)

/-- The body of `deallocate` while the bomb is armed. -/
def deallocateArmed (h : Heap) (ptr : Nat) : Heap × Except Error Unit :=
  match observeMemorySize h.allocator.lastObservedMemorySize h.memory with
  | .error e => (h, .error e)
  | .ok lastObservedMemorySize =>
    let h := h.withAllocator fun a => { a with lastObservedMemorySize }
    if ptr < headerSize then (h, .error (.other "Invalid pointer for deallocation"))
    else
      let headerPtr := ptr - headerSize
      match (Header.readFrom h.memory headerPtr).bind fun header =>
          match header.intoOccupied with
          | some order => .ok order
          | none => .error (.other "the allocation points to an empty header") with
      | .error e => (h, .error e)
      | .ok order =>
        -- the freed block becomes the head of its order's list, its header linking to the old head
        let (prevHead, freeLists) := h.allocator.freeLists.replace order (.ptr headerPtr)
        let h := h.withAllocator fun a => { a with freeLists }
        match (Header.free prevHead).writeInto h.memory headerPtr with
        | .error e => (h, .error e)
        | .ok memory =>
          let h := { h with memory }
          if h.allocator.stats.bytesAllocated < order.size + headerSize then
            (h, .error (.other "underflow of the currently allocated bytes count"))
          else
            (h.withAllocator fun a => { a with stats :=
              { a.stats with bytesAllocated := a.stats.bytesAllocated - (order.size + headerSize) } }, .ok ())

/-- `FreeingBumpHeapAllocator::deallocate`. -/
def deallocate (h : Heap) (ptr : Nat) : Heap × Except Error Unit :=
  if h.allocator.poisoned then (h, .error (.other "the allocator has been poisoned"))
  else armed (h.deallocateArmed ptr)

end Heap

end CoreChain.Allocator

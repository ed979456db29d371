import CoreChain.Allocator.FreeingBump

/-!
# What `bump` and the headers do

`bump` moves the bumper by the size of the block when the memory already holds it (`bump_of_le`), and otherwise
grows the memory to hold it (`bump_ok`). Either way the new bumper is the old one plus the size, in `u32`: when the
block ends the heap exactly at 4 GiB, the largest memory there is, the bumper wraps to zero
(`allocate_bumper_wraps_of_top`), and the next allocation served at the bumper is at the bottom of the memory,
below the heap (`allocate_bumper_wraps`).

A header written into memory reads back as the same header (`readFrom_writeInto`).
-/

namespace CoreChain.Allocator

/-! ## Headers -/

theorem heapRange_of_lt {ptr len : Nat} (h₁ : ptr + 8 < 2 ^ 32) (h₂ : ptr + 8 ≤ len) :
    heapRange ptr 8 len = some (ptr, ptr + 8) := by
  unfold heapRange
  rw [if_pos h₁, if_pos h₂]

theorem writeLeU64_of_lt {m : Memory} {ptr val : Nat} (h₁ : ptr + 8 < 2 ^ 32) (h₂ : ptr + 8 ≤ m.size) :
    m.writeLeU64 ptr val = .ok { m with data := writeLe m.data ptr 8 val } := by
  unfold Memory.writeLeU64
  rw [heapRange_of_lt h₁ h₂]

theorem readLeU64_of_lt {m : Memory} {ptr : Nat} (h₁ : ptr + 8 < 2 ^ 32) (h₂ : ptr + 8 ≤ m.size) :
    m.readLeU64 ptr = .ok (readLe m.data ptr 8) := by
  unfold Memory.readLeU64
  rw [heapRange_of_lt h₁ h₂]

/-- A header whose link is a `u32` that is not the nil marker, or is nil. -/
def Header.Valid : Header → Prop
  | .free .nil => True
  | .free (.ptr p) => p < nilMarker
  | .occupied _ => True

/-- The raw `u64` of a header. -/
def Header.raw : Header → Nat
  | .occupied order => order.raw ||| 0x100000000
  | .free link => link.intoRaw ||| 0

theorem Header.writeInto_eq (header : Header) (m : Memory) (ptr : Nat) :
    header.writeInto m ptr = m.writeLeU64 ptr header.raw := by
  cases header <;> rfl

theorem Header.raw_lt {header : Header} (hv : header.Valid) : header.raw < 256 ^ 8 := by
  cases header with
  | occupied order =>
    have ho : order.raw < 2 ^ 32 := by
      have := order.lt
      unfold nOrders at this
      omega
    exact flag_lt (n := 64) ho (by decide)
  | free link =>
    cases link with
    | nil => simp [raw, Link.intoRaw, nilMarker]
    | ptr p =>
      simp only [Valid, nilMarker] at hv
      simp only [raw, Link.intoRaw, Nat.or_zero]
      omega

theorem Header.readFrom_raw {header : Header} (hv : header.Valid) {m : Memory} {ptr : Nat}
    (h₁ : ptr + 8 < 2 ^ 32) (h₂ : ptr + 8 ≤ m.size) (hraw : readLe m.data ptr 8 = header.raw) :
    Header.readFrom m ptr = .ok header := by
  unfold Header.readFrom
  rw [readLeU64_of_lt h₁ h₂, hraw]
  cases header with
  | occupied order =>
    obtain ⟨o, ho⟩ := order
    have ho' : o < 2 ^ 32 := by
      unfold nOrders at ho
      omega
    -- bit 32 is set, and the order is below it
    have hflag : (o ||| 4294967296) &&& 4294967296 = 4294967296 := flag_and (k := 32)
    have hmod : (o ||| 4294967296) % 4294967296 = o := flag_mod (k := 32) ho'
    simp [raw, bind, Except.bind, pure, Except.pure, hflag, hmod, Order.fromRaw, ho]
  | free link =>
    have hl : link.intoRaw < 2 ^ 32 := by
      cases link with
      | nil => simp [Link.intoRaw, nilMarker]
      | ptr p =>
        simp only [Valid, nilMarker] at hv
        show p < 2 ^ 32
        omega
    -- bit 32 is clear, and the link is below it
    have hand : link.intoRaw &&& 4294967296 = 0 := field_and (k := 32) hl
    have hmod : link.intoRaw % 4294967296 = link.intoRaw := Nat.mod_eq_of_lt hl
    have hlink : Link.fromRaw link.intoRaw = link := by
      cases link with
      | nil => rfl
      | ptr p =>
        simp only [Valid] at hv
        show Link.fromRaw p = .ptr p
        unfold Link.fromRaw
        rw [if_pos (Nat.ne_of_lt hv)]
    simp [raw, bind, Except.bind, pure, Except.pure, hand, hmod, hlink]

theorem Header.readFrom_writeInto {header : Header} (hv : header.Valid) {m m' : Memory} {ptr : Nat}
    (h₁ : ptr + 8 < 2 ^ 32) (h₂ : ptr + 8 ≤ m.size) (hw : header.writeInto m ptr = .ok m') :
    Header.readFrom m' ptr = .ok header := by
  rw [Header.writeInto_eq, writeLeU64_of_lt h₁ h₂] at hw
  cases hw
  exact Header.readFrom_raw hv h₁ h₂ (readLe_writeLe_self ptr 8 _ (Header.raw_lt hv))

/-- One zeroed page. -/
def samplePage : Memory := ⟨fun _ => 0, 1, none, le_refl _, by decide⟩

theorem readFrom_writeInto_samplePage :
    Header.readFrom { samplePage with data := writeLe samplePage.data 8 8 (Header.free (.ptr 16)).raw } 8 =
      .ok (.free (.ptr 16)) :=
  Header.readFrom_writeInto (m := samplePage)
    (show Header.Valid (.free (.ptr 16)) from show (16 : Nat) < nilMarker by decide) (by decide) (by decide)
    (by rw [Header.writeInto_eq, writeLeU64_of_lt (by decide) (by decide)])

/-! ## The bumper -/

/-- When the memory already holds the block, `bump` moves the bumper and leaves the memory. -/
theorem bump_of_le {bumper size : Nat} {memory : Memory} (h : bumper + size ≤ memory.size) :
    bump bumper size memory = .ok (bumper, (bumper + size) % 2 ^ 32, memory) := by
  unfold bump
  rw [if_neg (by omega)]
  rfl

theorem Memory.grow_some {m m' : Memory} {additional : Nat} (h : m.grow additional = some m') :
    m'.pages = m.pages + additional ∧ ∀ a < m.size, m'.data a = m.data a := by
  unfold Memory.grow at h
  split at h
  · cases h
    exact ⟨rfl, fun a ha => if_pos ha⟩
  · cases h

theorem pagesFromSize_some {size pages : Nat} (h : pagesFromSize size = some pages) : size ≤ pages * pageSize := by
  simp only [pagesFromSize] at h
  split at h
  · cases h
    unfold pageSize
    omega
  · cases h

/-- `bump` returns the bumper, moves it by `size` in `u32`, and leaves a memory that holds the block and keeps the
bytes of the old one. -/
theorem bump_ok {bumper size : Nat} {memory memory' : Memory} {res bumper' : Nat}
    (h : bump bumper size memory = .ok (res, bumper', memory')) :
    res = bumper ∧ bumper' = (bumper + size) % 2 ^ 32 ∧ bumper + size ≤ memory'.size ∧
      memory.pages ≤ memory'.pages ∧ ∀ a < memory.size, memory'.data a = memory.data a := by
  by_cases hle : bumper + size ≤ memory.size
  · rw [bump_of_le hle] at h
    cases h
    exact ⟨rfl, rfl, hle, Nat.le_refl _, fun _ _ => rfl⟩
  · -- the memory grows to at least the required pages
    unfold bump at h
    rw [if_pos (by omega)] at h
    cases hp : pagesFromSize (bumper + size) with
    | none => simp [hp, bind, Except.bind, throw, throwThe, MonadExceptOf.throw] at h
    | some requiredPages =>
      have hreq := pagesFromSize_some hp
      simp only [hp, bind, Except.bind, pure, Except.pure, throw, throwThe, MonadExceptOf.throw] at h
      -- the refusals at the page limit are errors, so the memory grew
      split_ifs at h with hcur hmax
      cases hg : memory.grow (max (min (memory.pages * 2) (memory.maxPages.getD maxWasmPages)) requiredPages -
            memory.pages) with
      | none => simp [hg] at h
      | some grown =>
        simp only [hg, Except.ok.injEq, Prod.mk.injEq] at h
        obtain ⟨rfl, rfl, rfl⟩ := h
        obtain ⟨hpages, hdata⟩ := Memory.grow_some hg
        refine ⟨rfl, rfl, ?_, by omega, hdata⟩
        have hnext : requiredPages ≤ grown.pages := by omega
        unfold Memory.size
        exact hreq.trans (Nat.mul_le_mul_right _ hnext)

/-! ## Allocation -/

/-- A size class whose free list is empty takes its block at the bumper. -/
theorem Heap.takeBlock_of_nil {h : Heap} {order : Order} {ptr bumper : Nat} {memory : Memory}
    (hnil : h.allocator.freeLists.heads order = .nil)
    (hbump : bump h.allocator.bumper (order.size + headerSize) h.memory = .ok (ptr, bumper, memory)) :
    h.takeBlock order = ({ allocator := { h.allocator with bumper }, memory }, .ok ptr) := by
  rw [Heap.takeBlock, hnil, hbump]

/-- The armed body of `allocate` where no step fails: the block's header is written and the pointer after it is
returned. Each result is rewritten before its `match` is reduced, so the kernel never unfolds the callee. -/
theorem Heap.allocateArmed_of_ok {h h' : Heap} {size n ptr : Nat} {order : Order} {memory : Memory}
    (hobs : observeMemorySize h.allocator.lastObservedMemorySize h.memory = .ok n)
    (hord : Order.fromSize size = .ok order)
    (htake : (h.withAllocator fun a => { a with lastObservedMemorySize := n }).takeBlock order = (h', .ok ptr))
    (hwrite : (Header.occupied order).writeInto h'.memory ptr = .ok memory) :
    h.allocateArmed size =
      ({ allocator := Heap.recordAllocation h'.allocator order, memory }, .ok (ptr + headerSize)) := by
  rw [Heap.allocateArmed, hobs, hord]
  dsimp only
  rw [htake]
  dsimp only
  rw [hwrite]

/-- An allocation served at the bumper that ends the heap exactly at 4 GiB, in a memory of 4 GiB, succeeds and
wraps the bumper to zero. -/
theorem allocate_bumper_wraps_of_top {h : Heap} {size : Nat} {order : Order}
    (hp : h.allocator.poisoned = false) (hobs : h.allocator.lastObservedMemorySize ≤ h.memory.size)
    (hord : Order.fromSize size = .ok order) (hnil : h.allocator.freeLists.heads order = .nil)
    (htop : h.allocator.bumper + (order.size + headerSize) = 2 ^ 32) (hfull : h.memory.size = 2 ^ 32) :
    (h.allocate size).2 = .ok (h.allocator.bumper + headerSize) ∧ (h.allocate size).1.allocator.bumper = 0 := by
  have hsize : 8 ≤ order.size := by
    rw [Order.size_eq]
    have := Nat.one_le_two_pow (n := order.raw)
    omega
  have hobs' : observeMemorySize h.allocator.lastObservedMemorySize h.memory = .ok h.memory.size := by
    unfold observeMemorySize
    rw [if_neg (by omega)]
  have hbump : bump h.allocator.bumper (order.size + headerSize) h.memory =
      .ok (h.allocator.bumper, 0, h.memory) := by
    rw [bump_of_le (by omega), htop, Nat.mod_self]
  have hwrite : (Header.occupied order).writeInto h.memory h.allocator.bumper =
      .ok { h.memory with data := writeLe h.memory.data h.allocator.bumper 8 (Header.occupied order).raw } := by
    rw [Header.writeInto_eq]
    unfold headerSize at htop
    exact writeLeU64_of_lt (by omega) (by omega)
  have harmed := Heap.allocateArmed_of_ok hobs' hord (Heap.takeBlock_of_nil hnil hbump) hwrite
  rw [Heap.allocate, hp, if_neg Bool.false_ne_true, harmed]
  exact ⟨rfl, rfl⟩

/-- A heap based at `2 ^ 32 - 16` in a memory of 4 GiB: the first allocation of 8 bytes takes the last 16 bytes and
wraps the bumper to zero; the second is served at address 8, below the heap base. -/
theorem allocate_bumper_wraps :
    (Heap.allocate ⟨.new 4294967280, .zeroed 65536 (Nat.le_refl _)⟩ 8).2 = .ok 4294967288 ∧
    (Heap.allocate ⟨.new 4294967280, .zeroed 65536 (Nat.le_refl _)⟩ 8).1.allocator.bumper = 0 ∧
    (Heap.allocate (Heap.allocate ⟨.new 4294967280, .zeroed 65536 (Nat.le_refl _)⟩ 8).1 8).2 = .ok 8 := by
  refine ⟨rfl, rfl, rfl⟩

end CoreChain.Allocator

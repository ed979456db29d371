import Mathlib
import CoreChain.Lib.Machine

/-!
# The broker pallet: regions

The storage of `substrate/frame/broker` that the sale and region calls read and write (`types.rs`), and the region
calls of `dispatchable_impls.rs` and `utility_impls.rs`: `issue`, `do_transfer`, `do_partition`, `do_interlace`,
`utilize`, `do_assign`, `do_pool` and `do_drop_region`.

A `CoreMask` is a `BitVec 80`: the source's `[u8; 10]` with its bytewise `&`, `^` and `!`. Timeslices are `u32`:
`saturating_add` stops at `u32::MAX`, and the `+ 1` of `utilize` wraps as in a release build. Storage maps are
functions to `Option`; `Configuration` is set before the calls and is a parameter. The workplan, the instantaneous
pool and the events are not read by these calls and are left out, as are the task and payee arguments of
`do_assign` and `do_pool`, which only reach them.
-/

namespace CoreChain.Broker

/-- `u16::MAX`, the bound of a `CoreIndex`. -/
def u16Max : Nat := 2 ^ 16 - 1

/-- `u32::MAX`, the bound of a `Timeslice`. -/
def u32Max : Nat := 2 ^ 32 - 1

/-- `CoreMask`: the 80 regularity parts of a core. -/
abbrev CoreMask := BitVec 80

/-- `CoreMask::void`. -/
def CoreMask.void : CoreMask := 0#80

/-- `CoreMask::complete`. -/
def CoreMask.complete : CoreMask := BitVec.allOnes 80

/-- `CoreMask::is_void`. -/
def CoreMask.isVoid (m : CoreMask) : Bool := m == CoreMask.void

/-- `CoreMask::is_complete`. -/
def CoreMask.isComplete (m : CoreMask) : Bool := m == CoreMask.complete

/-- `RegionId`. -/
structure RegionId where
  begin : Nat
  core : Nat
  mask : CoreMask
  deriving DecidableEq, Repr

/-- `RegionRecord`. -/
structure RegionRecord (A : Type) where
  «end» : Nat
  owner : Option A
  paid : Option Nat
  deriving DecidableEq, Repr

/-- `Finality`. -/
inductive Finality where
  | provisional
  | final
  deriving DecidableEq, Repr

/-- `CompletionStatus`, without the workload of a complete one. -/
inductive CompletionStatus where
  | partialMask (mask : CoreMask)
  | complete
  deriving DecidableEq, Repr

/-- `CompletionStatus::drain_complete`, as whether there is a workload to drain. -/
def CompletionStatus.isComplete : CompletionStatus → Bool
  | .complete => true
  | .partialMask _ => false

/-- `PotentialRenewalRecord`. -/
structure PotentialRenewalRecord where
  price : Nat
  completion : CompletionStatus
  deriving DecidableEq, Repr

/-- `SaleInfoRecord`, without the sellout price and the ideal number of cores, which only the price adapter reads. -/
structure SaleInfoRecord where
  saleStart : Nat
  leadinLength : Nat
  endPrice : Nat
  regionBegin : Nat
  regionEnd : Nat
  coresOffered : Nat
  firstCore : Nat
  coresSold : Nat
  deriving DecidableEq, Repr

/-- `StatusRecord`, without the pool sizes and `last_timeslice`, which only the pool reads. -/
structure StatusRecord where
  coreCount : Nat
  lastCommittedTimeslice : Nat
  deriving DecidableEq, Repr

/-- `LeaseRecordItem`. -/
structure LeaseRecordItem where
  «until» : Nat
  task : Nat
  deriving DecidableEq, Repr

/-- `AutoRenewalRecord`. -/
structure AutoRenewalRecord where
  core : Nat
  task : Nat
  nextRenewal : Nat
  deriving DecidableEq, Repr

/-- `ConfigRecord`, with the fields the calls read; `renewal_bump * price` is a function of the price. -/
structure ConfigRecord where
  interludeLength : Nat
  leadinLength : Nat
  regionLength : Nat
  limitCoresOffered : Option Nat
  renewalBump : Nat → Nat

/-- The storage the calls read and write: `Status`, `SaleInfo`, `Regions`, `PotentialRenewals` (keyed by core and
timeslice), the number of `Reservations`, `Leases` and `AutoRenewals`. -/
structure State (A : Type) where
  status : Option StatusRecord
  saleInfo : Option SaleInfoRecord
  regions : RegionId → Option (RegionRecord A)
  potentialRenewals : Nat × Nat → Option PotentialRenewalRecord
  reservations : Nat
  leases : List LeaseRecordItem
  autoRenewals : List AutoRenewalRecord

/-- The variants of `Error` the calls return, and `funds` for a failed withdrawal. -/
inductive Error where
  | uninitialized
  | noSales
  | unavailable
  | soldOut
  | tooEarly
  | overpriced
  | notAllowed
  | incompleteAssignment
  | unknownRegion
  | notOwner
  | pivotTooLate
  | pivotTooEarly
  | exteriorPivot
  | voidPivot
  | completePivot
  | stillValid
  | funds
  deriving DecidableEq, Repr

/-- `Option::ok_or`. -/
def okOr {α : Type} (o : Option α) (e : Error) : Except Error α :=
  match o with
  | some a => .ok a
  | none => .error e

variable {A : Type}

namespace State

/-- `Regions::insert` (`some`) and `Regions::remove` (`none`). -/
def setRegion (s : State A) (regionId : RegionId) (region : Option (RegionRecord A)) : State A :=
  { s with regions := Function.update s.regions regionId region }

end State

/-- `Pallet::issue`. -/
def issue (s : State A) (core begin : Nat) (mask : CoreMask) («end» : Nat) (owner : Option A) (paid : Option Nat) :
    State A × RegionId :=
  let regionId : RegionId := ⟨begin, core, mask⟩
  (s.setRegion regionId (some ⟨«end», owner, paid⟩), regionId)

variable [DecidableEq A]

/-- The owner check the region calls share: `ensure!(Some(check_owner) == region.owner, NotOwner)`. -/
def checkOwner (maybeCheckOwner : Option A) (region : RegionRecord A) : Except Error Unit :=
  match maybeCheckOwner with
  | none => .ok ()
  | some owner => if some owner = region.owner then .ok () else .error .notOwner

/-- `do_transfer`. -/
def doTransfer (s : State A) (regionId : RegionId) (maybeCheckOwner : Option A) (newOwner : A) :
    Except Error (State A) := do
  let region ← okOr (s.regions regionId) .unknownRegion
  checkOwner maybeCheckOwner region
  pure (s.setRegion regionId (some { region with owner := some newOwner }))

/-- `do_partition`. -/
def doPartition (s : State A) (regionId : RegionId) (maybeCheckOwner : Option A) (pivotOffset : Nat) :
    Except Error (State A × RegionId × RegionId) := do
  let region ← okOr (s.regions regionId) .unknownRegion
  checkOwner maybeCheckOwner region
  let pivot := min (regionId.begin + pivotOffset) u32Max
  if region.«end» ≤ pivot then throw .pivotTooLate
  if pivot ≤ regionId.begin then throw .pivotTooEarly
  let region := { region with paid := none }
  let newRegionIds := (regionId, { regionId with begin := pivot })
  let s := s.setRegion newRegionIds.1 (some { region with «end» := pivot })
  pure (s.setRegion newRegionIds.2 (some region), newRegionIds)

/-- `do_interlace`. -/
def doInterlace (s : State A) (regionId : RegionId) (maybeCheckOwner : Option A) (pivot : CoreMask) :
    Except Error (State A × RegionId × RegionId) := do
  let region ← okOr (s.regions regionId) .unknownRegion
  checkOwner maybeCheckOwner region
  if !CoreMask.isVoid (pivot &&& ~~~regionId.mask) then throw .exteriorPivot
  if CoreMask.isVoid pivot then throw .voidPivot
  if pivot = regionId.mask then throw .completePivot
  let s := s.setRegion regionId none
  let one := { regionId with mask := pivot }
  let s := s.setRegion one (some region)
  let other := { regionId with mask := regionId.mask ^^^ pivot }
  pure (s.setRegion other (some region), one, other)

/-- `utilize`: the region is taken out; one whose begin is already committed starts after the last committed
timeslice, or is dropped if nothing is left of it; a provisional use puts it back. -/
def utilize (s : State A) (regionId : RegionId) (maybeCheckOwner : Option A) (finality : Finality) :
    Except Error (State A × Option (RegionId × RegionRecord A)) := do
  let status ← okOr s.status .uninitialized
  let region ← okOr (s.regions regionId) .unknownRegion
  checkOwner maybeCheckOwner region
  let s := s.setRegion regionId none
  let finish (regionId : RegionId) : State A × Option (RegionId × RegionRecord A) :=
    (if finality = .provisional then s.setRegion regionId (some region) else s, some (regionId, region))
  let lastCommittedTimeslice := status.lastCommittedTimeslice
  if regionId.begin ≤ lastCommittedTimeslice then
    let regionId := { regionId with begin := (lastCommittedTimeslice + 1) % 2 ^ 32 }
    if region.«end» ≤ regionId.begin then pure (s, none) else pure (finish regionId)
  else pure (finish regionId)

/-- `do_assign`: a final assignment of a whole paid region records the parts of its core assigned for renewal at
its end. -/
def doAssign (config : ConfigRecord) (s : State A) (regionId : RegionId) (maybeCheckOwner : Option A)
    (finality : Finality) : Except Error (State A) := do
  let (s, utilized) ← utilize s regionId maybeCheckOwner finality
  match utilized with
  | none => pure s
  | some (regionId, region) =>
    let duration := region.«end» - regionId.begin
    if duration = config.regionLength ∧ finality = .final then
      match region.paid with
      | some price =>
        let renewalId := (regionId.core, region.«end»)
        let previous := match s.potentialRenewals renewalId with
          | some ⟨p, .partialMask w⟩ => if price = p then w else CoreMask.void
          | _ => CoreMask.void
        let assigned := previous ||| regionId.mask
        let workload := if CoreMask.isComplete assigned then CompletionStatus.complete else .partialMask assigned
        pure { s with potentialRenewals := Function.update s.potentialRenewals renewalId (some ⟨price, workload⟩) }
      | none => pure s
    else pure s

/-- `do_pool`: what it does to the regions is `utilize`'s. -/
def doPool (s : State A) (regionId : RegionId) (maybeCheckOwner : Option A) (finality : Finality) :
    Except Error (State A) := do
  let (s, _) ← utilize s regionId maybeCheckOwner finality
  pure s

/-- `do_drop_region`. -/
def doDropRegion (s : State A) (regionId : RegionId) : Except Error (State A) := do
  let status ← okOr s.status .uninitialized
  let region ← okOr (s.regions regionId) .unknownRegion
  if status.lastCommittedTimeslice < region.«end» then throw .stillValid
  pure (s.setRegion regionId none)

/-! ## What the calls do -/

section Spec

variable {s s' : State A} {regionId : RegionId} {maybeCheckOwner : Option A}

@[simp] theorem okOr_eq_ok {α : Type} {o : Option α} {e : Error} {a : α} : okOr o e = .ok a ↔ o = some a := by
  cases o <;> simp [okOr]

omit [DecidableEq A] in
@[simp] theorem State.setRegion_regions (s : State A) (k : RegionId) (r : Option (RegionRecord A)) :
    (s.setRegion k r).regions = Function.update s.regions k r := rfl

omit [DecidableEq A] in
@[simp] theorem State.setRegion_status (s : State A) (k : RegionId) (r : Option (RegionRecord A)) :
    (s.setRegion k r).status = s.status := rfl

omit [DecidableEq A] in
@[simp] theorem State.setRegion_saleInfo (s : State A) (k : RegionId) (r : Option (RegionRecord A)) :
    (s.setRegion k r).saleInfo = s.saleInfo := rfl

omit [DecidableEq A] in
/-- A second write to a key replaces the first. -/
@[simp] theorem State.setRegion_setRegion_self (s : State A) (k : RegionId) (r r' : Option (RegionRecord A)) :
    (s.setRegion k r).setRegion k r' = s.setRegion k r' := by
  simp only [State.setRegion, Function.update_idem]

theorem CoreMask.isVoid_iff (m : CoreMask) : CoreMask.isVoid m = true ↔ m = 0#80 := by
  simp [CoreMask.isVoid, CoreMask.void]

omit [DecidableEq A] in
theorem CoreMask.complete_ne_zero : CoreMask.complete ≠ 0#80 := by
  decide

theorem doTransfer_ok {newOwner : A} (h : doTransfer s regionId maybeCheckOwner newOwner = .ok s') :
    ∃ region, s.regions regionId = some region ∧
      s' = s.setRegion regionId (some { region with owner := some newOwner }) := by
  simp only [doTransfer, Except.bind_eq_ok, okOr_eq_ok] at h
  obtain ⟨region, hr, _, -, h⟩ := h
  exact ⟨region, hr, (Except.ok.inj h).symm⟩

theorem doPartition_ok {pivotOffset : Nat} {ids : RegionId × RegionId}
    (h : doPartition s regionId maybeCheckOwner pivotOffset = .ok (s', ids)) :
    ∃ region pivot, s.regions regionId = some region ∧ regionId.begin < pivot ∧ pivot < region.«end» ∧
      ids = (regionId, { regionId with begin := pivot }) ∧
      s' = (s.setRegion regionId (some { region with paid := none, «end» := pivot })).setRegion
        { regionId with begin := pivot } (some { region with paid := none }) := by
  simp only [doPartition, Except.bind_eq_ok, okOr_eq_ok] at h
  obtain ⟨region, hr, _, -, h⟩ := h
  split at h
  · exact absurd h Except.throw_bind_ne_ok
  split at h
  · exact absurd h Except.throw_bind_ne_ok
  obtain ⟨rfl, rfl⟩ := Prod.mk.inj (Except.ok.inj h)
  exact ⟨region, _, hr, by omega, by omega, rfl, rfl⟩

theorem doInterlace_ok {pivot : CoreMask} {ids : RegionId × RegionId}
    (h : doInterlace s regionId maybeCheckOwner pivot = .ok (s', ids)) :
    ∃ region, s.regions regionId = some region ∧ pivot &&& ~~~regionId.mask = 0#80 ∧ pivot ≠ 0#80 ∧
      pivot ≠ regionId.mask ∧
      ids = ({ regionId with mask := pivot }, { regionId with mask := regionId.mask ^^^ pivot }) ∧
      s' = ((s.setRegion regionId none).setRegion { regionId with mask := pivot } (some region)).setRegion
        { regionId with mask := regionId.mask ^^^ pivot } (some region) := by
  simp only [doInterlace, Except.bind_eq_ok, okOr_eq_ok] at h
  obtain ⟨region, hr, _, -, h⟩ := h
  split at h
  · exact absurd h Except.throw_bind_ne_ok
  rename_i hexterior
  split at h
  · exact absurd h Except.throw_bind_ne_ok
  rename_i hvoid
  split at h
  · exact absurd h Except.throw_bind_ne_ok
  rename_i hcomplete
  obtain ⟨rfl, rfl⟩ := Prod.mk.inj (Except.ok.inj h)
  refine ⟨region, hr, ?_, ?_, hcomplete, rfl, rfl⟩
  · simpa [CoreMask.isVoid_iff] using hexterior
  · simpa [CoreMask.isVoid_iff] using hvoid

/-- `utilize` takes the region out, and either drops it or hands it on from the same begin or from the first
uncommitted timeslice, putting it back for a provisional use. -/
theorem utilize_ok {finality : Finality} {u : Option (RegionId × RegionRecord A)}
    (h : utilize s regionId maybeCheckOwner finality = .ok (s', u)) :
    ∃ status region, s.status = some status ∧ s.regions regionId = some region ∧
      ((u = none ∧ s' = s.setRegion regionId none) ∨
        ∃ regionId', u = some (regionId', region) ∧
          (regionId' = regionId ∨ regionId.begin ≤ status.lastCommittedTimeslice ∧
            regionId' = { regionId with begin := (status.lastCommittedTimeslice + 1) % 2 ^ 32 } ∧
            regionId'.begin < region.«end») ∧
          s' = if finality = .provisional then (s.setRegion regionId none).setRegion regionId' (some region)
            else s.setRegion regionId none) := by
  simp only [utilize, Except.bind_eq_ok, okOr_eq_ok] at h
  obtain ⟨status, hs, region, hr, _, -, h⟩ := h
  refine ⟨status, region, hs, hr, ?_⟩
  split at h
  · split at h
    · obtain ⟨rfl, rfl⟩ := Prod.mk.inj (Except.ok.inj h)
      exact .inl ⟨rfl, rfl⟩
    · rename_i hle hlt
      obtain ⟨rfl, rfl⟩ := Prod.mk.inj (Except.ok.inj h)
      exact .inr ⟨_, rfl, .inr ⟨hle, rfl, Nat.lt_of_not_le hlt⟩, rfl⟩
  · obtain ⟨rfl, rfl⟩ := Prod.mk.inj (Except.ok.inj h)
    exact .inr ⟨_, rfl, .inl rfl, rfl⟩

/-- `do_assign` does to the regions, the status and the sale what `utilize` does. -/
theorem doAssign_ok (config : ConfigRecord) {finality : Finality}
    (h : doAssign config s regionId maybeCheckOwner finality = .ok s') :
    ∃ s₁ u, utilize s regionId maybeCheckOwner finality = .ok (s₁, u) ∧ s'.regions = s₁.regions ∧
      s'.status = s₁.status ∧ s'.saleInfo = s₁.saleInfo := by
  simp only [doAssign, Except.bind_eq_ok] at h
  obtain ⟨⟨s₁, u⟩, hu, h⟩ := h
  refine ⟨s₁, u, hu, ?_⟩
  -- every branch only records a renewal
  repeat' split at h
  all_goals
    cases h
    exact ⟨rfl, rfl, rfl⟩

theorem doPool_ok {finality : Finality} (h : doPool s regionId maybeCheckOwner finality = .ok s') :
    ∃ u, utilize s regionId maybeCheckOwner finality = .ok (s', u) := by
  simp only [doPool, Except.bind_eq_ok] at h
  obtain ⟨⟨s₁, u⟩, hu, h⟩ := h
  cases h
  exact ⟨u, hu⟩

omit [DecidableEq A] in
theorem doDropRegion_ok (h : doDropRegion s regionId = .ok s') :
    ∃ region, s.regions regionId = some region ∧ s' = s.setRegion regionId none := by
  simp only [doDropRegion, Except.bind_eq_ok, okOr_eq_ok] at h
  obtain ⟨status, -, region, hr, h⟩ := h
  split at h
  · exact absurd h Except.throw_bind_ne_ok
  exact ⟨region, hr, (Except.ok.inj h).symm⟩

end Spec

end CoreChain.Broker

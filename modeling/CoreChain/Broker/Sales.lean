import CoreChain.Broker.Model

/-!
# The broker pallet: sales

`ensure_cores_for_sale`, `purchase_core`, `do_purchase` and `do_renew` (`dispatchable_impls.rs`,
`utility_impls.rs`), and the part of `do_tick` that commits a timeslice and rotates the sale, with `rotate_sale`
and `renew_cores` (`tick_impls.rs`) and `do_start_sales`, which starts the first sale.

What the chain around the pallet supplies is an `Env`: the relay-chain block number, the price adapter (`sale_price`
and `adapt_price`), whether an account can pay an amount, the sovereign account of a task, the latest timeslice
ready to commit and the core count in `CoreCountInbox`. `CoreIndex` is `u16`: `saturating_add` stops at
`u16::MAX`, and the sum of counts in `do_start_sales` wraps.

A call is a transaction: one that fails changes nothing (`step`).
-/

namespace CoreChain.Broker

/-- What the chain around the pallet supplies to a call. -/
structure Env (A : Type) where
  now : Nat
  salePrice : SaleInfoRecord → Nat → Nat
  adaptPrice : SaleInfoRecord → Nat × Nat
  canPay : A → Nat → Bool
  sovereign : Nat → Option A
  latest : Fin (2 ^ 32)
  coreCountInbox : Option (Fin (2 ^ 16))

variable {A : Type} [DecidableEq A] (config : ConfigRecord) (env : Env A)

/-- `ensure_cores_for_sale`. -/
def ensureCoresForSale (status : StatusRecord) (sale : SaleInfoRecord) : Except Error Unit :=
  if sale.firstCore < status.coreCount then
    if sale.coresSold < sale.coresOffered then .ok () else .error .soldOut
  else .error .unavailable

/-- `purchase_core`: charge the price, then hand out the next core of the sale. -/
def purchaseCore (who : A) (price : Nat) (sale : SaleInfoRecord) : Except Error (Nat × SaleInfoRecord) :=
  if env.canPay who price then
    let core := min (sale.firstCore + sale.coresSold) u16Max
    .ok (core, { sale with coresSold := min (sale.coresSold + 1) u16Max })
  else .error .funds

/-- `do_purchase`. -/
def doPurchase (s : State A) (who : A) (priceLimit : Nat) : Except Error (State A × RegionId) := do
  let status ← okOr s.status .uninitialized
  let sale ← okOr s.saleInfo .noSales
  ensureCoresForSale status sale
  if env.now ≤ sale.saleStart then throw .tooEarly
  let price := env.salePrice sale env.now
  if priceLimit < price then throw .overpriced
  let (core, sale) ← purchaseCore env who price sale
  let s := { s with saleInfo := some sale }
  pure (issue s core sale.regionBegin CoreMask.complete sale.regionEnd (some who) (some price))

/-- `do_renew`: buy the next core of the sale for a core whose renewal is complete, and make that core renewable
in the next sale. -/
def doRenew (s : State A) (who : A) (core : Nat) : Except Error (State A × Nat) := do
  let status ← okOr s.status .uninitialized
  let sale ← okOr s.saleInfo .noSales
  ensureCoresForSale status sale
  let renewalId := (core, sale.regionBegin)
  let record ← okOr (s.potentialRenewals renewalId) .notAllowed
  if !record.completion.isComplete then throw .incompleteAssignment
  let (core, sale) ← purchaseCore env who record.price sale
  let begin := sale.regionEnd
  let priceCap := max (record.price + config.renewalBump record.price) sale.endPrice
  let price := min (env.salePrice sale env.now) priceCap
  let renewals := Function.update (Function.update s.potentialRenewals renewalId none) (core, begin)
    (some ⟨price, .complete⟩)
  pure ({ s with saleInfo := some sale, potentialRenewals := renewals }, core)

/-- One record of `renew_cores`: kept if not yet due, renewed through the task's sovereign account, or dropped. -/
def renewCore (sale : SaleInfoRecord) (acc : State A × List AutoRenewalRecord) (record : AutoRenewalRecord) :
    State A × List AutoRenewalRecord :=
  if sale.regionBegin < record.nextRenewal then (acc.1, acc.2 ++ [record])
  else
    match env.sovereign record.task with
    | none => acc
    | some payer =>
      match doRenew config env acc.1 payer record.core with
      | .ok (s, newCoreIndex) => (s, acc.2 ++ [⟨newCoreIndex, record.task, sale.regionEnd⟩])
      | .error _ => acc

/-- `renew_cores`. -/
def renewCores (s : State A) (sale : SaleInfoRecord) : State A :=
  let (s, autoRenewals) := s.autoRenewals.foldl (renewCore config env sale) (s, [])
  { s with autoRenewals := autoRenewals }

/-- One lease of `rotate_sale`'s `retain`: its core is the next one; an expiring lease makes it renewable at the
region end and is dropped. -/
def rotateLease (regionEnd targetPrice : Nat)
    (acc : Nat × List LeaseRecordItem × (Nat × Nat → Option PotentialRenewalRecord)) (lease : LeaseRecordItem) :
    Nat × List LeaseRecordItem × (Nat × Nat → Option PotentialRenewalRecord) :=
  let (firstCore, leases, renewals) := acc
  let expire := lease.«until» < regionEnd
  let renewals :=
    if expire then Function.update renewals (firstCore, regionEnd) (some ⟨targetPrice, .complete⟩) else renewals
  (min (firstCore + 1) u16Max, if expire then leases else leases ++ [lease], renewals)

/-- `rotate_sale`: the next sale sells the regions after the old sale's, on the cores after the reserved and leased
ones. -/
def rotateSale (s : State A) (oldSale : SaleInfoRecord) (status : StatusRecord) : State A :=
  let (endPrice, targetPrice) := env.adaptPrice oldSale
  let regionBegin := oldSale.regionEnd
  let regionEnd := (regionBegin + config.regionLength) % 2 ^ 32
  let (firstCore, leases, renewals) :=
    s.leases.foldl (rotateLease regionEnd targetPrice) (min s.reservations u16Max, [], s.potentialRenewals)
  let maxPossibleSales := status.coreCount - firstCore
  let limitCoresOffered := config.limitCoresOffered.getD u16Max
  let coresOffered := min limitCoresOffered maxPossibleSales
  let saleStart := min (env.now + config.interludeLength) u32Max
  let newSale : SaleInfoRecord :=
    ⟨saleStart, config.leadinLength, endPrice, regionBegin, regionEnd, coresOffered, firstCore, 0⟩
  renewCores config env { s with leases := leases, potentialRenewals := renewals, saleInfo := some newSale } newSale

/-- `process_core_count`: the core count in the inbox, if any, replaces the status's. -/
def processCoreCount (status : StatusRecord) : StatusRecord :=
  match env.coreCountInbox with
  | some coreCount => { status with coreCount := coreCount.val }
  | none => status

/-- `next_timeslice_to_commit`. -/
def nextTimesliceToCommit (status : StatusRecord) : Option Nat :=
  if status.lastCommittedTimeslice < env.latest.val then some (status.lastCommittedTimeslice + 1) else none

/-- `do_tick`, as far as the sales go: take the core count from the inbox, commit the next timeslice if ready, and
rotate the sale once the committed timeslice reaches its regions, before the new status is stored, so that the renewals
see the old one. -/
def doTick (s : State A) : State A :=
  match s.status with
  | none => s
  | some status =>
    let status := processCoreCount env status
    match nextTimesliceToCommit env status with
    | some commitTimeslice =>
      let status := { status with lastCommittedTimeslice := commitTimeslice }
      let s := match s.saleInfo with
        | some sale => if sale.regionBegin ≤ commitTimeslice then rotateSale config env s sale status else s
        | none => s
      { s with status := some status }
    | none => { s with status := some status }

/-- `do_start_sales`: the first sale follows an imaginary one over the regions from the latest timeslice ready to
commit. -/
def doStartSales (s : State A) (endPrice extraCores : Nat) : State A :=
  let coreCount := (s.leases.length + s.reservations + extraCores) % 2 ^ 16
  let commitTimeslice := env.latest.val
  let status : StatusRecord := ⟨coreCount, commitTimeslice - 1⟩
  let oldSale : SaleInfoRecord :=
    ⟨env.now, 0, endPrice, commitTimeslice, min (commitTimeslice + config.regionLength) u32Max, 0, 0, 0⟩
  let s := rotateSale config env s oldSale status
  { s with status := some status }

/-! ## Calls -/

/-- The calls that sell, split, give away and use regions, and the tick. -/
inductive Op (A : Type) where
  | purchase (who : A) (priceLimit : Nat)
  | renew (who : A) (core : Nat)
  | transfer (regionId : RegionId) (maybeCheckOwner : Option A) (newOwner : A)
  | partition (regionId : RegionId) (maybeCheckOwner : Option A) (pivotOffset : Nat)
  | interlace (regionId : RegionId) (maybeCheckOwner : Option A) (pivot : CoreMask)
  | assign (regionId : RegionId) (maybeCheckOwner : Option A) (finality : Finality)
  | pool (regionId : RegionId) (maybeCheckOwner : Option A) (finality : Finality)
  | dropRegion (regionId : RegionId)
  | tick

/-- The storage after a successful call, or before it if it fails. -/
def commit {α : Type} (s : State A) (f : α → State A) : Except Error α → State A
  | .ok a => f a
  | .error _ => s

/-- One call in its environment. -/
def step (s : State A) : Env A × Op A → State A
  | (env, .purchase who priceLimit) => commit s (·.1) (doPurchase env s who priceLimit)
  | (env, .renew who core) => commit s (·.1) (doRenew config env s who core)
  | (_, .transfer regionId maybeCheckOwner newOwner) => commit s id (doTransfer s regionId maybeCheckOwner newOwner)
  | (_, .partition regionId maybeCheckOwner pivotOffset) =>
    commit s (·.1) (doPartition s regionId maybeCheckOwner pivotOffset)
  | (_, .interlace regionId maybeCheckOwner pivot) => commit s (·.1) (doInterlace s regionId maybeCheckOwner pivot)
  | (_, .assign regionId maybeCheckOwner finality) =>
    commit s id (doAssign config s regionId maybeCheckOwner finality)
  | (_, .pool regionId maybeCheckOwner finality) => commit s id (doPool s regionId maybeCheckOwner finality)
  | (_, .dropRegion regionId) => commit s id (doDropRegion s regionId)
  | (env, .tick) => doTick config env s

/-! ## What the sale calls do -/

section Spec

variable {config env} {s s' : State A} {who : A}

omit [DecidableEq A] in
theorem ensureCoresForSale_ok {status : StatusRecord} {sale : SaleInfoRecord} {u : Unit}
    (h : ensureCoresForSale status sale = .ok u) :
    sale.firstCore < status.coreCount ∧ sale.coresSold < sale.coresOffered := by
  unfold ensureCoresForSale at h
  split at h
  · split at h
    · exact ⟨‹_›, ‹_›⟩
    · cases h
  · cases h

omit [DecidableEq A] in
theorem purchaseCore_ok {price core : Nat} {sale sale' : SaleInfoRecord}
    (h : purchaseCore env who price sale = .ok (core, sale')) :
    core = min (sale.firstCore + sale.coresSold) u16Max ∧
      sale' = { sale with coresSold := min (sale.coresSold + 1) u16Max } := by
  unfold purchaseCore at h
  split at h
  · obtain ⟨rfl, rfl⟩ := Prod.mk.inj (Except.ok.inj h)
    exact ⟨rfl, rfl⟩
  · cases h

omit [DecidableEq A] in
/-- `do_purchase` issues the complete mask of the next core of the sale, over the sale's regions. -/
theorem doPurchase_ok {priceLimit : Nat} {regionId : RegionId}
    (h : doPurchase env s who priceLimit = .ok (s', regionId)) :
    ∃ status sale price, s.status = some status ∧ s.saleInfo = some sale ∧ sale.coresSold < sale.coresOffered ∧
      (s', regionId) = issue { s with saleInfo := some { sale with coresSold := min (sale.coresSold + 1) u16Max } }
        (min (sale.firstCore + sale.coresSold) u16Max) sale.regionBegin CoreMask.complete sale.regionEnd (some who)
        (some price) := by
  simp only [doPurchase, Except.bind_eq_ok, okOr_eq_ok] at h
  obtain ⟨status, hs, sale, hsale, u, hcores, h⟩ := h
  split at h
  · exact absurd h Except.throw_bind_ne_ok
  split at h
  · exact absurd h Except.throw_bind_ne_ok
  simp only [Except.bind_eq_ok] at h
  obtain ⟨⟨core, sale'⟩, hp, h⟩ := h
  obtain ⟨rfl, rfl⟩ := purchaseCore_ok hp
  exact ⟨status, sale, _, hs, hsale, (ensureCoresForSale_ok hcores).2, (Except.ok.inj h).symm⟩

omit [DecidableEq A] in
/-- `do_renew` sells the next core of the sale and leaves the regions and the status. -/
theorem doRenew_ok {core newCore : Nat} (h : doRenew config env s who core = .ok (s', newCore)) :
    ∃ status sale, s.status = some status ∧ s.saleInfo = some sale ∧ sale.coresSold < sale.coresOffered ∧
      s'.regions = s.regions ∧ s'.status = s.status ∧
      s'.saleInfo = some { sale with coresSold := min (sale.coresSold + 1) u16Max } := by
  simp only [doRenew, Except.bind_eq_ok, okOr_eq_ok] at h
  obtain ⟨status, hs, sale, hsale, u, hcores, record, -, h⟩ := h
  split at h
  · exact absurd h Except.throw_bind_ne_ok
  simp only [Except.bind_eq_ok] at h
  obtain ⟨⟨c, sale'⟩, hp, h⟩ := h
  obtain ⟨-, rfl⟩ := purchaseCore_ok hp
  obtain ⟨rfl, rfl⟩ := Prod.mk.inj (Except.ok.inj h)
  exact ⟨status, sale, hs, hsale, (ensureCoresForSale_ok hcores).2, rfl, rfl, rfl⟩

omit [DecidableEq A] in
/-- What `renew_cores` keeps: the regions, the status, and the sale up to the cores sold, never more than offered. -/
theorem renewCores_spec (s : State A) (sale : SaleInfoRecord) {sale₀ : SaleInfoRecord} (hsale : s.saleInfo = some sale₀)
    (hsold : sale₀.coresSold ≤ sale₀.coresOffered) :
    (renewCores config env s sale).regions = s.regions ∧ (renewCores config env s sale).status = s.status ∧
      ∃ coresSold, (renewCores config env s sale).saleInfo = some { sale₀ with coresSold := coresSold } ∧
        coresSold ≤ sale₀.coresOffered := by
  -- each renewal sells one more core of the same sale, and only while some are left
  have hstep : ∀ (acc : State A × List AutoRenewalRecord) record,
      (acc.1.regions = s.regions ∧ acc.1.status = s.status ∧ ∃ coresSold,
        acc.1.saleInfo = some { sale₀ with coresSold := coresSold } ∧ coresSold ≤ sale₀.coresOffered) →
      ((renewCore config env sale acc record).1.regions = s.regions ∧
        (renewCore config env sale acc record).1.status = s.status ∧ ∃ coresSold,
        (renewCore config env sale acc record).1.saleInfo = some { sale₀ with coresSold := coresSold } ∧
          coresSold ≤ sale₀.coresOffered) := by
    rintro ⟨t, kept⟩ record ⟨hr, hst, cs, hcs, hle⟩
    unfold renewCore
    split
    · exact ⟨hr, hst, cs, hcs, hle⟩
    split
    · exact ⟨hr, hst, cs, hcs, hle⟩
    split
    · rename_i hrenew
      obtain ⟨status, sale', -, hsale', hlt, hr', hst', hsi'⟩ := doRenew_ok hrenew
      rw [hcs] at hsale'
      cases hsale'
      refine ⟨hr'.trans hr, hst'.trans hst, min (cs + 1) u16Max, hsi', ?_⟩
      simp only at hlt
      omega
    · exact ⟨hr, hst, cs, hcs, hle⟩
  obtain ⟨hr, hst, cs, hcs, hle⟩ := foldl_invariant hstep s.autoRenewals (s, [])
    ⟨rfl, rfl, sale₀.coresSold, by rw [hsale], hsold⟩
  exact ⟨hr, hst, cs, hcs, hle⟩

/-- The leases hand out cores after the reserved ones, stopping at `u16::MAX`. -/
theorem rotateLease_fst_le (regionEnd targetPrice : Nat)
    (acc : Nat × List LeaseRecordItem × (Nat × Nat → Option PotentialRenewalRecord)) (lease : LeaseRecordItem) :
    (rotateLease regionEnd targetPrice acc lease).1 ≤ u16Max := by
  obtain ⟨firstCore, leases, renewals⟩ := acc
  exact Nat.min_le_right _ _

omit [DecidableEq A] in
/-- `rotate_sale` leaves the regions and the status, and starts a sale over the regions after the old sale's, from a
first core at most `u16::MAX`, offering no more cores than the status counts after it and selling no more than it
offers. -/
theorem rotateSale_spec (s : State A) (oldSale : SaleInfoRecord) (status : StatusRecord) :
    (rotateSale config env s oldSale status).regions = s.regions ∧
      (rotateSale config env s oldSale status).status = s.status ∧
      ∃ sale, (rotateSale config env s oldSale status).saleInfo = some sale ∧
        sale.regionBegin = oldSale.regionEnd ∧
        sale.regionEnd = (oldSale.regionEnd + config.regionLength) % 2 ^ 32 ∧ sale.firstCore ≤ u16Max ∧
        sale.coresOffered ≤ status.coreCount - sale.firstCore ∧ sale.coresSold ≤ sale.coresOffered := by
  unfold rotateSale
  rcases hprices : env.adaptPrice oldSale with ⟨endPrice, targetPrice⟩
  dsimp only
  have hfirst := foldl_invariant
    (P := fun (acc : Nat × List LeaseRecordItem × (Nat × Nat → Option PotentialRenewalRecord)) => acc.1 ≤ u16Max)
    (f := rotateLease ((oldSale.regionEnd + config.regionLength) % 2 ^ 32) targetPrice)
    (fun acc lease _ => rotateLease_fst_le _ _ acc lease) s.leases (min s.reservations u16Max, [], s.potentialRenewals)
    (Nat.min_le_right _ _)
  generalize s.leases.foldl (rotateLease ((oldSale.regionEnd + config.regionLength) % 2 ^ 32) targetPrice)
    (min s.reservations u16Max, [], s.potentialRenewals) = fold at hfirst ⊢
  let newSale : SaleInfoRecord := ⟨min (env.now + config.interludeLength) u32Max, config.leadinLength, endPrice,
    oldSale.regionEnd, (oldSale.regionEnd + config.regionLength) % 2 ^ 32,
    min (config.limitCoresOffered.getD u16Max) (status.coreCount - fold.1), fold.1, 0⟩
  -- the renewals sell cores of the new sale only
  obtain ⟨hr, hst, cs, hcs, hle⟩ := @renewCores_spec A config env
    { s with leases := fold.2.1, potentialRenewals := fold.2.2, saleInfo := some newSale } newSale newSale rfl
    (Nat.zero_le _)
  exact ⟨hr, hst, _, hcs, rfl, rfl, hfirst, Nat.min_le_right _ _, hle⟩

omit [DecidableEq A] in
/-- `do_tick` leaves the regions, commits no later than the latest timeslice ready, takes a `u16` core count from
the inbox, and keeps the sale or rotates it once the committed timeslice reaches its regions. -/
theorem doTick_spec {s : State A} {status : StatusRecord} (hs : s.status = some status) :
    (doTick config env s).regions = s.regions ∧
    ∃ status', (doTick config env s).status = some status' ∧
      status'.lastCommittedTimeslice ≤ max status.lastCommittedTimeslice env.latest.val ∧
      (status'.coreCount = status.coreCount ∨ status'.coreCount < 2 ^ 16) ∧
      ((doTick config env s).saleInfo = s.saleInfo ∨
        ∃ sale sale', s.saleInfo = some sale ∧ sale.regionBegin ≤ status'.lastCommittedTimeslice ∧
          (doTick config env s).saleInfo = some sale' ∧ sale'.regionBegin = sale.regionEnd ∧
          sale'.regionEnd = (sale.regionEnd + config.regionLength) % 2 ^ 32 ∧ sale'.firstCore ≤ u16Max ∧
          sale'.coresOffered ≤ status'.coreCount - sale'.firstCore ∧ sale'.coresSold ≤ sale'.coresOffered) := by
  have hcount : (processCoreCount env status).coreCount = status.coreCount ∨
      (processCoreCount env status).coreCount < 2 ^ 16 := by
    unfold processCoreCount
    split
    · exact .inr (Fin.isLt _)
    · exact .inl rfl
  have hlct : (processCoreCount env status).lastCommittedTimeslice = status.lastCommittedTimeslice := by
    unfold processCoreCount
    split <;> rfl
  unfold doTick
  rw [hs]
  dsimp only
  split
  · rename_i commit hnext
    have hcommit : commit ≤ env.latest.val := by
      unfold nextTimesliceToCommit at hnext
      split at hnext
      · cases hnext
        omega
      · cases hnext
    have hle : commit ≤ max status.lastCommittedTimeslice env.latest.val := Nat.le_trans hcommit (Nat.le_max_right _ _)
    split
    · rename_i sale hsale
      split
      · rename_i hrot
        obtain ⟨hr, -, sale', hsi, hb, he, hf, ho, hso⟩ :=
          @rotateSale_spec A config env s sale
            { processCoreCount env status with lastCommittedTimeslice := commit }
        exact ⟨hr, _, rfl, hle, hcount, .inr ⟨sale, sale', hsale, hrot, hsi, hb, he, hf, ho, hso⟩⟩
      · exact ⟨rfl, _, rfl, hle, hcount, .inl rfl⟩
    · exact ⟨rfl, _, rfl, hle, hcount, .inl rfl⟩
  · exact ⟨rfl, _, rfl, hlct ▸ Nat.le_max_left _ _, hcount, .inl rfl⟩

omit [DecidableEq A] in
/-- `do_start_sales` leaves the regions, stores a `u16` core count with the timeslice before the latest ready as the
last committed one, and starts the sale after the imaginary one. -/
theorem doStartSales_spec (s : State A) (endPrice extraCores : Nat) :
    (doStartSales config env s endPrice extraCores).regions = s.regions ∧
    ∃ status, (doStartSales config env s endPrice extraCores).status = some status ∧
      status.lastCommittedTimeslice = env.latest.val - 1 ∧ status.coreCount < 2 ^ 16 ∧
      ∃ sale, (doStartSales config env s endPrice extraCores).saleInfo = some sale ∧
        sale.regionBegin = min (env.latest.val + config.regionLength) u32Max ∧
        sale.regionEnd = (min (env.latest.val + config.regionLength) u32Max + config.regionLength) % 2 ^ 32 ∧
        sale.firstCore ≤ u16Max ∧ sale.coresOffered ≤ status.coreCount - sale.firstCore ∧
        sale.coresSold ≤ sale.coresOffered := by
  obtain ⟨hr, -, sale, hsi, hb, he, hf, ho, hso⟩ := @rotateSale_spec A config env s
    ⟨env.now, 0, endPrice, env.latest.val, min (env.latest.val + config.regionLength) u32Max, 0, 0, 0⟩
    ⟨(s.leases.length + s.reservations + extraCores) % 2 ^ 16, env.latest.val - 1⟩
  exact ⟨hr, _, rfl, rfl, Nat.mod_lt _ (Nat.two_pow_pos 16), sale, hsi, hb, he, hf, ho, hso⟩

end Spec

end CoreChain.Broker

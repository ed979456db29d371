import CoreChain.Broker.Sales
import CoreChain.Lib.Bits

/-!
# Coretime is sold once

A region holds the parts of its mask on its core at each timeslice from its begin to its end (`Holds`). Along every
run of the broker's calls from `do_start_sales`, with a region length of at least one timeslice and committed
timeslices low enough that no `u32` sum of timeslices wraps, the live regions hold no coretime in common
(`Disjoint`), each lies in the regions of a sale of the run on a core that sale sold (`IssuedBy`), and `do_partition`
and `do_interlace` write no key that another live region has (`SoldOnce`, `regions_sold_once`).

The run is traced with the sale records it has had (`tracedStep`). Its invariant `Inv` places each live region
against the current sale: it ends before the sale's regions begin, or the sale issued it; the sale's next core is
past every core it sold. Each call keeps it: a purchase adds a region on a fresh core, the region calls replace a
region by regions inside it (`Inside`), and a rotation starts the next sale where the old one ends.

With a region length of zero the sales rotate onto the same empty regions and keys, and a second buyer's
`do_interlace` overwrites the first buyer's region (`interlace_overwrites_at_zero_length`).
-/

namespace CoreChain.Broker

variable {A : Type}

/-! ## The coretime a region holds -/

/-- The coretime a region holds: each part of its mask, on its core, at each timeslice from its begin to its end. -/
def Holds (regionId : RegionId) (region : RegionRecord A) (core t i : Nat) : Prop :=
  core = regionId.core ∧ regionId.begin ≤ t ∧ t < region.«end» ∧ regionId.mask.getLsbD i = true

/-- Two regions hold no coretime in common. -/
def Apart (k₁ : RegionId) (r₁ : RegionRecord A) (k₂ : RegionId) (r₂ : RegionRecord A) : Prop :=
  ∀ c t i, Holds k₁ r₁ c t i → ¬ Holds k₂ r₂ c t i

/-- No coretime is held by two live regions. -/
def Disjoint (regions : RegionId → Option (RegionRecord A)) : Prop :=
  ∀ k₁ k₂ r₁ r₂, regions k₁ = some r₁ → regions k₂ = some r₂ → k₁ ≠ k₂ → Apart k₁ r₁ k₂ r₂

/-- A region inside another: on its core, from no earlier to no later, with no part outside its mask. -/
structure Inside (k : RegionId) (r : RegionRecord A) (k₀ : RegionId) (r₀ : RegionRecord A) : Prop where
  core_eq : k.core = k₀.core
  begin_le : k₀.begin ≤ k.begin
  end_le : r.«end» ≤ r₀.«end»
  mask : k.mask &&& ~~~k₀.mask = 0#80

section Holds

variable {k k₀ k' : RegionId} {r r₀ r' : RegionRecord A}

theorem Apart.symm (h : Apart k r k' r') : Apart k' r' k r :=
  fun c t i h' hk => h c t i hk h'

theorem apart_of_core_ne (h : k.core ≠ k'.core) : Apart k r k' r' := by
  rintro c t i ⟨rfl, -⟩ ⟨hc, -⟩
  exact h hc

theorem apart_of_end_le (h : r.«end» ≤ k'.begin) : Apart k r k' r' := by
  rintro c t i ⟨-, -, ht, -⟩ ⟨-, ht', -⟩
  omega

theorem apart_of_mask (h : ∀ i, k.mask.getLsbD i = true → k'.mask.getLsbD i = false) : Apart k r k' r' := by
  rintro c t i ⟨-, -, -, hi⟩ ⟨-, -, -, hi'⟩
  rw [h i hi] at hi'
  cases hi'

theorem Inside.holds (h : Inside k r k₀ r₀) {c t i : Nat} (hk : Holds k r c t i) : Holds k₀ r₀ c t i := by
  obtain ⟨hc, hb, he, hi⟩ := hk
  exact ⟨hc.trans h.core_eq, Nat.le_trans h.begin_le hb, Nat.lt_of_lt_of_le he h.end_le,
    getLsbD_of_and_not_eq_zero h.mask hi⟩

theorem Apart.of_inside (h : Apart k₀ r₀ k' r') (hin : Inside k r k₀ r₀) : Apart k r k' r' :=
  fun c t i hk => h c t i (hin.holds hk)

/-- A region is inside one with its key that ends no earlier. -/
theorem inside_self (h : r.«end» ≤ r₀.«end») : Inside k r k r₀ :=
  ⟨rfl, Nat.le_refl _, h, BitVec.and_not_self _⟩

end Holds

section Disjoint

variable {m : RegionId → Option (RegionRecord A)} {k k₀ : RegionId} {r r₀ : RegionRecord A}

theorem Disjoint.remove (h : Disjoint m) (k : RegionId) : Disjoint (Function.update m k none) := by
  intro k₁ k₂ r₁ r₂ h₁ h₂ hne
  rw [Function.update_apply] at h₁ h₂
  split at h₁
  · cases h₁
  split at h₂
  · cases h₂
  exact h k₁ k₂ r₁ r₂ h₁ h₂ hne

/-- A region apart from every other live region can be written. -/
theorem Disjoint.insert (h : Disjoint m) (hapart : ∀ k' r', m k' = some r' → k' ≠ k → Apart k r k' r') :
    Disjoint (Function.update m k (some r)) := by
  intro k₁ k₂ r₁ r₂ h₁ h₂ hne
  rw [Function.update_apply] at h₁ h₂
  split at h₁ <;> split at h₂
  · rename_i e₁ e₂
    exact absurd (e₁.trans e₂.symm) hne
  · rename_i e₁ e₂
    cases h₁
    subst e₁
    exact hapart k₂ r₂ h₂ (Ne.symm hne)
  · rename_i e₁ e₂
    cases h₂
    subst e₂
    exact (hapart k₁ r₁ h₁ hne).symm
  · exact h k₁ k₂ r₁ r₂ h₁ h₂ hne

/-- A live region can be replaced by a region inside it. -/
theorem Disjoint.replace (h : Disjoint m) (h₀ : m k₀ = some r₀) (hin : Inside k r k₀ r₀) :
    Disjoint (Function.update (Function.update m k₀ none) k (some r)) := by
  refine (h.remove k₀).insert fun k' r' hk' _ => ?_
  rw [Function.update_apply] at hk'
  split at hk'
  · cases hk'
  rename_i hne
  exact (h k₀ k' r₀ r' h₀ hk' (Ne.symm hne)).of_inside hin

end Disjoint

/-- A property of every live entry survives a write whose value has it. -/
theorem forall_update {P : RegionId → RegionRecord A → Prop} {m : RegionId → Option (RegionRecord A)} {k₀ : RegionId}
    {v : Option (RegionRecord A)} (hm : ∀ k r, m k = some r → P k r) (hv : ∀ r, v = some r → P k₀ r) :
    ∀ k r, Function.update m k₀ v k = some r → P k r := by
  intro k r hk
  rw [Function.update_apply] at hk
  split at hk
  · rename_i e
    subst e
    exact hv r hk
  · exact hm k r hk

/-! ## The invariant -/

/-- A sale issued a region: the region lies in the sale's regions, on a core the sale sold. -/
def IssuedBy (sale : SaleInfoRecord) (regionId : RegionId) (region : RegionRecord A) : Prop :=
  sale.regionBegin ≤ regionId.begin ∧ region.«end» ≤ sale.regionEnd ∧ sale.firstCore ≤ regionId.core ∧
    regionId.core < sale.firstCore + sale.coresSold

/-- The current sale: its regions run for the region length `L` from its begin, it sells no more cores than it
offers, and it offers none past `u16::MAX`. -/
structure SaleWf (L : Nat) (sale : SaleInfoRecord) : Prop where
  regionEnd_eq : sale.regionEnd = sale.regionBegin + L
  sold_le : sale.coresSold ≤ sale.coresOffered
  offered_le : sale.firstCore + sale.coresOffered ≤ u16Max

/-- What a live region keeps: it holds some coretime, it ends before the current sale's regions begin or the current
sale issued it, and a sale of the run issued it. -/
structure RegionWf (sale : SaleInfoRecord) (sales : List SaleInfoRecord) (regionId : RegionId)
    (region : RegionRecord A) : Prop where
  begin_lt : regionId.begin < region.«end»
  mask_ne : regionId.mask ≠ 0#80
  placed : region.«end» ≤ sale.regionBegin ∨ IssuedBy sale regionId region
  issued : ∃ S ∈ sales, IssuedBy S regionId region

/-- The invariant of a run with regions of length `L` whose committed timeslices stay at most `T`, traced with the
sale records it has had. -/
structure Inv (L T : Nat) (s : State A) (sales : List SaleInfoRecord) : Prop where
  status : ∃ status, s.status = some status ∧ status.lastCommittedTimeslice ≤ T ∧ status.coreCount ≤ u16Max
  sale : ∃ sale, s.saleInfo = some sale ∧ SaleWf L sale ∧ ∀ k r, s.regions k = some r → RegionWf sale sales k r
  disjoint : Disjoint s.regions

section Inv

variable {L T : Nat} {s s' : State A} {sales sales' : List SaleInfoRecord} {sale : SaleInfoRecord}
  {k k₀ : RegionId} {r r₀ : RegionRecord A}

theorem IssuedBy.inside (h : IssuedBy sale k₀ r₀) (hin : Inside k r k₀ r₀) : IssuedBy sale k r := by
  obtain ⟨hb, he, hf, hc⟩ := h
  have := hin.core_eq
  exact ⟨Nat.le_trans hb hin.begin_le, Nat.le_trans hin.end_le he, by omega, by omega⟩

theorem RegionWf.inside (h : RegionWf sale sales k₀ r₀) (hin : Inside k r k₀ r₀) (hlt : k.begin < r.«end»)
    (hmask : k.mask ≠ 0#80) : RegionWf sale sales k r := by
  refine ⟨hlt, hmask, ?_, ?_⟩
  · rcases h.placed with he | hi
    · exact .inl (Nat.le_trans hin.end_le he)
    · exact .inr (hi.inside hin)
  · obtain ⟨S, hS, hi⟩ := h.issued
    exact ⟨S, hS, hi.inside hin⟩

theorem RegionWf.mono (h : RegionWf sale sales k r) (hsub : sales ⊆ sales') : RegionWf sale sales' k r := by
  obtain ⟨S, hS, hi⟩ := h.issued
  exact ⟨h.begin_lt, h.mask_ne, h.placed, S, hsub hS, hi⟩

/-- Selling more cores of the sale keeps every region placed. -/
theorem RegionWf.sell (h : RegionWf sale sales k r) {coresSold : Nat} (hle : sale.coresSold ≤ coresSold) :
    RegionWf { sale with coresSold := coresSold } sales k r := by
  refine ⟨h.begin_lt, h.mask_ne, ?_, h.issued⟩
  rcases h.placed with he | ⟨hb, he, hf, hc⟩
  · exact .inl he
  · exact .inr ⟨hb, he, hf, by simp only; omega⟩

/-- A sale that starts where the current sale's regions end places every live region. -/
theorem RegionWf.rotate (h : RegionWf sale sales k r) (hsw : SaleWf L sale) {sale' : SaleInfoRecord}
    (hb : sale'.regionBegin = sale.regionEnd) (hsub : sales ⊆ sales') : RegionWf sale' sales' k r := by
  refine ⟨h.begin_lt, h.mask_ne, .inl ?_, (h.mono hsub).issued⟩
  rw [hb]
  rcases h.placed with he | ⟨-, he, -, -⟩
  · rw [hsw.regionEnd_eq]
    omega
  · exact he

theorem Inv.mono (h : Inv L T s sales) (hsub : sales ⊆ sales') : Inv L T s sales' := by
  obtain ⟨sale, hsale, hsw, hwf⟩ := h.sale
  exact ⟨h.status, ⟨sale, hsale, hsw, fun k r hk => (hwf k r hk).mono hsub⟩, h.disjoint⟩

/-- A call that changes only the regions keeps the invariant when the regions it writes keep `RegionWf` and the
regions stay disjoint. -/
theorem Inv.of_regions (h : Inv L T s sales) (hst : s'.status = s.status) (hsale : s'.saleInfo = s.saleInfo)
    (hwf : ∀ sale, s.saleInfo = some sale → (∀ k r, s.regions k = some r → RegionWf sale sales k r) →
      ∀ k r, s'.regions k = some r → RegionWf sale sales k r)
    (hdis : Disjoint s.regions → Disjoint s'.regions) : Inv L T s' sales := by
  obtain ⟨sale, hsale₀, hsw, hwf₀⟩ := h.sale
  refine ⟨hst ▸ h.status, ⟨sale, hsale.trans hsale₀, hsw, hwf sale hsale₀ hwf₀⟩, hdis h.disjoint⟩

theorem Inv.remove (h : Inv L T s sales) (k : RegionId) : Inv L T (s.setRegion k none) sales :=
  h.of_regions rfl rfl (fun _ _ hwf => forall_update hwf fun _ hr => by cases hr) (·.remove k)

/-- A live region can be replaced by a region inside it that holds some coretime. -/
theorem Inv.replace (h : Inv L T s sales) (hk : s.regions k₀ = some r₀) (hin : Inside k r k₀ r₀)
    (hlt : k.begin < r.«end») (hmask : k.mask ≠ 0#80) :
    Inv L T ((s.setRegion k₀ none).setRegion k (some r)) sales := by
  refine h.of_regions rfl rfl (fun _ _ hwf => ?_) (·.replace hk hin)
  refine forall_update (forall_update hwf fun _ hr => by cases hr) ?_
  rintro _ ⟨⟩
  exact (hwf k₀ r₀ hk).inside hin hlt hmask

theorem Inv.live (h : Inv L T s sales) (hk : s.regions k = some r) : k.begin < r.«end» ∧ k.mask ≠ 0#80 := by
  obtain ⟨sale, -, -, hwf⟩ := h.sale
  exact ⟨(hwf k r hk).begin_lt, (hwf k r hk).mask_ne⟩

theorem Inv.saleWf (h : Inv L T s sales) (hsale : s.saleInfo = some sale) : SaleWf L sale := by
  obtain ⟨sale₀, hsale₀, hsw, -⟩ := h.sale
  rw [hsale₀] at hsale
  cases hsale
  exact hsw

theorem Inv.regionWf (h : Inv L T s sales) (hsale : s.saleInfo = some sale) (hk : s.regions k = some r) :
    RegionWf sale sales k r := by
  obtain ⟨sale₀, hsale₀, -, hwf⟩ := h.sale
  rw [hsale₀] at hsale
  cases hsale
  exact hwf k r hk

/-- The invariant speaks only of the regions, the status and the sale. -/
theorem Inv.congr (h : Inv L T s sales) (hr : s'.regions = s.regions) (hst : s'.status = s.status)
    (hsale : s'.saleInfo = s.saleInfo) : Inv L T s' sales := by
  refine h.of_regions hst hsale (fun _ _ hwf => ?_) (fun hd => ?_)
  · rw [hr]
    exact hwf
  · rw [hr]
    exact hd

/-- A region apart from every other live region, that the current sale places, can be written. -/
theorem Inv.insert (h : Inv L T s sales) (hwf : ∀ sale, s.saleInfo = some sale → RegionWf sale sales k r)
    (hapart : ∀ k' r', s.regions k' = some r' → k' ≠ k → Apart k r k' r') :
    Inv L T (s.setRegion k (some r)) sales := by
  refine h.of_regions rfl rfl (fun sale hsale hwf' => forall_update hwf' ?_) (·.insert hapart)
  rintro _ ⟨⟩
  exact hwf sale hsale

/-- A live region can be split into two regions inside it that are apart from each other. -/
theorem Inv.split (h : Inv L T s sales) (hk : s.regions k = some r) {k₁ k₂ : RegionId} {r₁ r₂ : RegionRecord A}
    (hin₁ : Inside k₁ r₁ k r) (hin₂ : Inside k₂ r₂ k r) (hapart : Apart k₂ r₂ k₁ r₁)
    (hlt₁ : k₁.begin < r₁.«end») (hlt₂ : k₂.begin < r₂.«end») (hmask₁ : k₁.mask ≠ 0#80) (hmask₂ : k₂.mask ≠ 0#80) :
    Inv L T (((s.setRegion k none).setRegion k₁ (some r₁)).setRegion k₂ (some r₂)) sales := by
  refine (h.replace hk hin₁ hlt₁ hmask₁).insert (fun sale hsale => ?_) fun k' r' hk' _ => ?_
  · exact (h.regionWf hsale hk).inside hin₂ hlt₂ hmask₂
  simp only [State.setRegion_regions, Function.update_apply] at hk'
  split at hk'
  · rename_i e
    cases hk'
    subst e
    exact hapart
  split at hk'
  · cases hk'
  rename_i _ hne
  exact (h.disjoint k k' r r' hk hk' (Ne.symm hne)).of_inside hin₂

/-- Selling the next core of the current sale keeps the invariant, traced with the new sale. -/
theorem Inv.sell (h : Inv L T s sales) (hsale : s.saleInfo = some sale) (hlt : sale.coresSold < sale.coresOffered)
    (hr : s'.regions = s.regions) (hst : s'.status = s.status)
    (hsale' : s'.saleInfo = some { sale with coresSold := sale.coresSold + 1 }) (hsub : sales ⊆ sales') :
    Inv L T s' sales' := by
  obtain ⟨sale₀, hsale₀, hsw, hwf⟩ := h.sale
  rw [hsale₀] at hsale
  cases hsale
  refine ⟨hst ▸ h.status, ⟨_, hsale', ⟨hsw.regionEnd_eq, by simp only; omega, hsw.offered_le⟩, ?_⟩, hr ▸ h.disjoint⟩
  rw [hr]
  exact fun k r hk => ((hwf k r hk).sell (Nat.le_succ _)).mono hsub

end Inv

/-! ## Each call keeps the invariant -/

section Calls

variable {L T : Nat} {s s' : State A} {sales : List SaleInfoRecord} {k : RegionId}
  {maybeCheckOwner : Option A}

theorem Inv.dropRegion (h : Inv L T s sales) (hs : doDropRegion s k = .ok s') : Inv L T s' sales := by
  obtain ⟨r, -, rfl⟩ := doDropRegion_ok hs
  exact h.remove k

/-- A purchase issues the next core of the sale over the sale's regions: a core no region of the sale has, and
regions after every region of earlier sales. -/
theorem Inv.purchase (hL : 1 ≤ L) {env : Env A} {who : A} {priceLimit : Nat} {regionId : RegionId}
    (h : Inv L T s sales) (hs : doPurchase env s who priceLimit = .ok (s', regionId)) :
    Inv L T s' (sales ++ s'.saleInfo.toList) := by
  obtain ⟨-, sale, price, -, hsale, hlt, he⟩ := doPurchase_ok hs
  have hsw := h.saleWf hsale
  have hoff := hsw.offered_le
  rw [Nat.min_eq_left (show sale.firstCore + sale.coresSold ≤ u16Max by omega),
    Nat.min_eq_left (show sale.coresSold + 1 ≤ u16Max by omega)] at he
  simp only [issue, Prod.mk.injEq] at he
  obtain ⟨rfl, rfl⟩ := he
  have hissued : IssuedBy { sale with coresSold := sale.coresSold + 1 }
      ⟨sale.regionBegin, sale.firstCore + sale.coresSold, CoreMask.complete⟩
      (⟨sale.regionEnd, some who, some price⟩ : RegionRecord A) :=
    ⟨Nat.le_refl _, Nat.le_refl _, Nat.le_add_right _ _, by simp only; omega⟩
  have h₁ : Inv L T { s with saleInfo := some { sale with coresSold := sale.coresSold + 1 } }
      (sales ++ [{ sale with coresSold := sale.coresSold + 1 }]) :=
    h.sell hsale hlt rfl rfl rfl (List.subset_append_left _ _)
  refine h₁.insert (fun sale₁ hsale₁ => ?_) fun k' r' hk' _ => ?_
  · cases hsale₁
    refine ⟨?_, CoreMask.complete_ne_zero, .inr hissued, _, List.mem_append_right _ (List.mem_singleton_self _),
      hissued⟩
    rw [hsw.regionEnd_eq]
    dsimp only
    omega
  · -- a live region ends before the sale's regions begin, or is on a core the sale sold before
    rcases (h.regionWf hsale hk').placed with hend | ⟨-, -, -, hcore⟩
    · exact (apart_of_end_le hend).symm
    · exact apart_of_core_ne fun e => by simp only at e; omega

theorem Inv.renew (config : ConfigRecord) {env : Env A} {who : A} {core newCore : Nat} (h : Inv L T s sales)
    (hs : doRenew config env s who core = .ok (s', newCore)) : Inv L T s' (sales ++ s'.saleInfo.toList) := by
  obtain ⟨-, sale, -, hsale, hlt, hr, hst, hsale'⟩ := doRenew_ok hs
  have hoff := (h.saleWf hsale).offered_le
  rw [Nat.min_eq_left (show sale.coresSold + 1 ≤ u16Max by omega)] at hsale'
  exact h.sell hsale hlt hr hst hsale' (List.subset_append_left _ _)

variable [DecidableEq A]

theorem Inv.transfer {newOwner : A} (h : Inv L T s sales)
    (hs : doTransfer s k maybeCheckOwner newOwner = .ok s') : Inv L T s' sales := by
  obtain ⟨r, hr, rfl⟩ := doTransfer_ok hs
  have hlive := h.live hr
  rw [← State.setRegion_setRegion_self s k none]
  exact h.replace hr (inside_self (Nat.le_refl _)) hlive.1 hlive.2

/-- The halves of a partition: the first keeps the key and ends at the pivot, the second begins there. -/
theorem Inv.partition {pivotOffset : Nat} {ids : RegionId × RegionId} (h : Inv L T s sales)
    (hs : doPartition s k maybeCheckOwner pivotOffset = .ok (s', ids)) : Inv L T s' sales := by
  obtain ⟨r, pivot, hr, hlo, hhi, -, rfl⟩ := doPartition_ok hs
  rw [← State.setRegion_setRegion_self s k none]
  have hin₂ : Inside { k with begin := pivot } { r with paid := none } k r :=
    ⟨rfl, Nat.le_of_lt hlo, Nat.le_refl _, BitVec.and_not_self _⟩
  exact h.split hr (inside_self (Nat.le_of_lt hhi)) hin₂ (apart_of_end_le (Nat.le_refl _)).symm hlo hhi
    (h.live hr).2 (h.live hr).2

/-- The halves of an interlace: the pivot and the rest of the mask, over the whole region. -/
theorem Inv.interlace {pivot : CoreMask} {ids : RegionId × RegionId} (h : Inv L T s sales)
    (hs : doInterlace s k maybeCheckOwner pivot = .ok (s', ids)) : Inv L T s' sales := by
  obtain ⟨r, hr, hext, hvoid, hcomplete, -, rfl⟩ := doInterlace_ok hs
  have hlive := h.live hr
  have hapart : Apart { k with mask := k.mask ^^^ pivot } r { k with mask := pivot } r := by
    refine apart_of_mask fun i hi => ?_
    simp only [getLsbD_xor_of_and_not_eq_zero hext, Bool.and_eq_true, Bool.not_eq_true'] at hi
    exact hi.2
  exact h.split hr ⟨rfl, Nat.le_refl _, Nat.le_refl _, hext⟩ ⟨rfl, Nat.le_refl _, Nat.le_refl _,
    xor_and_not_eq_zero hext⟩ hapart hlive.1 hlive.1 hvoid (xor_ne_zero_of_ne (Ne.symm hcomplete))

/-- `utilize` takes the region out and may put it back from the first uncommitted timeslice, which lies inside it
as long as the committed timeslice is below `u32::MAX`. -/
theorem Inv.utilize (hT : T + 1 < 2 ^ 32) {finality : Finality} {u : Option (RegionId × RegionRecord A)}
    (h : Inv L T s sales) (hs : utilize s k maybeCheckOwner finality = .ok (s', u)) : Inv L T s' sales := by
  obtain ⟨status, r, hst, hr, hcases⟩ := utilize_ok hs
  rcases hcases with ⟨-, rfl⟩ | ⟨k', -, hk', rfl⟩
  · exact h.remove k
  split
  · have hlct : status.lastCommittedTimeslice ≤ T := by
      obtain ⟨status₀, hst₀, hlct, -⟩ := h.status
      rw [hst₀] at hst
      cases hst
      exact hlct
    have hlive := h.live hr
    rcases hk' with rfl | ⟨hle, rfl, hlt⟩
    · exact h.replace hr (inside_self (Nat.le_refl _)) hlive.1 hlive.2
    · have hmod : (status.lastCommittedTimeslice + 1) % 2 ^ 32 = status.lastCommittedTimeslice + 1 :=
        Nat.mod_eq_of_lt (by omega)
      have hin : Inside { k with begin := (status.lastCommittedTimeslice + 1) % 2 ^ 32 } r k r :=
        ⟨rfl, by simp only [hmod]; omega, Nat.le_refl _, BitVec.and_not_self _⟩
      exact h.replace hr hin hlt hlive.2
  · exact h.remove k

theorem Inv.assign (hT : T + 1 < 2 ^ 32) (config : ConfigRecord) {finality : Finality} (h : Inv L T s sales)
    (hs : doAssign config s k maybeCheckOwner finality = .ok s') : Inv L T s' sales := by
  obtain ⟨s₁, u, hu, hr, hst, hsale⟩ := doAssign_ok config hs
  exact (h.utilize hT hu).congr hr hst hsale

theorem Inv.pool (hT : T + 1 < 2 ^ 32) {finality : Finality} (h : Inv L T s sales)
    (hs : doPool s k maybeCheckOwner finality = .ok s') : Inv L T s' sales := by
  obtain ⟨u, hu⟩ := doPool_ok hs
  exact h.utilize hT hu

end Calls

/-! ## Runs -/

section Run

variable {T : Nat} {s : State A} {sales : List SaleInfoRecord}

/-- A tick commits no later than the latest timeslice ready, and rotates the sale onto the regions after the old
sale's, before which every live region ends. -/
theorem Inv.tick (config : ConfigRecord) {env : Env A} (hT : T + 2 * config.regionLength < 2 ^ 32)
    (henv : env.latest.val ≤ T) (h : Inv config.regionLength T s sales) :
    Inv config.regionLength T (doTick config env s) (sales ++ (doTick config env s).saleInfo.toList) := by
  obtain ⟨status, hst, hlct, hcc⟩ := h.status
  obtain ⟨hr, status', hst', hlct', hcc', hsale⟩ := @doTick_spec A config env s status hst
  have hlct'' : status'.lastCommittedTimeslice ≤ T := Nat.le_trans hlct' (Nat.max_le.mpr ⟨hlct, henv⟩)
  have hcc'' : status'.coreCount ≤ u16Max := by
    unfold u16Max at *
    omega
  have hmono := List.subset_append_left sales (doTick config env s).saleInfo.toList
  refine ⟨⟨status', hst', hlct'', hcc''⟩, ?_, hr ▸ h.disjoint⟩
  rcases hsale with hsale | ⟨sale, sale', hsale, hrot, hsale', hb, he, hf, ho, hso⟩
  · obtain ⟨sale, hsale₀, hsw, hwf⟩ := h.sale
    refine ⟨sale, hsale.trans hsale₀, hsw, ?_⟩
    rw [hr]
    exact fun k r hk => (hwf k r hk).mono hmono
  · -- the rotated sale's regions end below `u32::MAX`, since the old sale's begin was committed
    have hsw := h.saleWf hsale
    have hend : sale'.regionEnd = sale'.regionBegin + config.regionLength := by
      rw [he, hb, Nat.mod_eq_of_lt (by rw [hsw.regionEnd_eq]; omega)]
    have hsw' : SaleWf config.regionLength sale' := ⟨hend, hso, by unfold u16Max at *; omega⟩
    refine ⟨sale', hsale', hsw', ?_⟩
    rw [hr]
    exact fun k r hk => (h.regionWf hsale hk).rotate hsw hb hmono

/-- `do_start_sales` from a genesis with no regions starts a sale whose regions begin `L` after the latest
timeslice ready. -/
theorem inv_start (config : ConfigRecord) (env : Env A) {genesis : State A} (hgenesis : ∀ k, genesis.regions k = none)
    (endPrice extraCores : Nat) (hT : T + 2 * config.regionLength < 2 ^ 32) (henv : env.latest.val ≤ T) :
    Inv config.regionLength T (doStartSales config env genesis endPrice extraCores)
      (doStartSales config env genesis endPrice extraCores).saleInfo.toList := by
  obtain ⟨hr, status, hst, hlct, hcc, sale, hsale, hb, he, hf, ho, hso⟩ :=
    @doStartSales_spec A config env genesis endPrice extraCores
  have hbegin : min (env.latest.val + config.regionLength) u32Max = env.latest.val + config.regionLength :=
    Nat.min_eq_left (by unfold u32Max; omega)
  rw [hbegin] at hb he
  have hsw : SaleWf config.regionLength sale :=
    ⟨by rw [he, hb, Nat.mod_eq_of_lt (by omega)], hso, by unfold u16Max at *; omega⟩
  refine ⟨⟨status, hst, by omega, by unfold u16Max; omega⟩, ⟨sale, hsale, hsw, fun k r hk => ?_⟩,
    fun k₁ _ r₁ _ h₁ => ?_⟩
  · rw [hr, hgenesis] at hk
    cases hk
  · rw [hr, hgenesis] at h₁
    cases h₁

/-- A call that fails leaves the storage; one that succeeds keeps the invariant. -/
theorem Inv.commit_call {L : Nat} {α : Type} {f : α → State A} {x : Except Error α} (h : Inv L T s sales)
    (hok : ∀ a, x = .ok a → Inv L T (f a) (sales ++ (f a).saleInfo.toList)) :
    Inv L T (commit s f x) (sales ++ (commit s f x).saleInfo.toList) := by
  cases x with
  | error e => exact h.mono (List.subset_append_left _ _)
  | ok a => exact hok a rfl

variable [DecidableEq A] (config : ConfigRecord)

/-- One call, with the sale record it leaves appended to the trace of the run. -/
def tracedStep (run : State A × List SaleInfoRecord) (a : Env A × Op A) : State A × List SaleInfoRecord :=
  (step config run.1 a, run.2 ++ (step config run.1 a).saleInfo.toList)

variable {config}

/-- Every call keeps the invariant, when the regions last at least one timeslice and the latest timeslice ready
stays at most `T`. -/
theorem inv_tracedStep (hL : 1 ≤ config.regionLength) (hT : T + 2 * config.regionLength < 2 ^ 32)
    {run : State A × List SaleInfoRecord} {a : Env A × Op A} (henv : a.1.latest.val ≤ T)
    (h : Inv config.regionLength T run.1 run.2) :
    Inv config.regionLength T (tracedStep config run a).1 (tracedStep config run a).2 := by
  have hT₁ : T + 1 < 2 ^ 32 := by omega
  obtain ⟨s, sales⟩ := run
  obtain ⟨env, op⟩ := a
  have hmono := List.subset_append_left sales
  cases op with
  | purchase who priceLimit => exact h.commit_call fun _ hs => h.purchase hL hs
  | renew who core => exact h.commit_call fun _ hs => h.renew config hs
  | transfer k o newOwner => exact h.commit_call fun _ hs => (h.transfer hs).mono (hmono _)
  | partition k o pivotOffset => exact h.commit_call fun _ hs => (h.partition hs).mono (hmono _)
  | interlace k o pivot => exact h.commit_call fun _ hs => (h.interlace hs).mono (hmono _)
  | assign k o finality => exact h.commit_call fun _ hs => (h.assign hT₁ config hs).mono (hmono _)
  | pool k o finality => exact h.commit_call fun _ hs => (h.pool hT₁ hs).mono (hmono _)
  | dropRegion k => exact h.commit_call fun _ hs => (h.dropRegion hs).mono (hmono _)
  | tick => exact h.tick config hT henv

end Run

/-! ## Coretime is sold once -/

section SoldOnce

variable [DecidableEq A] {L T : Nat} {s s' : State A} {sales : List SaleInfoRecord} {k k' : RegionId}
  {r : RegionRecord A} {maybeCheckOwner : Option A}

/-- Coretime is sold once: the live regions hold no coretime in common, a sale of the run issued each, and the
calls that split a region write no key that another live region has. -/
structure SoldOnce (s : State A) (sales : List SaleInfoRecord) : Prop where
  disjoint : Disjoint s.regions
  issued : ∀ k r, s.regions k = some r → ∃ S ∈ sales, IssuedBy S k r
  partition_keeps : ∀ k maybeCheckOwner pivotOffset s' ids,
    doPartition s k maybeCheckOwner pivotOffset = .ok (s', ids) →
      ∀ k', k' ≠ k → s.regions k' ≠ none → s'.regions k' = s.regions k'
  interlace_keeps : ∀ k maybeCheckOwner pivot s' ids, doInterlace s k maybeCheckOwner pivot = .ok (s', ids) →
    ∀ k', k' ≠ k → s.regions k' ≠ none → s'.regions k' = s.regions k'

omit [DecidableEq A] in
/-- A key whose first timeslice, on each part of its mask, another live region holds is not live. -/
theorem Inv.not_live (h : Inv L T s sales) (hk : s.regions k = some r) (hne : k' ≠ k)
    (hheld : ∀ i, k'.mask.getLsbD i = true → Holds k r k'.core k'.begin i) : s.regions k' = none := by
  cases hk' : s.regions k' with
  | none => rfl
  | some r' =>
    obtain ⟨hlt, hmask⟩ := h.live hk'
    obtain ⟨i, hi⟩ := exists_getLsbD_of_ne_zero hmask
    exact (h.disjoint k k' r r' hk hk' (Ne.symm hne) _ _ _ (hheld i hi) ⟨rfl, Nat.le_refl _, hlt, hi⟩).elim

/-- The second half of a partition begins inside the region, so its key is not live. -/
theorem Inv.partition_keeps {pivotOffset : Nat} {ids : RegionId × RegionId} (h : Inv L T s sales)
    (hs : doPartition s k maybeCheckOwner pivotOffset = .ok (s', ids)) (hne : k' ≠ k) (hlive : s.regions k' ≠ none) :
    s'.regions k' = s.regions k' := by
  obtain ⟨r, pivot, hr, hlo, hhi, -, rfl⟩ := doPartition_ok hs
  have hfresh : s.regions { k with begin := pivot } = none :=
    h.not_live hr (fun e => Nat.ne_of_gt hlo (congrArg RegionId.begin e)) fun i hi => ⟨rfl, Nat.le_of_lt hlo, hhi, hi⟩
  have hne₂ : k' ≠ { k with begin := pivot } := fun e => hlive (e ▸ hfresh)
  simp only [State.setRegion_regions, Function.update_of_ne hne, Function.update_of_ne hne₂]

/-- Both halves of an interlace have masks inside the region's, so their keys are not live. -/
theorem Inv.interlace_keeps {pivot : CoreMask} {ids : RegionId × RegionId} (h : Inv L T s sales)
    (hs : doInterlace s k maybeCheckOwner pivot = .ok (s', ids)) (hne : k' ≠ k) (hlive : s.regions k' ≠ none) :
    s'.regions k' = s.regions k' := by
  obtain ⟨r, hr, hext, hvoid, hcomplete, -, rfl⟩ := doInterlace_ok hs
  have hbegin := (h.live hr).1
  have hfresh₁ : s.regions { k with mask := pivot } = none :=
    h.not_live hr (fun e => hcomplete (congrArg RegionId.mask e))
      fun i hi => ⟨rfl, Nat.le_refl _, hbegin, getLsbD_of_and_not_eq_zero hext hi⟩
  have hfresh₂ : s.regions { k with mask := k.mask ^^^ pivot } = none :=
    h.not_live hr (fun e => xor_ne_self_of_ne_zero hvoid (congrArg RegionId.mask e))
      fun i hi => ⟨rfl, Nat.le_refl _, hbegin, getLsbD_of_and_not_eq_zero (xor_and_not_eq_zero hext) hi⟩
  have hne₁ : k' ≠ { k with mask := pivot } := fun e => hlive (e ▸ hfresh₁)
  have hne₂ : k' ≠ { k with mask := k.mask ^^^ pivot } := fun e => hlive (e ▸ hfresh₂)
  simp only [State.setRegion_regions, Function.update_of_ne hne, Function.update_of_ne hne₁,
    Function.update_of_ne hne₂]

theorem Inv.soldOnce (h : Inv L T s sales) : SoldOnce s sales := by
  obtain ⟨sale, -, -, hwf⟩ := h.sale
  exact ⟨h.disjoint, fun k r hk => (hwf k r hk).issued, fun _ _ _ _ _ hs _ hne hlive => h.partition_keeps hs hne hlive,
    fun _ _ _ _ _ hs _ hne hlive => h.interlace_keeps hs hne hlive⟩

/-- Along every run of the broker's calls from `do_start_sales` on a genesis without regions, with regions of at least
one timeslice and the latest committable timeslice at most `T`, `T` plus two region lengths below `2 ^ 32`: coretime is
sold once. -/
theorem regions_sold_once {config : ConfigRecord} (hL : 1 ≤ config.regionLength)
    (hT : T + 2 * config.regionLength < 2 ^ 32) {genesis : State A} (hgenesis : ∀ k, genesis.regions k = none)
    {env₀ : Env A} (henv₀ : env₀.latest.val ≤ T) {endPrice extraCores : Nat}
    (hrun : Reach (doStartSales config env₀ genesis endPrice extraCores,
        (doStartSales config env₀ genesis endPrice extraCores).saleInfo.toList)
      (tracedStep config) (fun _ a => a.1.latest.val ≤ T) (s, sales)) :
    SoldOnce s sales :=
  (hrun.invariant (P := fun run => Inv config.regionLength T run.1 run.2)
    (inv_start config env₀ hgenesis endPrice extraCores hT henv₀)
    fun _ _ h ha => inv_tracedStep hL hT ha h).soldOnce

/-- A configuration with regions of `regionLength` timeslices, no interlude and no limit on the cores offered. -/
def sampleConfig (regionLength : Nat) : ConfigRecord :=
  ⟨0, 1, regionLength, none, fun _ => 0⟩

/-- A chain at block `now` with `latest` ready to commit, where every account pays and every price is zero. -/
def sampleEnv (now : Nat) (latest : Fin (2 ^ 32)) : Env Nat :=
  ⟨now, fun _ _ => 0, fun _ => (0, 0), fun _ _ => true, fun _ => none, latest, none⟩

/-- The storage before the first sale: nothing is stored. -/
def emptyStorage : State Nat :=
  ⟨none, none, fun _ => none, fun _ => none, 0, [], []⟩

/-- `do_start_sales` with one core, at timeslice `5`. -/
def sampleStart (regionLength : Nat) : State Nat :=
  doStartSales (sampleConfig regionLength) (sampleEnv 0 5) emptyStorage 0 1

theorem regions_sold_once_after_purchase :
    SoldOnce (tracedStep (sampleConfig 1) (sampleStart 1, (sampleStart 1).saleInfo.toList) (sampleEnv 1 5, .purchase 1 0)).1
      (tracedStep (sampleConfig 1) (sampleStart 1, (sampleStart 1).saleInfo.toList) (sampleEnv 1 5, .purchase 1 0)).2 :=
  @regions_sold_once Nat _ 10 _ _ (sampleConfig 1) (by decide) (by decide) emptyStorage (fun _ => rfl) (sampleEnv 0 5)
    (by decide) 0 1 (Reach.step (a := (sampleEnv 1 5, Op.purchase 1 0)) Reach.init (by decide))

/-- Buyer `1` buys the core of a sale with regions of no length and interlaces it; after a tick the next sale sells
the same core over the same timeslices to buyer `2`, under the key buyer `1` bought. -/
def zeroLengthRun : State Nat × List SaleInfoRecord :=
  [(sampleEnv 1 5, Op.purchase 1 0), (sampleEnv 1 5, .interlace ⟨5, 0, CoreMask.complete⟩ none 1#80),
    (sampleEnv 1 6, .tick), (sampleEnv 2 6, .purchase 2 0)].foldl (tracedStep (sampleConfig 0))
    (sampleStart 0, (sampleStart 0).saleInfo.toList)

/-- With regions of no length, buyer `2` interlaces the region and writes the key of the part buyer `1` kept. -/
theorem interlace_overwrites_at_zero_length :
    Reach (sampleStart 0, (sampleStart 0).saleInfo.toList) (tracedStep (sampleConfig 0))
      (fun _ a => a.1.latest.val ≤ 10) zeroLengthRun ∧ ¬ SoldOnce zeroLengthRun.1 zeroLengthRun.2 := by
  refine ⟨.step (.step (.step (.step .init (by decide)) (by decide)) (by decide)) (by decide), fun h => ?_⟩
  have hbefore : zeroLengthRun.1.regions ⟨5, 0, 1#80⟩ = some ⟨5, some 1, some 0⟩ := by decide
  have hafter : (doInterlace zeroLengthRun.1 ⟨5, 0, CoreMask.complete⟩ (some 2) 1#80).map
      (fun res => res.1.regions ⟨5, 0, 1#80⟩) = .ok (some ⟨5, some 2, some 0⟩) := by decide
  cases hres : doInterlace zeroLengthRun.1 ⟨5, 0, CoreMask.complete⟩ (some 2) 1#80 with
  | error e =>
    rw [hres] at hafter
    cases hafter
  | ok res =>
    obtain ⟨s', ids⟩ := res
    rw [hres] at hafter
    have hwritten : s'.regions ⟨5, 0, 1#80⟩ = some ⟨5, some 2, some 0⟩ := Except.ok.inj hafter
    rw [h.interlace_keeps _ _ _ s' ids hres ⟨5, 0, 1#80⟩ (by decide) (by rw [hbefore]; simp), hbefore] at hwritten
    exact absurd hwritten (by decide)

end SoldOnce

end CoreChain.Broker

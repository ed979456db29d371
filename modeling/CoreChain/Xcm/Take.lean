import CoreChain.Xcm.Holding

/-!
# Taking from the holding register: `general_take`, `min` and `checked_sub`

`general_take` (`xcm-executor/src/assets.rs`) moves the assets an `AssetFilter` names out of the holding into a new
one, `taken`; `saturating_take` and `try_take` are its two modes, and `min` computes, without moving anything, what
the filter matches. Each wildcard has an arm in both. The counted ones are loops over the holding's maps in order:
those of `general_take` send each entry to `taken` while it has room and back to `self` after (`sortInto`), those of
`min` insert each entry and return once `masked` is full (`insertUntil`). The two build the same holding
(`snd_foldl_sortInto`), every entry goes to exactly one side (`get?_foldl_sortInto`), and `taken` never holds more
than `limit` assets (`len_foldl_sortInto_le`); so under a wildcard `general_take` takes just what `min` computes and
leaves the rest (`generalTake_wild`).

A `Definite` filter asks for amounts: the loop takes from each entry as much as it holds, and `min` returns that much
(`generalTake_definite`). The two agree on amounts, counting a missing entry as `0`, but not as maps: `min` keeps an
entry of `0`, which `general_take` never subsumes into `taken`, and `general_take` removes an entry it has lowered to
`0`, so an entry of `0` that the filter names ends on neither side (`take_drops_zero_entry`). `try_take` fails just
where `ensure_contains` does, before anything moves (`tryTake_spec`), and `checked_sub` succeeds just where
`contains_asset` holds (`checkedSub_spec`).
-/

namespace CoreChain.Xcm

variable {K I : Type} [LinearOrder K] [LinearOrder I]

/-- `WildFungibility`. -/
inductive WildFungibility where
  | fungible
  | nonFungible
  deriving DecidableEq, Repr

/-- `WildAsset`: every asset, or those of one id and fungibility, in the counted variants up to `count` assets. -/
inductive WildAsset (K : Type) where
  | all
  | allOf (id : K) («fun» : WildFungibility)
  | allCounted (count : Nat)
  | allOfCounted (id : K) («fun» : WildFungibility) (count : Nat)
  deriving DecidableEq, Repr

/-- `AssetFilter`: the assets of an `Assets` list, or a wildcard. -/
inductive AssetFilter (K I : Type) where
  | definite (assets : List (Asset K I))
  | wild (wild : WildAsset K)
  deriving DecidableEq, Repr

/-- `WildAsset::limit`, which is `count`. -/
def WildAsset.limit : WildAsset K → Option Nat
  | .allOfCounted _ _ count | .allCounted count => some count
  | .all | .allOf _ _ => none

/-- `AssetFilter::limit`. -/
def AssetFilter.limit : AssetFilter K I → Option Nat
  | .definite _ => none
  | .wild w => w.limit

/-- `TakeError`. -/
inductive TakeError (K I : Type) where
  | assetUnderflow (asset : Asset K I)
  deriving DecidableEq, Repr

namespace AssetsInHolding

/-- `AssetsInHolding::new`. -/
def new : AssetsInHolding K I :=
  ⟨.empty, .empty⟩

/-- `AssetsInHolding::len`: the number of distinct assets. -/
def len (holding : AssetsInHolding K I) : Nat :=
  holding.fungible.entries.length + holding.nonFungible.entries.length

/-- `holding.fungible.insert(c, amount)`. -/
def insertFungible (holding : AssetsInHolding K I) (e : K × Nat) : AssetsInHolding K I :=
  { holding with fungible := holding.fungible.insert e.1 e.2 }

/-- `holding.non_fungible.insert((c, instance))`. -/
def insertNonFungible (holding : AssetsInHolding K I) (e : (K ×ₗ I) × Unit) : AssetsInHolding K I :=
  { holding with nonFungible := holding.nonFungible.insert e.1 e.2 }

/-- `*balance = rest` through `get_mut`, then `remove` of the entry if `rest` is `0`: how `general_take` and
`checked_sub` lower a fungible amount. -/
def setAmount (holding : AssetsInHolding K I) (id : K) (rest : Nat) : AssetsInHolding K I :=
  let holding := holding.insertFungible (id, rest)
  if rest = 0 then { holding with fungible := holding.fungible.remove id } else holding

/-- `contains_asset`. -/
def containsAsset (holding : AssetsInHolding K I) : Asset K I → Bool
  | ⟨id, .fungible amount⟩ => (holding.fungible.get? id).any (amount ≤ ·)
  | ⟨id, .nonFungible assetInstance⟩ => (holding.nonFungible.get? (toLex (id, assetInstance))).isSome

/-- `ensure_contains`: the first asset of the list that `self` does not wholly hold is the error. -/
def ensureContains (holding : AssetsInHolding K I) : List (Asset K I) → Except (TakeError K I) Unit
  | [] => .ok ()
  | ⟨id, .fungible amount⟩ :: assets =>
    if (holding.fungible.get? id).all (· < amount) then .error (.assetUnderflow ⟨id, .fungible amount⟩)
    else holding.ensureContains assets
  | ⟨id, .nonFungible assetInstance⟩ :: assets =>
    if (holding.nonFungible.get? (toLex (id, assetInstance))).isNone then
      .error (.assetUnderflow ⟨id, .nonFungible assetInstance⟩)
    else holding.ensureContains assets

/-! ## `general_take` -/

section Loops

variable {α : Type}

/-- One turn of the `for_each` loops of `general_take` over a map it has moved out of `self` (the pair is `self`
and `taken`): the entry goes into `taken` where `toTaken` says so, else back into `self`. -/
def sortInto (ins : AssetsInHolding K I → α → AssetsInHolding K I) (toTaken : AssetsInHolding K I → α → Bool)
    (acc : AssetsInHolding K I × AssetsInHolding K I) (e : α) : AssetsInHolding K I × AssetsInHolding K I :=
  if toTaken acc.2 e then (acc.1, ins acc.2 e) else (ins acc.1 e, acc.2)

/-- The `for` loops of `min`: each entry that passes `p` is inserted into `masked`, which is returned at once if
`stop` then holds of it (`Sum.inl`); a loop that runs to its end goes on with `masked` (`Sum.inr`). -/
def insertUntil (ins : AssetsInHolding K I → α → AssetsInHolding K I) (p : α → Bool)
    (stop : AssetsInHolding K I → Bool) : List α → AssetsInHolding K I → AssetsInHolding K I ⊕ AssetsInHolding K I
  | [], masked => .inr masked
  | e :: es, masked =>
    if p e then
      let masked := ins masked e
      if stop masked then .inl masked else insertUntil ins p stop es masked
    else insertUntil ins p stop es masked

end Loops

/-- One turn of the `Definite` loop of `general_take` (the pair is `self` and `taken`): a fungible amount is taken, as
far as `self` holds it, from `self`'s entry and subsumed into `taken` if above `0`; a non-fungible instance moves from
`self` to `taken` if `self` holds it. -/
def takeDefinite : AssetsInHolding K I × AssetsInHolding K I → Asset K I → AssetsInHolding K I × AssetsInHolding K I
  | (holding, taken), ⟨id, .fungible amount⟩ =>
    match holding.fungible.get? id with
    | some selfAmount =>
      let amount := min amount selfAmount
      (holding.setAmount id (selfAmount - amount), if 0 < amount then taken.subsume ⟨id, .fungible amount⟩ else taken)
    -- `(false, 0)`: neither side changes
    | none => (holding, taken)
  | (holding, taken), ⟨id, .nonFungible assetInstance⟩ =>
    if (holding.nonFungible.get? (toLex (id, assetInstance))).isSome then
      ({ holding with nonFungible := holding.nonFungible.remove (toLex (id, assetInstance)) },
        taken.subsume ⟨id, .nonFungible assetInstance⟩)
    else (holding, taken)

/-- The `All` and `AllCounted` arm of `general_take` (the pair is `self` and `taken`): everything, unless `limit` is
below the holding's size; then nothing for a `limit` of `0`, else the assets in order while `taken` has room. -/
def takeAll (holding : AssetsInHolding K I) : Option Nat → AssetsInHolding K I × AssetsInHolding K I
  | none => (new, holding)
  | some limit =>
    if holding.len ≤ limit then (new, holding)
    else if limit = 0 then (holding, new)
    else
      let acc := holding.fungible.entries.foldl (sortInto insertFungible fun taken _ => taken.len < limit)
        ({ holding with fungible := .empty }, new)
      holding.nonFungible.entries.foldl (sortInto insertNonFungible fun taken _ => taken.len < limit)
        ({ acc.1 with nonFungible := .empty }, acc.2)

/-- The `AllOf` and `AllOfCounted` arm of `general_take` for a fungible id: its entry, unless `limit` is `0`. -/
def takeFungibleOf (holding : AssetsInHolding K I) (id : K) (maybeLimit : Option Nat) :
    AssetsInHolding K I × AssetsInHolding K I :=
  if maybeLimit.all (1 ≤ ·) then
    match holding.fungible.get? id with
    | some amount => ({ holding with fungible := holding.fungible.remove id }, new.insertFungible (id, amount))
    | none => (holding, new)
  else (holding, new)

/-- The `AllOf` and `AllOfCounted` arm of `general_take` for a non-fungible id: its instances in order while `taken`
has room. -/
def takeNonFungibleOf (holding : AssetsInHolding K I) (id : K) (maybeLimit : Option Nat) :
    AssetsInHolding K I × AssetsInHolding K I :=
  holding.nonFungible.entries.foldl
    (sortInto insertNonFungible fun taken e => (ofLex e.1).1 = id && maybeLimit.all (taken.len < ·))
    ({ holding with nonFungible := .empty }, new)

/-- `general_take`: the holding it leaves in `self`, and what it returns. -/
def generalTake (holding : AssetsInHolding K I) (mask : AssetFilter K I) (saturate : Bool) :
    AssetsInHolding K I × Except (TakeError K I) (AssetsInHolding K I) :=
  let maybeLimit := mask.limit
  match mask with
  | .wild .all | .wild (.allCounted _) =>
    let acc := holding.takeAll maybeLimit
    (acc.1, .ok acc.2)
  | .wild (.allOf id .fungible) | .wild (.allOfCounted id .fungible _) =>
    let acc := holding.takeFungibleOf id maybeLimit
    (acc.1, .ok acc.2)
  | .wild (.allOf id .nonFungible) | .wild (.allOfCounted id .nonFungible _) =>
    let acc := holding.takeNonFungibleOf id maybeLimit
    (acc.1, .ok acc.2)
  | .definite assets =>
    match saturate, holding.ensureContains assets with
    | false, .error e => (holding, .error e)
    | _, _ =>
      let acc := assets.foldl takeDefinite (holding, new)
      (acc.1, .ok acc.2)

/-- `saturating_take`: the holding left and what was taken; `none` where its `expect` fires. -/
def saturatingTake (holding : AssetsInHolding K I) (mask : AssetFilter K I) :
    Option (AssetsInHolding K I × AssetsInHolding K I) :=
  match holding.generalTake mask true with
  | (holding, .ok taken) => some (holding, taken)
  | (_, .error _) => none

/-- `try_take`. -/
def tryTake (holding : AssetsInHolding K I) (mask : AssetFilter K I) :
    AssetsInHolding K I × Except (TakeError K I) (AssetsInHolding K I) :=
  holding.generalTake mask false

/-- `checked_sub`: `self` less `asset` if it holds it, else `self` as the error. -/
def checkedSub (holding : AssetsInHolding K I) : Asset K I → Except (AssetsInHolding K I) (AssetsInHolding K I)
  | ⟨id, .fungible amount⟩ =>
    match holding.fungible.get? id with
    | some balance => if amount ≤ balance then .ok (holding.setAmount id (balance - amount)) else .error holding
    | none => .error holding
  | ⟨id, .nonFungible assetInstance⟩ =>
    if (holding.nonFungible.get? (toLex (id, assetInstance))).isSome then
      .ok { holding with nonFungible := holding.nonFungible.remove (toLex (id, assetInstance)) }
    else .error holding

/-! ## `min` -/

/-- One turn of the `Definite` loop of `min`: the asset, as far as `self` holds it, is subsumed into `masked`. -/
def minDefinite (holding masked : AssetsInHolding K I) : Asset K I → AssetsInHolding K I
  | ⟨id, .fungible amount⟩ =>
    match holding.fungible.get? id with
    | some m => masked.subsume ⟨id, .fungible (min amount m)⟩
    | none => masked
  | ⟨id, .nonFungible assetInstance⟩ =>
    if (holding.nonFungible.get? (toLex (id, assetInstance))).isSome then
      masked.subsume ⟨id, .nonFungible assetInstance⟩
    else masked

/-- The `All` and `AllCounted` arm of `min`: everything, unless `limit` is below the holding's size; then the assets
in order until `masked` holds `limit`. -/
def minAll (holding : AssetsInHolding K I) (maybeLimit : Option Nat) : AssetsInHolding K I :=
  let atLimit : AssetsInHolding K I → Bool := fun masked => maybeLimit.any (· ≤ masked.len)
  if maybeLimit.all (holding.len ≤ ·) then holding
  else
    match insertUntil insertFungible (fun _ => true) atLimit holding.fungible.entries new with
    | .inl masked => masked
    | .inr masked =>
      match insertUntil insertNonFungible (fun _ => true) atLimit holding.nonFungible.entries masked with
      | .inl masked | .inr masked => masked

/-- The `AllOf` and `AllOfCounted` arm of `min` for a fungible id: its entry. -/
def minFungibleOf (holding : AssetsInHolding K I) (id : K) : AssetsInHolding K I :=
  match holding.fungible.get? id with
  | some amount => new.insertFungible (id, amount)
  | none => new

/-- The `AllOf` and `AllOfCounted` arm of `min` for a non-fungible id: its instances in order until `masked` holds
`limit`. -/
def minNonFungibleOf (holding : AssetsInHolding K I) (id : K) (maybeLimit : Option Nat) : AssetsInHolding K I :=
  match insertUntil insertNonFungible (fun e => (ofLex e.1).1 = id) (fun masked => maybeLimit.any (· ≤ masked.len))
      holding.nonFungible.entries new with
  | .inl masked | .inr masked => masked

/-- `min`: the assets of `self`, asset by asset of no greater value than `mask`, up to its count. -/
def min (holding : AssetsInHolding K I) (mask : AssetFilter K I) : AssetsInHolding K I :=
  let maybeLimit := mask.limit
  if maybeLimit.any (· = 0) then new
  else
    match mask with
    | .wild .all | .wild (.allCounted _) => holding.minAll maybeLimit
    | .wild (.allOf id .fungible) | .wild (.allOfCounted id .fungible _) => holding.minFungibleOf id
    | .wild (.allOf id .nonFungible) | .wild (.allOfCounted id .nonFungible _) =>
      holding.minNonFungibleOf id maybeLimit
    | .definite assets => assets.foldl holding.minDefinite new

end AssetsInHolding

/-! ## Amounts and instances -/

/-- The fungible assets of a list, as entries of an id and an amount. -/
def fungibleEntries : List (Asset K I) → List (K × Nat)
  | [] => []
  | ⟨id, .fungible amount⟩ :: assets => (id, amount) :: fungibleEntries assets
  | ⟨_, .nonFungible _⟩ :: assets => fungibleEntries assets

/-- The non-fungible assets of a list, as instances. -/
def nonFungibles : List (Asset K I) → List (K ×ₗ I)
  | [] => []
  | ⟨_, .fungible _⟩ :: assets => nonFungibles assets
  | ⟨id, .nonFungible assetInstance⟩ :: assets => toLex (id, assetInstance) :: nonFungibles assets

/-- The amount a list asks of asset `k`: that of its first fungible asset of id `k`, `0` if it has none. -/
def asked (assets : List (Asset K I)) (k : K) : Nat :=
  ((fungibleEntries assets).lookup k).getD 0

/-- A `Definite` filter names each fungible asset once, as `Assets` guarantees; a wildcard always passes. -/
def AssetFilter.FungibleIdsDistinct : AssetFilter K I → Prop
  | .definite assets => ((fungibleEntries assets).map Prod.fst).Nodup
  | .wild _ => True

instance (mask : AssetFilter K I) : Decidable mask.FungibleIdsDistinct :=
  match mask with
  | .definite assets => inferInstanceAs (Decidable ((fungibleEntries assets).map Prod.fst).Nodup)
  | .wild _ => inferInstanceAs (Decidable True)

namespace AssetsInHolding

/-- The amount of asset `k` the holding has: its entry, `0` where it has none. -/
def amount (holding : AssetsInHolding K I) (k : K) : Nat :=
  (holding.fungible.get? k).getD 0

/-- Whether the holding has the non-fungible instance `x`. -/
def holds (holding : AssetsInHolding K I) (x : K ×ₗ I) : Bool :=
  (holding.nonFungible.get? x).isSome

section Basic

variable {holding : AssetsInHolding K I} {k id : K} {x : K ×ₗ I} {r : Nat}

@[simp] theorem get?_new_fungible (k : K) : (new : AssetsInHolding K I).fungible.get? k = none :=
  rfl

@[simp] theorem get?_new_nonFungible (x : K ×ₗ I) : (new : AssetsInHolding K I).nonFungible.get? x = none :=
  rfl

@[simp] theorem len_new : (new : AssetsInHolding K I).len = 0 :=
  rfl

@[simp] theorem insertFungible_nonFungible (e : K × Nat) :
    (holding.insertFungible e).nonFungible = holding.nonFungible :=
  rfl

@[simp] theorem insertNonFungible_fungible (e : (K ×ₗ I) × Unit) :
    (holding.insertNonFungible e).fungible = holding.fungible :=
  rfl

theorem get?_insertFungible (e : K × Nat) :
    (holding.insertFungible e).fungible.get? k = if k = e.1 then some e.2 else holding.fungible.get? k :=
  SortedMap.get?_insert _ _ _ _

theorem len_insertFungible_le (e : K × Nat) : (holding.insertFungible e).len ≤ holding.len + 1 := by
  have h := holding.fungible.length_insert_le e.1 e.2
  unfold len
  rw [insertFungible_nonFungible]
  exact (Nat.add_le_add_right h _).trans (le_of_eq (by omega))

theorem len_insertNonFungible_le (e : (K ×ₗ I) × Unit) : (holding.insertNonFungible e).len ≤ holding.len + 1 := by
  have h := holding.nonFungible.length_insert_le e.1 e.2
  unfold len
  rw [insertNonFungible_fungible]
  exact (Nat.add_le_add_left h _).trans (le_of_eq (by omega))

@[simp] theorem setAmount_nonFungible : (holding.setAmount id r).nonFungible = holding.nonFungible := by
  unfold setAmount
  split <;> rfl

theorem get?_setAmount :
    (holding.setAmount id r).fungible.get? k = if k = id then (if r = 0 then none else some r) else
      holding.fungible.get? k := by
  unfold setAmount
  by_cases hr : r = 0
  · rw [if_pos hr, SortedMap.get?_remove, get?_insertFungible]
    by_cases hk : k = id <;> simp [hk, hr]
  · rw [if_neg hr, get?_insertFungible]
    by_cases hk : k = id <;> simp [hk, hr]

theorem amount_setAmount : (holding.setAmount id r).amount k = if k = id then r else holding.amount k := by
  unfold amount
  rw [get?_setAmount]
  by_cases hk : k = id
  · by_cases hr : r = 0 <;> simp [hk, hr]
  · simp [hk]

@[simp] theorem subsume_fungible_nonFungible (a : Nat) :
    (holding.subsume ⟨id, .fungible a⟩).nonFungible = holding.nonFungible :=
  rfl

@[simp] theorem subsume_nonFungible_fungible (i : I) :
    (holding.subsume ⟨id, .nonFungible i⟩).fungible = holding.fungible :=
  rfl

theorem get?_subsume_fungible (a : Nat) :
    (holding.subsume ⟨id, .fungible a⟩).fungible.get? k =
      if k = id then some (((holding.fungible.get? id).map (saturatingAdd · a)).getD a) else
        holding.fungible.get? k :=
  SortedMap.get?_upsert _ _ _ _ _

theorem get?_subsume_nonFungible (i : I) :
    (holding.subsume ⟨id, .nonFungible i⟩).nonFungible.get? x =
      if x = toLex (id, i) then some () else holding.nonFungible.get? x :=
  SortedMap.get?_insert _ _ _ _

end Basic

/-! ## The loops over a map -/

section Partition

variable {α : Type} {ins : AssetsInHolding K I → α → AssetsInHolding K I}

variable (ins) in
/-- What the inserts leave alone, the loop leaves alone on both sides. -/
theorem foldl_sortInto_frame {β : Type} (q : AssetsInHolding K I → β) (hq : ∀ h e, q (ins h e) = q h)
    (toTaken : AssetsInHolding K I → α → Bool) (l : List α) (acc : AssetsInHolding K I × AssetsInHolding K I) :
    q (l.foldl (sortInto ins toTaken) acc).1 = q acc.1 ∧ q (l.foldl (sortInto ins toTaken) acc).2 = q acc.2 := by
  induction l generalizing acc with
  | nil => exact ⟨rfl, rfl⟩
  | cons e l ih =>
    obtain ⟨h₁, h₂⟩ := ih (sortInto ins toTaken acc e)
    rw [List.foldl_cons, h₁, h₂]
    unfold sortInto
    split
    · exact ⟨rfl, hq _ _⟩
    · exact ⟨hq _ _, rfl⟩

/-- `taken` grows by at most one asset a turn and only while it holds fewer than `n`, so it never holds more. -/
theorem len_foldl_sortInto_le (hins : ∀ h e, (ins h e).len ≤ h.len + 1) {n : Nat}
    {toTaken : AssetsInHolding K I → α → Bool} (hroom : ∀ t e, toTaken t e = true → t.len < n) (l : List α)
    (acc : AssetsInHolding K I × AssetsInHolding K I) (hacc : acc.2.len ≤ n) :
    (l.foldl (sortInto ins toTaken) acc).2.len ≤ n := by
  induction l generalizing acc with
  | nil => exact hacc
  | cons e l ih =>
    apply ih
    unfold sortInto
    split
    · rename_i ht
      exact (hins _ _).trans (hroom _ _ ht)
    · exact hacc

theorem all_lt_eq_not_any_le (lim : Option Nat) (n : Nat) : lim.all (n < ·) = !lim.any (· ≤ n) := by
  cases lim with
  | none => rfl
  | some m =>
    show decide (n < m) = !decide (m ≤ n)
    by_cases h : n < m
    · simp [h, Nat.not_le.mpr h]
    · simp [h, Nat.not_lt.mp h]

/-- Once `taken` is full, the loop sends everything back to `self`. -/
theorem snd_foldl_sortInto_of_full {toTaken : AssetsInHolding K I → α → Bool} (l : List α) (r t : AssetsInHolding K I)
    (hfull : ∀ e, toTaken t e = false) : (l.foldl (sortInto ins toTaken) (r, t)).2 = t := by
  induction l generalizing r with
  | nil => rfl
  | cons e l ih =>
    have hstep : sortInto ins toTaken (r, t) e = (ins r e, t) := by
      simp only [sortInto, hfull, Bool.false_eq_true, if_false]
    rw [List.foldl_cons, hstep, ih]

variable (ins) in
/-- The loops of `general_take` and of `min` over one list build the same `taken`, where `general_take` takes an
entry just when it passes `p` and `taken` is not yet full, and `min` inserts those that pass `p` and returns once
`masked` is full. -/
theorem snd_foldl_sortInto {toTaken : AssetsInHolding K I → α → Bool} {p : α → Bool}
    {stop : AssetsInHolding K I → Bool} (hc : ∀ t e, toTaken t e = (p e && !stop t)) (l : List α)
    (r t : AssetsInHolding K I) (hroom : stop t = false) :
    (l.foldl (sortInto ins toTaken) (r, t)).2 =
      match insertUntil ins p stop l t with
      | .inl masked | .inr masked => masked := by
  induction l generalizing r t with
  | nil => rfl
  | cons e l ih =>
    rw [List.foldl_cons, insertUntil]
    by_cases hp : p e = true
    · have hstep : sortInto ins toTaken (r, t) e = (r, ins t e) := by
        simp only [sortInto, hc, hp, hroom, Bool.not_false, Bool.and_self, if_true]
      rw [hstep, if_pos hp]
      -- `min` returns just when `taken` has become full
      by_cases hstop : stop (ins t e) = true
      · rw [if_pos hstop]
        exact snd_foldl_sortInto_of_full l r (ins t e) fun e' => by simp [hc, hstop]
      · rw [if_neg hstop]
        exact ih r (ins t e) (by simpa using hstop)
    · have hstep : sortInto ins toTaken (r, t) e = (ins r e, t) := by
        simp only [Bool.not_eq_true] at hp
        simp only [sortInto, hc, hp, Bool.false_and, Bool.false_eq_true, if_false]
      rw [hstep, if_neg hp]
      exact ih _ _ hroom

/-- `min`'s loop runs to its end only from a `masked` that is not full, and leaves it not full. -/
theorem stop_of_insertUntil_inr {p : α → Bool} {stop : AssetsInHolding K I → Bool} {l : List α}
    {t m : AssetsInHolding K I} (h : insertUntil ins p stop l t = .inr m) (ht : stop t = false) : stop m = false := by
  induction l generalizing t with
  | nil =>
    cases h
    exact ht
  | cons e l ih =>
    rw [insertUntil] at h
    split at h
    · dsimp only at h
      split at h
      · cases h
      · rename_i hstop
        exact ih h (by simpa using hstop)
    · exact ih h ht

section Lookups

variable {κ V : Type} [LinearOrder κ] (proj : AssetsInHolding K I → SortedMap κ V)
  (ins : AssetsInHolding K I → κ × V → AssetsInHolding K I)

/-- One turn puts the entry on one side and leaves the other alone. -/
theorem get?_sortInto (hins : ∀ h e, proj (ins h e) = (proj h).insert e.1 e.2)
    (toTaken : AssetsInHolding K I → κ × V → Bool) (acc : AssetsInHolding K I × AssetsInHolding K I) (e : κ × V)
    {k : κ} (hk : k ≠ e.1) :
    (proj (sortInto ins toTaken acc e).1).get? k = (proj acc.1).get? k ∧
      (proj (sortInto ins toTaken acc e).2).get? k = (proj acc.2).get? k := by
  unfold sortInto
  split
  · exact ⟨rfl, by rw [hins, SortedMap.get?_insert, if_neg hk]⟩
  · exact ⟨by rw [hins, SortedMap.get?_insert, if_neg hk], rfl⟩

/-- Under the entry's own key, one side finds it, and the other finds what it found before. -/
theorem get?_sortInto_self (hins : ∀ h e, proj (ins h e) = (proj h).insert e.1 e.2)
    (toTaken : AssetsInHolding K I → κ × V → Bool) (acc : AssetsInHolding K I × AssetsInHolding K I) (e : κ × V) :
    ((proj (sortInto ins toTaken acc e).1).get? e.1 = some e.2 ∧
        (proj (sortInto ins toTaken acc e).2).get? e.1 = (proj acc.2).get? e.1) ∨
      ((proj (sortInto ins toTaken acc e).1).get? e.1 = (proj acc.1).get? e.1 ∧
        (proj (sortInto ins toTaken acc e).2).get? e.1 = some e.2) := by
  unfold sortInto
  split
  · exact .inr ⟨rfl, by rw [hins, SortedMap.get?_insert, if_pos rfl]⟩
  · exact .inl ⟨by rw [hins, SortedMap.get?_insert, if_pos rfl], rfl⟩

/-- The loop sends each entry to exactly one side. Where neither side has the list's keys to begin with, the two
sides then find together what the list has under a key, besides what they had, and both find something only where
both did before. -/
theorem get?_foldl_sortInto (hins : ∀ h e, proj (ins h e) = (proj h).insert e.1 e.2)
    (toTaken : AssetsInHolding K I → κ × V → Bool) (l : List (κ × V)) (hnodup : (l.map Prod.fst).Nodup)
    (acc : AssetsInHolding K I × AssetsInHolding K I)
    (hfresh : ∀ k ∈ l.map Prod.fst, (proj acc.1).get? k = none ∧ (proj acc.2).get? k = none) (k : κ) :
    ((proj (l.foldl (sortInto ins toTaken) acc).1).get? k).or ((proj (l.foldl (sortInto ins toTaken) acc).2).get? k) =
        (l.lookup k).or (((proj acc.1).get? k).or ((proj acc.2).get? k)) ∧
      (((proj (l.foldl (sortInto ins toTaken) acc).1).get? k).isSome ∧
          ((proj (l.foldl (sortInto ins toTaken) acc).2).get? k).isSome ↔
        ((proj acc.1).get? k).isSome ∧ ((proj acc.2).get? k).isSome) := by
  induction l generalizing acc with
  | nil => exact ⟨by simp, Iff.rfl⟩
  | cons e l ih =>
    obtain ⟨he, hl⟩ := List.nodup_cons.mp hnodup
    -- the keys still to come are still on neither side
    have hfresh' : ∀ k ∈ l.map Prod.fst, (proj (sortInto ins toTaken acc e).1).get? k = none ∧
        (proj (sortInto ins toTaken acc e).2).get? k = none := by
      intro k' hk'
      have hne : k' ≠ e.1 := fun h => he (h ▸ hk')
      obtain ⟨h₁, h₂⟩ := get?_sortInto proj ins hins toTaken acc e hne
      rw [h₁, h₂]
      exact hfresh k' (List.mem_cons_of_mem _ hk')
    obtain ⟨ihor, ihboth⟩ := ih hl _ hfresh'
    rw [List.foldl_cons, ihor, ihboth]
    by_cases hk : k = e.1
    · -- the entry's key: it is on one side only, and nowhere in the rest of the list
      subst hk
      obtain ⟨h₁, h₂⟩ := hfresh e.1 List.mem_cons_self
      have hrest : l.lookup e.1 = none := List.lookup_eq_none_iff.mpr fun p hp =>
        bne_iff_ne.mpr fun h => he (h ▸ List.mem_map_of_mem hp)
      rw [hrest, h₁, h₂, List.lookup_cons_self]
      rcases get?_sortInto_self proj ins hins toTaken acc e with ⟨h₁', h₂'⟩ | ⟨h₁', h₂'⟩
      · rw [h₁', h₂', h₂]
        simp
      · rw [h₁', h₂', h₁]
        simp
    · obtain ⟨h₁, h₂⟩ := get?_sortInto proj ins hins toTaken acc e hk
      rw [h₁, h₂, lookup_cons_of_ne hk]
      exact ⟨rfl, Iff.rfl⟩

/-- From sides with nothing under the list's keys, each key of the list ends on exactly one side. -/
theorem get?_foldl_sortInto_of_empty (hins : ∀ h e, proj (ins h e) = (proj h).insert e.1 e.2)
    (toTaken : AssetsInHolding K I → κ × V → Bool) (l : List (κ × V)) (hnodup : (l.map Prod.fst).Nodup)
    (acc : AssetsInHolding K I × AssetsInHolding K I) (h₁ : ∀ k, (proj acc.1).get? k = none)
    (h₂ : ∀ k, (proj acc.2).get? k = none) (k : κ) :
    ((proj (l.foldl (sortInto ins toTaken) acc).1).get? k).or ((proj (l.foldl (sortInto ins toTaken) acc).2).get? k) =
        l.lookup k ∧
      ¬ (((proj (l.foldl (sortInto ins toTaken) acc).1).get? k).isSome ∧
          ((proj (l.foldl (sortInto ins toTaken) acc).2).get? k).isSome) := by
  obtain ⟨hor, hboth⟩ := get?_foldl_sortInto proj ins hins toTaken l hnodup acc (fun k _ => ⟨h₁ k, h₂ k⟩) k
  rw [hor, hboth, h₁, h₂]
  simp

end Lookups

end Partition

/-! ## The `Definite` loops -/

section Definite

variable {h t : AssetsInHolding K I} {id k : K} {x : K ×ₗ I}

@[simp] theorem amount_new (k : K) : (new : AssetsInHolding K I).amount k = 0 :=
  rfl

@[simp] theorem holds_new (x : K ×ₗ I) : (new : AssetsInHolding K I).holds x = false :=
  rfl

theorem amount_eq_zero_of_none (hk : h.fungible.get? k = none) : h.amount k = 0 := by
  rw [amount, hk]
  rfl

/-- Taking a fungible amount leaves `self` with its entry lowered by what it could give. -/
theorem amount_takeDefinite_fst (a : Nat) :
    (takeDefinite (h, t) ⟨id, .fungible a⟩).1.amount k =
      if k = id then h.amount id - Min.min a (h.amount id) else h.amount k := by
  rw [takeDefinite]
  split
  · rename_i m hm
    have him : h.amount id = m := by rw [amount, hm]; rfl
    rw [amount_setAmount, him]
  · rename_i hm
    by_cases hk : k = id
    · rw [if_pos hk, hk, amount_eq_zero_of_none hm]
      simp
    · rw [if_neg hk]

/-- Taking a fungible amount puts it into a `taken` without an entry for it. -/
theorem amount_takeDefinite_snd (a : Nat) (ht : t.fungible.get? id = none) :
    (takeDefinite (h, t) ⟨id, .fungible a⟩).2.amount k =
      t.amount k + if k = id then Min.min a (h.amount id) else 0 := by
  rw [takeDefinite]
  split
  · rename_i m hm
    have him : h.amount id = m := by rw [amount, hm]; rfl
    dsimp only
    split
    · by_cases hk : k = id
      · rw [amount, get?_subsume_fungible, if_pos hk, ht, if_pos hk, hk, amount_eq_zero_of_none ht, him]
        simp
      · rw [amount, get?_subsume_fungible, if_neg hk, if_neg hk]
        rfl
    · rename_i hzero
      split <;> omega
  · rename_i hm
    split
    · rename_i hk
      rw [hk, amount_eq_zero_of_none hm]
      simp
    · rfl

theorem get?_takeDefinite_snd (a : Nat) (hk : k ≠ id) :
    (takeDefinite (h, t) ⟨id, .fungible a⟩).2.fungible.get? k = t.fungible.get? k := by
  rw [takeDefinite]
  split
  · dsimp only
    split
    · rw [get?_subsume_fungible, if_neg hk]
    · rfl
  · rfl

@[simp] theorem takeDefinite_fungible_nonFungible (a : Nat) :
    (takeDefinite (h, t) ⟨id, .fungible a⟩).1.nonFungible = h.nonFungible ∧
      (takeDefinite (h, t) ⟨id, .fungible a⟩).2.nonFungible = t.nonFungible := by
  rw [takeDefinite]
  split
  · dsimp only
    split <;> exact ⟨setAmount_nonFungible, rfl⟩
  · exact ⟨rfl, rfl⟩

@[simp] theorem takeDefinite_nonFungible_fungible (i : I) :
    (takeDefinite (h, t) ⟨id, .nonFungible i⟩).1.fungible = h.fungible ∧
      (takeDefinite (h, t) ⟨id, .nonFungible i⟩).2.fungible = t.fungible := by
  rw [takeDefinite]
  split <;> exact ⟨rfl, rfl⟩

/-- Taking a non-fungible instance moves it from `self` to `taken` if `self` has it. -/
theorem holds_takeDefinite (i : I) :
    (takeDefinite (h, t) ⟨id, .nonFungible i⟩).1.holds x = (h.holds x && decide (x ≠ toLex (id, i))) ∧
      (takeDefinite (h, t) ⟨id, .nonFungible i⟩).2.holds x =
        (t.holds x || h.holds x && decide (x = toLex (id, i))) := by
  rw [takeDefinite]
  unfold holds
  split
  · rename_i hheld
    rw [SortedMap.get?_remove, get?_subsume_nonFungible]
    by_cases hx : x = toLex (id, i)
    · subst hx
      simp [hheld]
    · simp [hx]
  · rename_i hheld
    by_cases hx : x = toLex (id, i)
    · subst hx
      simp [hheld]
    · simp [hx]

section Asked

variable {assets : List (Asset K I)} {id k : K} {x : K ×ₗ I}

omit [LinearOrder K] [LinearOrder I] in
@[simp] theorem fungibleEntries_cons_fungible (a : Nat) :
    fungibleEntries (⟨id, .fungible a⟩ :: assets) = (id, a) :: fungibleEntries assets :=
  rfl

omit [LinearOrder K] [LinearOrder I] in
@[simp] theorem fungibleEntries_cons_nonFungible (i : I) :
    fungibleEntries (⟨id, .nonFungible i⟩ :: assets) = fungibleEntries assets :=
  rfl

omit [LinearOrder K] [LinearOrder I] in
@[simp] theorem nonFungibles_cons_fungible (a : Nat) :
    nonFungibles (⟨id, .fungible a⟩ :: assets) = nonFungibles assets :=
  rfl

omit [LinearOrder K] [LinearOrder I] in
@[simp] theorem nonFungibles_cons_nonFungible (i : I) :
    nonFungibles (⟨id, .nonFungible i⟩ :: assets) = toLex (id, i) :: nonFungibles assets :=
  rfl

omit [LinearOrder I] in
theorem asked_cons_fungible (a : Nat) :
    asked (⟨id, .fungible a⟩ :: assets) k = if k = id then a else asked assets k := by
  unfold asked
  by_cases hk : k = id
  · rw [if_pos hk, hk, fungibleEntries_cons_fungible, List.lookup_cons_self]
    rfl
  · rw [if_neg hk, fungibleEntries_cons_fungible, lookup_cons_of_ne hk]

omit [LinearOrder I] in
@[simp] theorem asked_cons_nonFungible (i : I) : asked (⟨id, .nonFungible i⟩ :: assets) k = asked assets k :=
  rfl

omit [LinearOrder I] in
theorem asked_eq_zero (hk : k ∉ (fungibleEntries assets).map Prod.fst) : asked assets k = 0 := by
  have hnone : (fungibleEntries assets).lookup k = none :=
    List.lookup_eq_none_iff.mpr fun p hp => bne_iff_ne.mpr fun h => hk (h ▸ List.mem_map_of_mem hp)
  rw [asked, hnone]
  rfl

end Asked

/-- The `Definite` loop of `general_take` leaves in `self` each amount lowered by what was asked of it, as far as
`self` had it. -/
theorem amount_foldl_takeDefinite_fst (assets : List (Asset K I))
    (hnodup : ((fungibleEntries assets).map Prod.fst).Nodup) (acc : AssetsInHolding K I × AssetsInHolding K I)
    (k : K) :
    (assets.foldl takeDefinite acc).1.amount k = acc.1.amount k - Min.min (asked assets k) (acc.1.amount k) := by
  induction assets generalizing acc with
  | nil => simp [asked, fungibleEntries]
  | cons asset assets ih =>
    obtain ⟨h, t⟩ := acc
    obtain ⟨id, a | i⟩ := asset
    · rw [fungibleEntries_cons_fungible, List.map_cons, List.nodup_cons] at hnodup
      rw [List.foldl_cons, ih hnodup.2, amount_takeDefinite_fst, asked_cons_fungible]
      by_cases hk : k = id
      · -- the list asks nothing more of this id
        subst hk
        rw [asked_eq_zero hnodup.1, if_pos rfl, if_pos rfl]
        simp
      · rw [if_neg hk, if_neg hk]
    · rw [List.foldl_cons, ih hnodup]
      simp only [amount, (takeDefinite_nonFungible_fungible i).1, asked_cons_nonFungible]

/-- The `Definite` loop of `general_take` puts into a `taken` without entries for the asked ids what it took from
`self`. -/
theorem amount_foldl_takeDefinite_snd (assets : List (Asset K I))
    (hnodup : ((fungibleEntries assets).map Prod.fst).Nodup) (acc : AssetsInHolding K I × AssetsInHolding K I)
    (hfresh : ∀ k ∈ (fungibleEntries assets).map Prod.fst, acc.2.fungible.get? k = none) (k : K) :
    (assets.foldl takeDefinite acc).2.amount k = acc.2.amount k + Min.min (asked assets k) (acc.1.amount k) := by
  induction assets generalizing acc with
  | nil => simp [asked, fungibleEntries]
  | cons asset assets ih =>
    obtain ⟨h, t⟩ := acc
    obtain ⟨id, a | i⟩ := asset
    · rw [fungibleEntries_cons_fungible, List.map_cons, List.nodup_cons] at hnodup
      have ht : t.fungible.get? id = none := hfresh id List.mem_cons_self
      -- the ids still to come are still missing from `taken`
      have hfresh' : ∀ k ∈ (fungibleEntries assets).map Prod.fst,
          (takeDefinite (h, t) ⟨id, .fungible a⟩).2.fungible.get? k = none := by
        intro k' hk'
        have hne : k' ≠ id := fun h => hnodup.1 (h ▸ hk')
        rw [get?_takeDefinite_snd a hne]
        exact hfresh k' (List.mem_cons_of_mem _ hk')
      rw [List.foldl_cons, ih hnodup.2 _ hfresh', amount_takeDefinite_snd a ht, amount_takeDefinite_fst,
        asked_cons_fungible]
      by_cases hk : k = id
      · subst hk
        rw [asked_eq_zero hnodup.1, if_pos rfl, if_pos rfl, if_pos rfl]
        simp
      · rw [if_neg hk, if_neg hk, if_neg hk, Nat.add_zero]
    · rw [List.foldl_cons, ih hnodup _ (by simpa only [(takeDefinite_nonFungible_fungible i).2,
        fungibleEntries_cons_nonFungible] using hfresh)]
      simp only [amount, (takeDefinite_nonFungible_fungible i).1, (takeDefinite_nonFungible_fungible i).2,
        asked_cons_nonFungible]

/-- The `Definite` loop of `general_take` moves the named instances that `self` has from `self` to `taken`. -/
theorem holds_foldl_takeDefinite (assets : List (Asset K I)) (acc : AssetsInHolding K I × AssetsInHolding K I)
    (x : K ×ₗ I) :
    (assets.foldl takeDefinite acc).1.holds x = (acc.1.holds x && decide (x ∉ nonFungibles assets)) ∧
      (assets.foldl takeDefinite acc).2.holds x =
        (acc.2.holds x || acc.1.holds x && decide (x ∈ nonFungibles assets)) := by
  induction assets generalizing acc with
  | nil => simp [nonFungibles]
  | cons asset assets ih =>
    obtain ⟨h, t⟩ := acc
    obtain ⟨id, a | i⟩ := asset
    · obtain ⟨h₁, h₂⟩ := @takeDefinite_fungible_nonFungible K I _ _ h t id a
      rw [List.foldl_cons, (ih _).1, (ih _).2, nonFungibles_cons_fungible]
      simp only [holds, h₁, h₂, and_self]
    · obtain ⟨h₁, h₂⟩ := @holds_takeDefinite K I _ _ h t id x i
      rw [List.foldl_cons, (ih _).1, (ih _).2, h₁, h₂, nonFungibles_cons_nonFungible]
      by_cases hx : x = toLex (id, i) <;> simp [hx]

end Definite

/-! ## The `Definite` loop of `min` -/

section MinDefinite

variable {H m : AssetsInHolding K I} {id k : K} {x : K ×ₗ I}

/-- `min` subsumes into a `masked` without an entry for the id as much as was asked, as far as `self` has it. -/
theorem amount_minDefinite (a : Nat) (hm : m.fungible.get? id = none) :
    (H.minDefinite m ⟨id, .fungible a⟩).amount k = m.amount k + if k = id then Min.min a (H.amount id) else 0 := by
  rw [minDefinite]
  split
  · rename_i v hv
    have hiv : H.amount id = v := by rw [amount, hv]; rfl
    by_cases hk : k = id
    · rw [amount, get?_subsume_fungible, if_pos hk, hm, if_pos hk, hk, amount_eq_zero_of_none hm, hiv]
      simp
    · rw [amount, get?_subsume_fungible, if_neg hk, if_neg hk]
      rfl
  · rename_i hv
    split
    · rename_i hk
      rw [hk, amount_eq_zero_of_none hv]
      simp
    · rfl

theorem get?_minDefinite (a : Nat) (hk : k ≠ id) :
    (H.minDefinite m ⟨id, .fungible a⟩).fungible.get? k = m.fungible.get? k := by
  rw [minDefinite]
  split
  · rw [get?_subsume_fungible, if_neg hk]
  · rfl

@[simp] theorem minDefinite_fungible_nonFungible (a : Nat) :
    (H.minDefinite m ⟨id, .fungible a⟩).nonFungible = m.nonFungible := by
  rw [minDefinite]
  split <;> rfl

@[simp] theorem minDefinite_nonFungible_fungible (i : I) :
    (H.minDefinite m ⟨id, .nonFungible i⟩).fungible = m.fungible := by
  rw [minDefinite]
  split <;> rfl

theorem holds_minDefinite (i : I) :
    (H.minDefinite m ⟨id, .nonFungible i⟩).holds x = (m.holds x || H.holds x && decide (x = toLex (id, i))) := by
  rw [minDefinite]
  unfold holds
  split
  · rename_i hheld
    rw [get?_subsume_nonFungible]
    by_cases hx : x = toLex (id, i)
    · subst hx
      simp [hheld]
    · simp [hx]
  · rename_i hheld
    by_cases hx : x = toLex (id, i)
    · subst hx
      simp [hheld]
    · simp [hx]

/-- The `Definite` loop of `min` gives each asked id as much as was asked, as far as `self` has it. -/
theorem amount_foldl_minDefinite (assets : List (Asset K I))
    (hnodup : ((fungibleEntries assets).map Prod.fst).Nodup) (m : AssetsInHolding K I)
    (hfresh : ∀ k ∈ (fungibleEntries assets).map Prod.fst, m.fungible.get? k = none) (k : K) :
    (assets.foldl H.minDefinite m).amount k = m.amount k + Min.min (asked assets k) (H.amount k) := by
  induction assets generalizing m with
  | nil => simp [asked, fungibleEntries]
  | cons asset assets ih =>
    obtain ⟨id, a | i⟩ := asset
    · rw [fungibleEntries_cons_fungible, List.map_cons, List.nodup_cons] at hnodup
      have hm : m.fungible.get? id = none := hfresh id List.mem_cons_self
      have hfresh' : ∀ k ∈ (fungibleEntries assets).map Prod.fst,
          (H.minDefinite m ⟨id, .fungible a⟩).fungible.get? k = none := by
        intro k' hk'
        have hne : k' ≠ id := fun h => hnodup.1 (h ▸ hk')
        rw [get?_minDefinite a hne]
        exact hfresh k' (List.mem_cons_of_mem _ hk')
      rw [List.foldl_cons, ih hnodup.2 _ hfresh', amount_minDefinite a hm, asked_cons_fungible]
      by_cases hk : k = id
      · subst hk
        rw [asked_eq_zero hnodup.1, if_pos rfl, if_pos rfl]
        simp
      · rw [if_neg hk, if_neg hk, Nat.add_zero]
    · rw [List.foldl_cons, ih hnodup _ (by simpa only [minDefinite_nonFungible_fungible,
        fungibleEntries_cons_nonFungible] using hfresh)]
      simp only [amount, minDefinite_nonFungible_fungible, asked_cons_nonFungible]

/-- The `Definite` loop of `min` adds the named instances that `self` has. -/
theorem holds_foldl_minDefinite (assets : List (Asset K I)) (m : AssetsInHolding K I) (x : K ×ₗ I) :
    (assets.foldl H.minDefinite m).holds x = (m.holds x || H.holds x && decide (x ∈ nonFungibles assets)) := by
  induction assets generalizing m with
  | nil => simp [nonFungibles]
  | cons asset assets ih =>
    obtain ⟨id, a | i⟩ := asset
    · rw [List.foldl_cons, ih, nonFungibles_cons_fungible]
      simp only [holds, minDefinite_fungible_nonFungible]
    · rw [List.foldl_cons, ih, holds_minDefinite, nonFungibles_cons_nonFungible]
      by_cases hx : x = toLex (id, i)
      · cases m.holds x <;> cases H.holds x <;> simp [hx]
      · simp [hx]

end MinDefinite

/-! ## The arms of `general_take` against those of `min` -/

/-- `rest` and `taken` split the holding: the amounts add up, and every instance is on exactly one side. -/
def Splits (holding rest taken : AssetsInHolding K I) : Prop :=
  (∀ k, holding.amount k = rest.amount k + taken.amount k) ∧
    ∀ x, holding.holds x = (rest.holds x || taken.holds x) ∧ (rest.holds x && taken.holds x) = false

section Arms

variable {holding rest taken : AssetsInHolding K I}

theorem getD_or_eq_add {o₁ o₂ : Option Nat} (h : ¬ (o₁.isSome ∧ o₂.isSome)) :
    (o₁.or o₂).getD 0 = o₁.getD 0 + o₂.getD 0 := by
  cases o₁ <;> cases o₂ <;> simp_all

theorem isSome_or_of_apart {V : Type} {o₁ o₂ : Option V} (h : ¬ (o₁.isSome ∧ o₂.isSome)) :
    (o₁.or o₂).isSome = (o₁.isSome || o₂.isSome) ∧ (o₁.isSome && o₂.isSome) = false := by
  cases o₁ <;> cases o₂ <;> simp_all

/-- Sides that find together what the holding has under every key, and never both, split it. -/
theorem splits_of_get?
    (hf : ∀ k, (rest.fungible.get? k).or (taken.fungible.get? k) = holding.fungible.get? k ∧
      ¬ ((rest.fungible.get? k).isSome ∧ (taken.fungible.get? k).isSome))
    (hn : ∀ x, (rest.nonFungible.get? x).or (taken.nonFungible.get? x) = holding.nonFungible.get? x ∧
      ¬ ((rest.nonFungible.get? x).isSome ∧ (taken.nonFungible.get? x).isSome)) :
    Splits holding rest taken := by
  refine ⟨fun k => ?_, fun x => ?_⟩
  · obtain ⟨hor, hboth⟩ := hf k
    unfold amount
    rw [← hor, getD_or_eq_add hboth]
  · obtain ⟨hor, hboth⟩ := hn x
    unfold holds
    rw [← hor]
    exact isSome_or_of_apart hboth

theorem splits_new_left : Splits holding new holding :=
  ⟨fun _ => by simp, fun _ => by simp⟩

theorem splits_new_right : Splits holding holding new :=
  ⟨fun _ => by simp, fun _ => by simp⟩

theorem eq_new_of_len_eq_zero (h : holding.len = 0) : holding = new := by
  obtain ⟨⟨fs, hfs⟩, ⟨ns, hns⟩⟩ := holding
  have hf : fs = [] := List.eq_nil_of_length_eq_zero (by unfold len at h; simp only at h; omega)
  have hn : ns = [] := List.eq_nil_of_length_eq_zero (by unfold len at h; simp only at h; omega)
  subst hf hn
  rfl

theorem stop_of_insertUntil_inl {α : Type} {ins : AssetsInHolding K I → α → AssetsInHolding K I} {p : α → Bool}
    {stop : AssetsInHolding K I → Bool} {l : List α} {t m : AssetsInHolding K I}
    (h : insertUntil ins p stop l t = .inl m) : stop m = true := by
  induction l generalizing t with
  | nil => cases h
  | cons e l ih =>
    rw [insertUntil] at h
    split at h
    · dsimp only at h
      split at h
      · cases h
        assumption
      · exact ih h
    · exact ih h

/-- The counted loops over the fungible map, then the non-fungible one, against `min`'s: the same `taken`. -/
theorem takeAll_eq_minAll {n : Nat} (hle : ¬ holding.len ≤ n) (hn : n ≠ 0) :
    (holding.takeAll (some n)).2 = holding.minAll (some n) := by
  have hroom : (some n).any (· ≤ (new : AssetsInHolding K I).len) = false := by simpa using hn
  have hc : ∀ {α : Type} (t : AssetsInHolding K I) (e : α),
      decide (t.len < n) = ((fun _ => true) e && !(some n).any (· ≤ t.len)) := by
    intro α t e
    rw [← all_lt_eq_not_any_le]
    rfl
  have hall : (some n).all (holding.len ≤ ·) = false := by simpa using hle
  rw [takeAll, if_neg hle, if_neg hn, minAll]
  simp only [hall, Bool.false_eq_true, if_false]
  set acc := holding.fungible.entries.foldl (sortInto insertFungible fun taken _ => taken.len < n)
    ({ holding with fungible := .empty }, new)
  -- the fungible loops build the same `taken`, by the simulation
  have hfung : acc.2 = _ := snd_foldl_sortInto insertFungible (fun t e => hc t e)
    holding.fungible.entries { holding with fungible := .empty } new hroom
  split
  · rename_i m hm
    have hm' : acc.2 = m := by rw [hfung, hm]
    rw [hm']
    -- `min` returned with a full `masked`: the non-fungible loop of `general_take` adds nothing
    apply snd_foldl_sortInto_of_full
    intro e
    show decide (m.len < n) = false
    rw [hc m e, stop_of_insertUntil_inl hm]
    rfl
  · rename_i m hm
    have hm' : acc.2 = m := by rw [hfung, hm]
    rw [hm']
    exact snd_foldl_sortInto _ (fun t e => hc t e) _ _ m (stop_of_insertUntil_inr hm hroom)

theorem takeAll_eq_min (holding : AssetsInHolding K I) (maybeLimit : Option Nat) :
    (holding.takeAll maybeLimit).2 = if maybeLimit.any (· = 0) then new else holding.minAll maybeLimit := by
  cases maybeLimit with
  | none => rfl
  | some n =>
    by_cases hle : holding.len ≤ n
    · have hall : (some n).all (holding.len ≤ ·) = true := by simpa using hle
      rw [takeAll, if_pos hle, minAll, if_pos hall]
      by_cases hn : n = 0
      · -- nothing to take from an empty holding
        have hempty : holding = new := eq_new_of_len_eq_zero (by omega)
        rw [if_pos (by simpa using hn), hempty]
      · rw [if_neg (by simpa using hn)]
    · by_cases hn : n = 0
      · rw [takeAll, if_neg hle, if_pos hn, if_pos (by simpa using hn)]
      · rw [if_neg (by simpa using hn), takeAll_eq_minAll hle hn]

theorem splits_takeAll (holding : AssetsInHolding K I) (maybeLimit : Option Nat) :
    Splits holding (holding.takeAll maybeLimit).1 (holding.takeAll maybeLimit).2 := by
  cases maybeLimit with
  | none => exact splits_new_left
  | some n =>
    rw [takeAll]
    split_ifs with hle hn
    · exact splits_new_left
    · exact splits_new_right
    · dsimp only
      set acc := holding.fungible.entries.foldl (sortInto insertFungible fun taken _ => taken.len < n)
        ({ holding with fungible := .empty }, new)
      -- each fungible entry ends on one side, and the non-fungible loop leaves the fungible maps alone
      have hf := get?_foldl_sortInto_of_empty (fun h => h.fungible) insertFungible (fun _ _ => rfl)
        (fun taken _ => decide (taken.len < n)) holding.fungible.entries holding.fungible.nodup_keys
        ({ holding with fungible := .empty }, new)
        (fun _ => rfl) (fun _ => rfl)
      have hframe := foldl_sortInto_frame insertNonFungible (fun h => h.fungible) (fun _ _ => rfl)
        (fun taken _ => decide (taken.len < n)) holding.nonFungible.entries
        ({ acc.1 with nonFungible := .empty }, acc.2)
      have hnew := (foldl_sortInto_frame insertFungible (fun h => h.nonFungible) (fun _ _ => rfl)
        (fun taken _ => decide (taken.len < n)) holding.fungible.entries ({ holding with fungible := .empty }, new)).2
      have hn := get?_foldl_sortInto_of_empty (fun h => h.nonFungible) insertNonFungible (fun _ _ => rfl)
        (fun taken _ => decide (taken.len < n)) holding.nonFungible.entries holding.nonFungible.nodup_keys
        ({ acc.1 with nonFungible := .empty }, acc.2)
        (fun _ => rfl) (fun x => by simp only [acc, hnew]; rfl)
      refine splits_of_get? (fun k => ?_) (fun x => hn x)
      simp only at hframe
      rw [hframe.1, hframe.2]
      exact hf k

theorem len_takeAll_le (holding : AssetsInHolding K I) (maybeLimit : Option Nat) :
    ∀ n, maybeLimit = some n → (holding.takeAll maybeLimit).2.len ≤ n := by
  rintro n rfl
  rw [takeAll]
  split_ifs with hle hn
  · exact hle
  · exact Nat.zero_le n
  · dsimp only
    have hroom : ∀ (α : Type) (t : AssetsInHolding K I) (e : α), decide (t.len < n) = true → t.len < n :=
      fun _ _ _ h => of_decide_eq_true h
    apply len_foldl_sortInto_le (fun _ _ => len_insertNonFungible_le _) (hroom _)
    exact len_foldl_sortInto_le (fun _ _ => len_insertFungible_le _) (hroom _) _ _ (Nat.zero_le n)

theorem takeFungibleOf_eq_min (holding : AssetsInHolding K I) (id : K) (maybeLimit : Option Nat) :
    (holding.takeFungibleOf id maybeLimit).2 = if maybeLimit.any (· = 0) then new else holding.minFungibleOf id := by
  have hiff : maybeLimit.all (1 ≤ ·) = !maybeLimit.any (· = 0) := by
    cases maybeLimit with
    | none => rfl
    | some n => by_cases hn : n = 0 <;> simp [hn, Nat.one_le_iff_ne_zero]
  rw [takeFungibleOf, hiff]
  by_cases h0 : maybeLimit.any (· = 0) = true
  · rw [if_pos h0, h0]
    rfl
  · rw [if_neg h0, Bool.eq_false_iff.mpr h0, minFungibleOf]
    cases holding.fungible.get? id <;> rfl

theorem splits_takeFungibleOf (holding : AssetsInHolding K I) (id : K) (maybeLimit : Option Nat) :
    Splits holding (holding.takeFungibleOf id maybeLimit).1 (holding.takeFungibleOf id maybeLimit).2 := by
  rw [takeFungibleOf]
  split_ifs
  · split
    · rename_i a ha
      -- the entry moves whole from one side to the other
      refine splits_of_get? (fun k => ?_) (fun x => by simp)
      dsimp only
      rw [SortedMap.get?_remove, get?_insertFungible]
      by_cases hk : k = id
      · subst hk
        simp [ha]
      · simp [hk]
    · exact splits_new_right
  · exact splits_new_right

theorem len_takeFungibleOf_le (holding : AssetsInHolding K I) (id : K) (maybeLimit : Option Nat) :
    ∀ n, maybeLimit = some n → (holding.takeFungibleOf id maybeLimit).2.len ≤ n := by
  rintro n rfl
  rw [takeFungibleOf]
  split_ifs with h1
  · have hn : 1 ≤ n := by simpa using h1
    split
    · exact (len_insertFungible_le _).trans hn
    · exact Nat.zero_le n
  · exact Nat.zero_le n

theorem takeNonFungibleOf_eq_min (holding : AssetsInHolding K I) (id : K) (maybeLimit : Option Nat) :
    (holding.takeNonFungibleOf id maybeLimit).2 =
      if maybeLimit.any (· = 0) then new else holding.minNonFungibleOf id maybeLimit := by
  have hc : ∀ (t : AssetsInHolding K I) (e : (K ×ₗ I) × Unit),
      (decide ((ofLex e.1).1 = id) && maybeLimit.all (t.len < ·)) =
        (decide ((ofLex e.1).1 = id) && !maybeLimit.any (· ≤ t.len)) := by
    intro t e
    rw [all_lt_eq_not_any_le]
  have hzero : maybeLimit.any (· ≤ (new : AssetsInHolding K I).len) = maybeLimit.any (· = 0) := by
    cases maybeLimit <;> simp
  rw [takeNonFungibleOf]
  by_cases h0 : maybeLimit.any (· = 0) = true
  · -- a `limit` of `0` leaves `taken` full from the start
    rw [if_pos h0]
    apply snd_foldl_sortInto_of_full
    intro e
    rw [hc, hzero, h0, Bool.not_true, Bool.and_false]
  · rw [if_neg h0, minNonFungibleOf]
    exact snd_foldl_sortInto _ hc _ _ _ (by rw [hzero]; simpa using h0)

theorem splits_takeNonFungibleOf (holding : AssetsInHolding K I) (id : K) (maybeLimit : Option Nat) :
    Splits holding (holding.takeNonFungibleOf id maybeLimit).1 (holding.takeNonFungibleOf id maybeLimit).2 := by
  rw [takeNonFungibleOf]
  have hframe := foldl_sortInto_frame insertNonFungible (fun h => h.fungible) (fun _ _ => rfl)
    (fun taken e => decide ((ofLex e.1).1 = id) && maybeLimit.all (taken.len < ·)) holding.nonFungible.entries
    ({ holding with nonFungible := .empty }, new)
  have hn := get?_foldl_sortInto_of_empty (fun h => h.nonFungible) insertNonFungible (fun _ _ => rfl)
    (fun taken e => decide ((ofLex e.1).1 = id) && maybeLimit.all (taken.len < ·)) holding.nonFungible.entries
    holding.nonFungible.nodup_keys ({ holding with nonFungible := .empty }, new) (fun _ => rfl) (fun _ => rfl)
  refine splits_of_get? (fun k => ?_) (fun x => hn x)
  simp only at hframe
  rw [hframe.1, hframe.2]
  simp

theorem len_takeNonFungibleOf_le (holding : AssetsInHolding K I) (id : K) (maybeLimit : Option Nat) :
    ∀ n, maybeLimit = some n → (holding.takeNonFungibleOf id maybeLimit).2.len ≤ n := by
  rintro n rfl
  apply len_foldl_sortInto_le (fun _ _ => len_insertNonFungible_le _) _ _ _ (Nat.zero_le n)
  intro t e ht
  exact (by simpa using ht : (ofLex e.1).1 = id ∧ t.len < n).2

end Arms

/-! ## `saturating_take`, `try_take` and `checked_sub` -/

section Take

variable {holding : AssetsInHolding K I}

/-- An arm of `general_take` that agrees with `min`, splits the holding and keeps to the count gives all three for
its wildcard. -/
theorem wild_of_arm {w : WildAsset K} {saturate : Bool} (acc : AssetsInHolding K I × AssetsInHolding K I)
    (hgt : holding.generalTake (.wild w) saturate = (acc.1, .ok acc.2)) (hmin : holding.min (.wild w) = acc.2)
    (hsplit : Splits holding acc.1 acc.2) (hlen : ∀ n, w.limit = some n → acc.2.len ≤ n) :
    ∃ rest, holding.generalTake (.wild w) saturate = (rest, .ok (holding.min (.wild w))) ∧
      Splits holding rest (holding.min (.wild w)) ∧ ∀ n, w.limit = some n → (holding.min (.wild w)).len ≤ n := by
  rw [hmin]
  exact ⟨acc.1, hgt, hsplit, hlen⟩

/-- Under a wildcard, `general_take` takes what `min` computes, leaves the rest, and keeps to the count. -/
theorem generalTake_wild (holding : AssetsInHolding K I) (w : WildAsset K) (saturate : Bool) :
    ∃ rest, holding.generalTake (.wild w) saturate = (rest, .ok (holding.min (.wild w))) ∧
      Splits holding rest (holding.min (.wild w)) ∧ ∀ n, w.limit = some n → (holding.min (.wild w)).len ≤ n := by
  -- each wildcard runs one arm, with the limit its variant carries
  cases w with
  | all =>
    exact wild_of_arm _ rfl (takeAll_eq_min holding none).symm (splits_takeAll holding _) (len_takeAll_le holding _)
  | allCounted count =>
    exact wild_of_arm _ rfl (takeAll_eq_min holding (some count)).symm (splits_takeAll holding _)
      (len_takeAll_le holding _)
  | allOf id f =>
    cases f with
    | fungible =>
      exact wild_of_arm _ rfl (takeFungibleOf_eq_min holding id none).symm (splits_takeFungibleOf holding id _)
        (len_takeFungibleOf_le holding id _)
    | nonFungible =>
      exact wild_of_arm _ rfl (takeNonFungibleOf_eq_min holding id none).symm
        (splits_takeNonFungibleOf holding id _) (len_takeNonFungibleOf_le holding id _)
  | allOfCounted id f count =>
    cases f with
    | fungible =>
      exact wild_of_arm _ rfl (takeFungibleOf_eq_min holding id (some count)).symm
        (splits_takeFungibleOf holding id _) (len_takeFungibleOf_le holding id _)
    | nonFungible =>
      exact wild_of_arm _ rfl (takeNonFungibleOf_eq_min holding id (some count)).symm
        (splits_takeNonFungibleOf holding id _) (len_takeNonFungibleOf_le holding id _)

theorem generalTake_definite_true (assets : List (Asset K I)) :
    holding.generalTake (.definite assets) true =
      ((assets.foldl takeDefinite (holding, new)).1, .ok (assets.foldl takeDefinite (holding, new)).2) :=
  rfl

/-- Under a `Definite` filter naming each fungible id once, `general_take` leaves and takes the holding's amounts
and instances, and takes as much of each as `min` computes. -/
theorem generalTake_definite (assets : List (Asset K I)) (hnodup : ((fungibleEntries assets).map Prod.fst).Nodup) :
    Splits holding (assets.foldl takeDefinite (holding, new)).1 (assets.foldl takeDefinite (holding, new)).2 ∧
      (∀ k, (assets.foldl takeDefinite (holding, new)).2.amount k = (holding.min (.definite assets)).amount k) ∧
      ∀ x, (assets.foldl takeDefinite (holding, new)).2.holds x = (holding.min (.definite assets)).holds x := by
  have hfresh : ∀ k ∈ (fungibleEntries assets).map Prod.fst, (new : AssetsInHolding K I).fungible.get? k = none :=
    fun _ _ => rfl
  have hmin : holding.min (.definite assets) = assets.foldl holding.minDefinite new := rfl
  refine ⟨⟨fun k => ?_, fun x => ?_⟩, fun k => ?_, fun x => ?_⟩
  · rw [amount_foldl_takeDefinite_fst assets hnodup, amount_foldl_takeDefinite_snd assets hnodup _ hfresh]
    have hle : Min.min (asked assets k) (holding.amount k) ≤ holding.amount k := min_le_right _ _
    simp only [amount_new]
    omega
  · obtain ⟨h₁, h₂⟩ := holds_foldl_takeDefinite assets (holding, new) x
    simp only [h₁, h₂, holds_new, Bool.false_or]
    by_cases hx : x ∈ nonFungibles assets <;> cases holding.holds x <;> simp [hx]
  · rw [amount_foldl_takeDefinite_snd assets hnodup _ hfresh, hmin, amount_foldl_minDefinite assets hnodup _ hfresh]
  · rw [(holds_foldl_takeDefinite assets (holding, new) x).2, hmin, holds_foldl_minDefinite]

/-- `saturating_take` never fails: what it leaves and what it takes split the holding, it takes as much of each
asset as `min` computes, and no more than a counted wildcard allows. -/
theorem saturatingTake_spec (holding : AssetsInHolding K I) (mask : AssetFilter K I)
    (hmask : mask.FungibleIdsDistinct) :
    ∃ rest taken, holding.saturatingTake mask = some (rest, taken) ∧ Splits holding rest taken ∧
      (∀ k, taken.amount k = (holding.min mask).amount k) ∧ (∀ x, taken.holds x = (holding.min mask).holds x) ∧
      ∀ n, mask.limit = some n → taken.len ≤ n := by
  cases mask with
  | definite assets =>
    obtain ⟨hsplit, hamount, hholds⟩ := @generalTake_definite K I _ _ holding assets hmask
    refine ⟨_, _, ?_, hsplit, hamount, hholds, fun n hn => nomatch hn⟩
    rw [saturatingTake, generalTake_definite_true]
  | wild w =>
    obtain ⟨rest, hgt, hsplit, hlen⟩ := generalTake_wild holding w true
    refine ⟨rest, _, ?_, hsplit, fun _ => rfl, fun _ => rfl, hlen⟩
    rw [saturatingTake, hgt]

theorem generalTake_wild_false (w : WildAsset K) :
    holding.generalTake (.wild w) false = holding.generalTake (.wild w) true := by
  cases w with
  | allOf id f => cases f <;> rfl
  | allOfCounted id f count => cases f <;> rfl
  | _ => rfl

/-- `try_take` fails just where `ensure_contains` fails on a `Definite` filter, and then leaves the holding as it
was; otherwise it does what `saturating_take` does. -/
theorem tryTake_spec (holding : AssetsInHolding K I) (mask : AssetFilter K I) :
    ((∃ e, (holding.tryTake mask).2 = .error e) ↔
        ∃ assets e, mask = .definite assets ∧ holding.ensureContains assets = .error e) ∧
      (∀ e, (holding.tryTake mask).2 = .error e → (holding.tryTake mask).1 = holding) ∧
      ((∀ e, (holding.tryTake mask).2 ≠ .error e) →
        ∃ rest taken, holding.tryTake mask = (rest, .ok taken) ∧ holding.saturatingTake mask = some (rest, taken)) := by
  cases mask with
  | definite assets =>
    cases hc : holding.ensureContains assets with
    | error e =>
      have htry : holding.tryTake (.definite assets) = (holding, .error e) := by
        unfold tryTake generalTake
        simp only [hc]
      rw [htry]
      refine ⟨⟨fun _ => ⟨assets, e, rfl, hc⟩, fun _ => ⟨e, rfl⟩⟩, fun _ _ => rfl, fun hne => absurd rfl (hne e)⟩
    | ok u =>
      have htry : holding.tryTake (.definite assets) = holding.generalTake (.definite assets) true := by
        unfold tryTake generalTake
        simp only [hc]
      rw [htry, generalTake_definite_true]
      refine ⟨⟨fun ⟨_, he⟩ => (nomatch he), fun ⟨_, _, hm, he⟩ => ?_⟩, fun _ he => (nomatch he), fun _ => ?_⟩
      · cases hm
        rw [hc] at he
        cases he
      · exact ⟨_, _, rfl, by rw [saturatingTake, generalTake_definite_true]⟩
  | wild w =>
    obtain ⟨rest, hgt, -⟩ := generalTake_wild holding w true
    rw [tryTake, generalTake_wild_false, hgt]
    refine ⟨⟨fun ⟨_, he⟩ => (nomatch he), fun ⟨_, _, hm, _⟩ => (nomatch hm)⟩, fun _ he => (nomatch he), fun _ => ?_⟩
    exact ⟨_, _, rfl, by rw [saturatingTake, hgt]⟩

end Take

/-- `rest` is `holding` less `asset`: the amount of its id lowered by its amount, or its instance gone, and all else
as it was. -/
def IsLess (rest holding : AssetsInHolding K I) : Asset K I → Prop
  | ⟨id, .fungible a⟩ =>
    rest.amount id = holding.amount id - a ∧ (∀ k, k ≠ id → rest.fungible.get? k = holding.fungible.get? k) ∧
      rest.nonFungible = holding.nonFungible
  | ⟨id, .nonFungible i⟩ =>
    rest.fungible = holding.fungible ∧
      ∀ x, rest.nonFungible.get? x = if x = toLex (id, i) then none else holding.nonFungible.get? x

/-- `checked_sub` succeeds just when `self` holds the asset, and then returns `self` less it; otherwise it returns
`self` as it was. -/
theorem checkedSub_spec (holding : AssetsInHolding K I) (asset : Asset K I) :
    ((∃ rest, holding.checkedSub asset = .ok rest) ↔ holding.containsAsset asset = true) ∧
      (∀ rest, holding.checkedSub asset = .ok rest → rest.IsLess holding asset) ∧
      (holding.containsAsset asset = false → holding.checkedSub asset = .error holding) := by
  obtain ⟨id, a | i⟩ := asset
  · simp only [checkedSub, containsAsset]
    cases hb : holding.fungible.get? id with
    | none => simp
    | some b =>
      have hamount : holding.amount id = b := by rw [amount, hb]; rfl
      by_cases hab : a ≤ b
      · refine ⟨by simp [hab], ?_, by simp [hab]⟩
        rintro rest hrest
        simp only [hab, if_true, Except.ok.injEq] at hrest
        subst hrest
        refine ⟨by rw [amount_setAmount, if_pos rfl, hamount], fun k hk => ?_, setAmount_nonFungible⟩
        rw [get?_setAmount, if_neg hk]
      · simp [hab]
  · simp only [checkedSub, containsAsset]
    by_cases hheld : (holding.nonFungible.get? (toLex (id, i))).isSome = true
    · refine ⟨by simp [hheld], ?_, by simp [hheld]⟩
      rintro rest hrest
      simp only [hheld, if_true, Except.ok.injEq] at hrest
      subst hrest
      exact ⟨rfl, fun x => SortedMap.get?_remove _ _ _⟩
    · simp [hheld]

/-- `saturating_take` never fails: what it leaves and takes split the holding, it takes as much of each asset as `min`
computes, the same instances, and no more assets than a counted wildcard allows. `try_take` fails just where
`ensure_contains` fails on a `Definite` filter, leaving the holding, and otherwise does what `saturating_take` does.
`checked_sub` succeeds just when the holding holds the asset, giving the holding less it, and otherwise returns it. -/
theorem take_splits_holding (holding : AssetsInHolding K I) (mask : AssetFilter K I)
    (hmask : mask.FungibleIdsDistinct) (asset : Asset K I) :
    (∃ rest taken, holding.saturatingTake mask = some (rest, taken) ∧ Splits holding rest taken ∧
      (∀ k, taken.amount k = (holding.min mask).amount k) ∧ (∀ x, taken.holds x = (holding.min mask).holds x) ∧
      ∀ n, mask.limit = some n → taken.len ≤ n) ∧
    ((∃ e, (holding.tryTake mask).2 = .error e) ↔
      ∃ assets e, mask = .definite assets ∧ holding.ensureContains assets = .error e) ∧
    (∀ e, (holding.tryTake mask).2 = .error e → (holding.tryTake mask).1 = holding) ∧
    ((∀ e, (holding.tryTake mask).2 ≠ .error e) →
      ∃ rest taken, holding.tryTake mask = (rest, .ok taken) ∧ holding.saturatingTake mask = some (rest, taken)) ∧
    ((∃ rest, holding.checkedSub asset = .ok rest) ↔ holding.containsAsset asset = true) ∧
    (∀ rest, holding.checkedSub asset = .ok rest → rest.IsLess holding asset) ∧
    (holding.containsAsset asset = false → holding.checkedSub asset = .error holding) := by
  obtain ⟨herr, hkeep, hsat⟩ := tryTake_spec holding mask
  exact ⟨saturatingTake_spec holding mask hmask, herr, hkeep, hsat, checkedSub_spec holding asset⟩

end AssetsInHolding

/-! ## Zero amounts -/

/-- `100` each of assets `0` and `1`. -/
def twoHeld : AssetsInHolding Nat Nat :=
  ⟨⟨[(0, 100), (1, 100)], by decide⟩, .empty⟩

/-- Asking `200` of asset `0` and `50` of asset `1` names each id once, and what is left and what is taken split the
holding. -/
theorem take_splits_holding_two_assets :
    (AssetFilter.definite [⟨0, .fungible 200⟩, ⟨1, .fungible 50⟩] : AssetFilter Nat Nat).FungibleIdsDistinct ∧
      ∃ rest taken, twoHeld.saturatingTake (.definite [⟨0, .fungible 200⟩, ⟨1, .fungible 50⟩]) = some (rest, taken) ∧
        twoHeld.Splits rest taken := by
  obtain ⟨rest, taken, hsat, hsplit, -⟩ :=
    (AssetsInHolding.take_splits_holding twoHeld (.definite [⟨0, .fungible 200⟩, ⟨1, .fungible 50⟩]) (by decide)
      ⟨0, .fungible 1⟩).1
  exact ⟨by decide, rest, taken, hsat, hsplit⟩

/-- An entry of `0` for asset `0`. -/
def zeroHeld : AssetsInHolding Nat Nat :=
  ⟨⟨[(0, 0)], by decide⟩, .empty⟩

/-- Asking `0` of asset `0` from a holding with an entry of `0` for it: `general_take` lowers the entry to `0` and
removes it, and takes nothing, so the entry is on neither side; `min` returns it. -/
theorem take_drops_zero_entry :
    zeroHeld.fungible.get? 0 = some 0 ∧
      zeroHeld.saturatingTake (.definite [⟨0, .fungible 0⟩]) = some (.new, .new) ∧
      (zeroHeld.min (.definite [⟨0, .fungible 0⟩])).fungible.get? 0 = some 0 :=
  ⟨rfl, rfl, rfl⟩

end CoreChain.Xcm

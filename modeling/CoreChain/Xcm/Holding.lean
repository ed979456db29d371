import CoreChain.Lib.SortedMap
import CoreChain.Lib.Machine
import Mathlib

/-!
# The XCM holding register: `subsume` and `subsume_assets`

`AssetsInHolding` (`xcm-executor/src/assets.rs`) keeps the fungible assets as a `BTreeMap` from asset id to a `u128`
amount and the non-fungible ones as a `BTreeSet` of pairs of an id and an instance, ordered as pairs
(`SortedMap`; a set is a map to `Unit`). `subsume` adds one asset: a fungible amount onto its id's, saturating at
`u128::MAX`, or a non-fungible instance into the set. `subsume_assets` adds a whole holding in one pass over both
fungible maps in order of id (`subsumeLoop`): where the two cursors meet on an id it adds `self`'s amount onto the
incoming one, and `append` then keeps the incoming value.

What the pass leaves (`subsumeLoop_forall₂`): each incoming amount as it was, or with the amount `self` holds at its
id added. So an id on one side only keeps its amount (`get?_subsumeAssets_of_none`, `get?_subsumeAssets_of_some`)
and the non-fungible set is the union (`get?_subsumeAssets_nonFungible`). Subsuming the assets one at a time
(`subsumeEach`) adds the amounts of every common id (`get?_subsumeEach_of_some`). The pass does not: once the
incoming cursor has moved onto an id equal to `self`'s, the second test moves `self`'s cursor on without adding, and
`append` drops `self`'s amount (`subsumeAssets_drops_amount`).
-/

namespace CoreChain.Xcm

/-- `u128::MAX`. -/
def u128Max : Nat := 2 ^ 128 - 1

/-- `u128::saturating_add`. -/
def saturatingAdd (a b : Nat) : Nat := min (a + b) u128Max

/-- `Fungibility`: an amount of a fungible asset, or one instance of a non-fungible one. -/
inductive Fungibility (I : Type) where
  | fungible (amount : Nat)
  | nonFungible (assetInstance : I)
  deriving DecidableEq, Repr

/-- `Asset`: an asset id and how much of it, or which instance. -/
structure Asset (K I : Type) where
  id : K
  «fun» : Fungibility I
  deriving DecidableEq, Repr

variable {K I : Type} [LinearOrder K] [LinearOrder I]

/-- `AssetsInHolding`. -/
structure AssetsInHolding (K I : Type) [LinearOrder K] [LinearOrder I] where
  fungible : SortedMap K Nat
  nonFungible : SortedMap (K ×ₗ I) Unit

namespace AssetsInHolding

/-- `subsume`: a fungible amount is added onto its id's, saturating, or inserted; a non-fungible instance is
inserted into the set. -/
def subsume (holding : AssetsInHolding K I) (asset : Asset K I) : AssetsInHolding K I :=
  match asset.«fun» with
  | .fungible amount =>
    { holding with fungible := holding.fungible.upsert (saturatingAdd · amount) asset.id amount }
  | .nonFungible assetInstance =>
    { holding with nonFungible := holding.nonFungible.insert (toLex (asset.id, assetInstance)) () }

/-- `assets_iter`: the fungible assets in order of id, then the non-fungible ones. -/
def assetsIter (holding : AssetsInHolding K I) : List (Asset K I) :=
  holding.fungible.entries.map (fun e => ⟨e.1, .fungible e.2⟩) ++
    holding.nonFungible.entries.map (fun e => ⟨(ofLex e.1).1, .nonFungible (ofLex e.1).2⟩)

/-- `for a in assets.assets_iter() { self.subsume(a) }`. -/
def subsumeEach (holding assets : AssetsInHolding K I) : AssetsInHolding K I :=
  assets.assetsIter.foldl subsume holding

end AssetsInHolding

/-- `(*f.1).saturating_accrue(*g.1)` when the keys are equal. -/
def accrue (f g : K × Nat) : K × Nat :=
  if f.1 = g.1 then (f.1, saturatingAdd f.2 g.2) else f

/-- The loop of `subsume_assets` over the fungible entries, in order of id, of the incoming assets (cursor `f`) and of
`self` (cursor `g`). On equal ids `self`'s amount is added onto the incoming one; then the incoming cursor moves if its
id is at most `self`'s, and `self`'s if the incoming id, as it now stands, is at least `self`'s. It breaks when a cursor
runs out, returning the incoming entries as it leaves them. -/
def subsumeLoop : List (K × Nat) → List (K × Nat) → List (K × Nat)
  | [], _ => []
  | f :: fs, [] => f :: fs
  | f :: fs, g :: gs =>
    let f := accrue f g
    if f.1 ≤ g.1 then
      match fs with
      | [] => [f]
      | f' :: fs =>
        if g.1 ≤ f'.1 then
          match gs with
          | [] => f :: f' :: fs
          | g' :: gs => f :: subsumeLoop (f' :: fs) (g' :: gs)
        else f :: subsumeLoop (f' :: fs) (g :: gs)
    else
      match gs with
      | [] => f :: fs
      | g' :: gs => subsumeLoop (f :: fs) (g' :: gs)
termination_by fs gs => fs.length + gs.length

/-- An incoming entry after the loop: the same id, and the same amount or `self`'s amount at that id added. -/
def Accrued (gs : List (K × Nat)) (o i : K × Nat) : Prop :=
  o.1 = i.1 ∧ (o.2 = i.2 ∨ ∃ g ∈ gs, g.1 = i.1 ∧ o.2 = saturatingAdd i.2 g.2)

section Loop

variable {f g : K × Nat} {gs : List (K × Nat)}

omit [LinearOrder K] in
theorem Accrued.mono {gs' : List (K × Nat)} {o i : K × Nat} (h : Accrued gs o i) (hsub : gs ⊆ gs') :
    Accrued gs' o i := by
  obtain ⟨hk, hv | ⟨g, hg, hgk, hv⟩⟩ := h
  · exact ⟨hk, .inl hv⟩
  · exact ⟨hk, .inr ⟨g, hsub hg, hgk, hv⟩⟩

omit [LinearOrder K] in
theorem Accrued.refl (gs : List (K × Nat)) (i : K × Nat) : Accrued gs i i :=
  ⟨rfl, .inl rfl⟩

omit [LinearOrder K] in
theorem forall₂_accrued_refl : ∀ fs : List (K × Nat), List.Forall₂ (Accrued gs) fs fs
  | [] => .nil
  | f :: fs => .cons (Accrued.refl gs f) (forall₂_accrued_refl fs)

@[simp] theorem accrue_fst : (accrue f g).1 = f.1 := by
  unfold accrue
  split <;> rfl

theorem accrue_of_ne (h : f.1 ≠ g.1) : accrue f g = f := by
  unfold accrue
  rw [if_neg h]

theorem accrued_accrue : Accrued (g :: gs) (accrue f g) f := by
  unfold accrue
  split
  · rename_i hk
    exact ⟨rfl, .inr ⟨g, List.mem_cons_self, hk.symm, rfl⟩⟩
  · exact Accrued.refl _ _

/-- The loop leaves each incoming entry with its id, and its amount or `self`'s amount at its id added. -/
theorem subsumeLoop_forall₂ (fs gs : List (K × Nat)) : List.Forall₂ (Accrued gs) (subsumeLoop fs gs) fs := by
  fun_induction subsumeLoop fs gs with
  | case1 gs => exact .nil
  | case2 f fs => exact forall₂_accrued_refl _
  | case3 f g gs f₁ hle => exact .cons accrued_accrue .nil
  | case4 f g f₁ hle f' fs hge => exact .cons accrued_accrue (forall₂_accrued_refl _)
  | case5 f g f₁ hle f' fs hge g' gs ih =>
    exact .cons accrued_accrue (List.Forall₂.imp (fun _ _ h => h.mono (List.subset_cons_self _ _)) ih)
  | case6 f g gs f₁ hle f' fs hlt ih => exact .cons accrued_accrue ih
  | case7 f fs g f₁ hgt => exact .cons accrued_accrue (forall₂_accrued_refl _)
  | case8 f fs g f₁ hgt g' gs ih =>
    -- the incoming id is past `self`'s: nothing was added, and the loop goes on from the same entry
    have hf : f₁ = f := accrue_of_ne fun h => hgt (by simp only [f₁, accrue_fst, h, le_refl])
    rw [hf] at ih ⊢
    exact List.Forall₂.imp (fun o i (h : Accrued (g' :: gs) o i) => h.mono (List.subset_cons_self g _)) ih

theorem subsumeLoop_keys (fs gs : List (K × Nat)) : (subsumeLoop fs gs).map Prod.fst = fs.map Prod.fst :=
  keys_eq_of_forall₂ (subsumeLoop_forall₂ fs gs) fun _ _ h => h.1

end Loop

namespace AssetsInHolding

/-- `subsume_assets`: the loop over both fungible maps, then `append` of the incoming maps onto `self`'s. -/
def subsumeAssets (holding assets : AssetsInHolding K I) : AssetsInHolding K I :=
  let fungible : SortedMap K Nat :=
    ⟨subsumeLoop assets.fungible.entries holding.fungible.entries,
      assets.fungible.sorted.of_keys_eq (subsumeLoop_keys _ _)⟩
  ⟨holding.fungible.append fungible, holding.nonFungible.append assets.nonFungible⟩

section Spec

variable {holding assets : AssetsInHolding K I} {k : K}

theorem get?_subsumeAssets_fungible (holding assets : AssetsInHolding K I) (k : K) :
    (holding.subsumeAssets assets).fungible.get? k =
      ((subsumeLoop assets.fungible.entries holding.fungible.entries).lookup k).or (holding.fungible.get? k) :=
  SortedMap.get?_append _ _ k

/-- What the loop leaves at an id, against the incoming amount there. -/
theorem subsumeLoop_lookup_rel (holding assets : AssetsInHolding K I) (k : K) :
    Option.Rel (fun o a => Accrued holding.fungible.entries (k, o) (k, a))
      ((subsumeLoop assets.fungible.entries holding.fungible.entries).lookup k) (assets.fungible.get? k) :=
  lookup_rel_of_forall₂ (subsumeLoop_forall₂ _ _) (fun _ _ h => h.1) k

/-- An id the incoming assets lack keeps `self`'s amount. -/
theorem get?_subsumeAssets_of_none (ha : assets.fungible.get? k = none) :
    (holding.subsumeAssets assets).fungible.get? k = holding.fungible.get? k := by
  have hrel := subsumeLoop_lookup_rel holding assets k
  rw [ha] at hrel
  rw [get?_subsumeAssets_fungible, rel_none_right hrel, Option.none_or]

/-- An incoming amount is kept, or has `self`'s amount at its id added. -/
theorem get?_subsumeAssets_of_some {a : Nat} (ha : assets.fungible.get? k = some a) :
    (holding.subsumeAssets assets).fungible.get? k = some a ∨
      ∃ b, holding.fungible.get? k = some b ∧
        (holding.subsumeAssets assets).fungible.get? k = some (saturatingAdd a b) := by
  have hrel := subsumeLoop_lookup_rel holding assets k
  rw [ha] at hrel
  obtain ⟨o, ho, -, hv | ⟨g, hg, hgk, hv⟩⟩ := rel_some_right hrel
  · left
    rw [get?_subsumeAssets_fungible, ho]
    exact congrArg some hv
  · -- the entry of `self` that was added is the one at `k`
    have hself : holding.fungible.get? k = some g.2 := by
      rw [← show g.1 = k from hgk]
      exact holding.fungible.sorted.lookup_of_mem hg
    right
    refine ⟨g.2, hself, ?_⟩
    rw [get?_subsumeAssets_fungible, ho]
    exact congrArg some hv

theorem get?_subsumeAssets_nonFungible (x : K ×ₗ I) :
    (holding.subsumeAssets assets).nonFungible.get? x = (assets.nonFungible.get? x).or (holding.nonFungible.get? x) :=
  SortedMap.get?_append _ _ x

end Spec

section Each

/-- Subsuming fungible assets one at a time upserts their amounts and leaves the non-fungible set. -/
theorem foldl_subsume_fungible (l : List (K × Nat)) (holding : AssetsInHolding K I) :
    ((l.map fun e => (⟨e.1, .fungible e.2⟩ : Asset K I)).foldl subsume holding).fungible.entries =
        l.foldl (fun acc p => upsertEntry (saturatingAdd · p.2) p.1 p.2 acc) holding.fungible.entries ∧
      ((l.map fun e => (⟨e.1, .fungible e.2⟩ : Asset K I)).foldl subsume holding).nonFungible =
        holding.nonFungible := by
  induction l generalizing holding with
  | nil => exact ⟨rfl, rfl⟩
  | cons e l ih => exact ih _

/-- Subsuming non-fungible assets one at a time inserts them and leaves the fungible amounts. -/
theorem foldl_subsume_nonFungible (l : List ((K ×ₗ I) × Unit)) (holding : AssetsInHolding K I) :
    ((l.map fun e => (⟨(ofLex e.1).1, .nonFungible (ofLex e.1).2⟩ : Asset K I)).foldl subsume
        holding).nonFungible.entries =
        l.foldl (fun acc p => upsertEntry (fun _ => p.2) p.1 p.2 acc) holding.nonFungible.entries ∧
      ((l.map fun e => (⟨(ofLex e.1).1, .nonFungible (ofLex e.1).2⟩ : Asset K I)).foldl subsume
        holding).fungible = holding.fungible := by
  induction l generalizing holding with
  | nil => exact ⟨rfl, rfl⟩
  | cons e l ih => exact ih _

/-- The fungible amounts after subsuming the assets one at a time, read off those before. -/
theorem get?_subsumeEach_fungible (holding assets : AssetsInHolding K I) (k : K) :
    (holding.subsumeEach assets).fungible.get? k =
      (assets.fungible.get? k).elim (holding.fungible.get? k)
        fun a => some (((holding.fungible.get? k).map (saturatingAdd · a)).getD a) := by
  unfold subsumeEach assetsIter
  simp only [List.foldl_append, SortedMap.get?]
  rw [(foldl_subsume_nonFungible _ _).2, (foldl_subsume_fungible _ _).1]
  exact lookup_foldl_upsertEntry saturatingAdd assets.fungible.sorted holding.fungible.sorted k

/-- Subsuming the assets one at a time adds the amount of every common id, saturating. -/
theorem get?_subsumeEach_of_some {holding assets : AssetsInHolding K I} {k : K} {a b : Nat} (ha : assets.fungible.get? k = some a)
    (hb : holding.fungible.get? k = some b) :
    (holding.subsumeEach assets).fungible.get? k = some (saturatingAdd b a) := by
  rw [get?_subsumeEach_fungible, ha, hb]
  rfl

end Each

end AssetsInHolding

/-! ## An amount `subsume_assets` drops -/

/-- `self` holds `5` of asset `2`. -/
def heldFive : AssetsInHolding Nat Nat :=
  ⟨⟨[(2, 5)], by decide⟩, ⟨[], by decide⟩⟩

/-- The incoming assets: `1` of asset `1` and `3` of asset `2`. -/
def incoming : AssetsInHolding Nat Nat :=
  ⟨⟨[(1, 1), (2, 3)], by decide⟩, ⟨[], by decide⟩⟩

/-- The incoming cursor moves from asset `1` onto asset `2`, and the second test then moves `self`'s cursor past
asset `2` without adding: `subsume_assets` leaves `3` of asset `2` where subsuming the assets one at a time leaves
`8`. -/
theorem subsumeAssets_drops_amount :
    (heldFive.subsumeAssets incoming).fungible.get? 2 = some 3 ∧
      (heldFive.subsumeEach incoming).fungible.get? 2 = some 8 :=
  ⟨by decide +kernel,
    (AssetsInHolding.get?_subsumeEach_of_some (a := 3) (b := 5) (by decide) (by decide)).trans (by decide)⟩

end CoreChain.Xcm

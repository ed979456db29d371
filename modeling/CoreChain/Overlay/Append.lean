import CoreChain.Overlay.Changeset

/-!
# The versions of an appended key

`appendValue` is an append to a stored SCALE list, as a user of the storage sees it: the element is added and the
length written anew if the value starts with a length, and otherwise the value becomes the list of the element.

`Holds vs ws` says that the versions `vs` of a key in the changeset have the plain values `ws`, newest first. An
`Append` is its length prefix, whichever length that is, followed by a body; one that moved its parent's buffer
stands on that parent, whose body is the start of its own, as long as `parentSize` says. Every change the
changeset makes to the versions of a key keeps `Holds` with the plain counterpart: an overwrite or a new version
(`Holds.write_set`, `Holds.write_append`), a rollback (`Holds.rollback`), a merge (`Holds.merge`) and a read
(`Holds.materializeInPlace`); and the newest version materializes to the newest value (`Holds.toOption`).

The codec needs what `CompactCodec.Lawful` says.
-/

namespace CoreChain.Overlay

variable (c : CompactCodec)

/-- An append to a stored list: the element is added and the length written as `n + 1` if the value starts with a
length `n`; otherwise the value becomes the list of the element alone. -/
def appendValue (current element : List UInt8) : List UInt8 :=
  match c.decode current with
  | some (n, rest) => c.encode (n + 1) ++ rest ++ element
  | none => c.encode 1 ++ element

/-- The value an append starts from: the newest value, with a removed one read as no bytes, or `init` when the key
has no version. -/
def currentValue (init : List UInt8) : List (Option (List UInt8)) → List UInt8
  | [] => init
  | w :: _ => w.getD []

/-- Whether a version moved its parent's buffer. -/
def StorageEntry.takesParent : StorageEntry → Bool
  | .append _ _ _ (some _) => true
  | _ => false

/-- `Holds vs ws`: the versions `vs` hold the values `ws`, newest first. -/
inductive Holds : List StorageEntry → List (Option (List UInt8)) → Prop
  | nil : Holds [] []
  | set {vs ws} (value : List UInt8) : Holds vs ws → Holds (.set value :: vs) (some value :: ws)
  | remove {vs ws} : Holds vs ws → Holds (.remove :: vs) (none :: ws)
  | append {vs ws data currentLength materializedLength} (body : List UInt8) :
      data = lengthPrefix c materializedLength ++ body → Holds vs ws →
      Holds (.append data currentLength materializedLength none :: vs) (some (c.encode currentLength ++ body) :: ws)
  | taken {vs ws data currentLength materializedLength parentSize parentData parentLength parentMaterialized
      parentParentSize} (body : List UInt8) :
      data = lengthPrefix c materializedLength ++ body →
      (lengthPrefix c parentMaterialized).length ≤ parentSize →
      parentSize - (lengthPrefix c parentMaterialized).length ≤ body.length →
      Holds (.append (lengthPrefix c parentMaterialized ++
          body.take (parentSize - (lengthPrefix c parentMaterialized).length))
        parentLength parentMaterialized parentParentSize :: vs) ws →
      Holds (.append data currentLength materializedLength (some parentSize) ::
          .append parentData parentLength parentMaterialized parentParentSize :: vs)
        (some (c.encode currentLength ++ body) :: ws)

variable {c}

/-! ## Length prefixes -/

theorem length_lengthPrefix (m : Option UInt32) : (lengthPrefix c m).length = (m.map (compactLen c)).getD 0 := by
  cases m <;> rfl

theorem materializeInPlace_append (body : List UInt8) (cur : UInt32) (mat : Option UInt32) (ps : Option Nat) :
    (StorageEntry.append (lengthPrefix c mat ++ body) cur mat ps).materializeInPlace c =
      .append (lengthPrefix c (some cur) ++ body) cur (some cur) ps := by
  by_cases h : mat = some cur
  · subst h
    rw [StorageEntry.materializeInPlace, if_pos rfl]
  · rw [StorageEntry.materializeInPlace, if_neg h, replaceLength, ← length_lengthPrefix, List.drop_left]
    rfl

theorem toOption_append (body : List UInt8) (cur : UInt32) (mat : Option UInt32) (ps : Option Nat) :
    (StorageEntry.append (lengthPrefix c mat ++ body) cur mat ps).toOption c = some (c.encode cur ++ body) := by
  rw [StorageEntry.toOption, materializeInPlace_append]
  rfl

/-- Giving back the buffer: the parent gets the child's prefix and the first `parentSize` bytes of its own, the
parent's prefix taken off. -/
theorem restoreAppendToParent_append {pdata : List UInt8} {pcur : UInt32} {pmat : Option UInt32}
    {pps : Option Nat} (mat : Option UInt32) (body : List UInt8) (ps : Nat)
    (hps : (lengthPrefix c pmat).length ≤ ps) :
    restoreAppendToParent c (.append pdata pcur pmat pps) (lengthPrefix c mat ++ body) mat ps =
      .append (lengthPrefix c mat ++ body.take (ps - (lengthPrefix c pmat).length)) pcur mat pps := by
  simp only [restoreAppendToParent, ← length_lengthPrefix]
  have htarget : (if (lengthPrefix c mat).length ≤ (lengthPrefix c pmat).length then
      ps - ((lengthPrefix c pmat).length - (lengthPrefix c mat).length)
      else ps + ((lengthPrefix c mat).length - (lengthPrefix c pmat).length)) =
      (lengthPrefix c mat).length + (ps - (lengthPrefix c pmat).length) := by
    split <;> omega
  rw [htarget, List.take_length_add_append]

theorem appendValue_encode (hc : c.Lawful) (n : UInt32) (body element : List UInt8) :
    appendValue c (c.encode n ++ body) element = c.encode (n + 1) ++ (body ++ element) := by
  rw [appendValue, hc.decode_encode]
  exact List.append_assoc _ _ _

/-! ## The relation -/

namespace Holds

variable {vs vs' : List StorageEntry} {ws ws' : List (Option (List UInt8))} {v : StorageEntry}
  {w : Option (List UInt8)}

theorem length (h : Holds c vs ws) : vs.length = ws.length := by
  induction h with
  | nil => rfl
  | set _ _ ih => simp [ih]
  | remove _ ih => simp [ih]
  | append _ _ _ ih => simp [ih]
  | taken _ _ _ _ _ ih => simpa using ih

/-- The newest version materializes to the newest value. -/
theorem exists_cons (h : Holds c (v :: vs) ws) : ∃ w ws', ws = w :: ws' := by
  cases h <;> exact ⟨_, _, rfl⟩

theorem exists_cons_left (h : Holds c vs (w :: ws)) : ∃ v vs', vs = v :: vs' := by
  cases h <;> exact ⟨_, _, rfl⟩

theorem toOption (h : Holds c (v :: vs) (w :: ws)) : v.toOption c = w := by
  cases h with
  | set value _ => rfl
  | remove _ => rfl
  | append body hdata _ =>
    subst hdata
    exact toOption_append _ _ _ _
  | taken body hdata _ _ _ =>
    subst hdata
    exact toOption_append _ _ _ _

/-- Which length prefix an `Append` carries does not matter. -/
theorem remat {b : List UInt8} {cur : UInt32} {m : Option UInt32} {ps : Option Nat}
    (h : Holds c (.append (lengthPrefix c m ++ b) cur m ps :: vs) ws) (m' : Option UInt32) :
    Holds c (.append (lengthPrefix c m' ++ b) cur m' ps :: vs) ws := by
  cases h with
  | append body hdata h' =>
    obtain rfl := List.append_cancel_left hdata
    exact .append b rfl h'
  | taken body hdata hle hlen h' =>
    obtain rfl := List.append_cancel_left hdata
    exact .taken b rfl hle hlen h'

theorem ofValue (value : Option (List UInt8)) (h : Holds c vs ws) :
    Holds c (.ofValue value :: vs) (value :: ws) := by
  cases value with
  | none => exact .remove h
  | some v => exact .set v h

/-- A version that did not move its parent's buffer can stand on other versions. -/
theorem replaceTail (h : Holds c (v :: vs) (w :: ws)) (hv : v.takesParent = false) (h' : Holds c vs' ws') :
    Holds c (v :: vs') (w :: ws') := by
  cases h with
  | set value _ => exact .set value h'
  | remove _ => exact .remove h'
  | append body hdata _ => exact .append body hdata h'
  | taken _ _ _ _ _ => simp [StorageEntry.takesParent] at hv

/-- Dropping the newest version gives the buffer back to its parent. -/
theorem rollback (h : Holds c (v :: vs) (w :: ws)) : ∃ vs', rollbackEntry c (v :: vs) = some vs' ∧ Holds c vs' ws := by
  cases h with
  | set value h' => exact ⟨_, rfl, h'⟩
  | remove h' => exact ⟨_, rfl, h'⟩
  | append body hdata h' => exact ⟨_, rfl, h'⟩
  | taken body hdata hle hlen h' =>
    refine ⟨_, rfl, ?_⟩
    rw [hdata, restoreAppendToParent_append _ _ _ hle]
    exact h'.remat _

/-- Reading the value writes the length in place. -/
theorem materializeInPlace (h : Holds c (v :: vs) ws) : Holds c (v.materializeInPlace c :: vs) ws := by
  cases h with
  | set value h' => exact .set value h'
  | remove h' => exact .remove h'
  | append body hdata h' =>
    subst hdata
    rw [materializeInPlace_append]
    exact .append body rfl h'
  | taken body hdata hle hlen h' =>
    subst hdata
    rw [materializeInPlace_append]
    exact .taken body rfl hle hlen h'

end Holds

/-! ## Writes -/

theorem setEntry_overwrite (value : Option (List UInt8)) (v : StorageEntry) (vs : List StorageEntry) :
    setEntry c value false (v :: vs) = (rollbackEntry c (v :: vs)).map (.ofValue value :: ·) := by
  rcases v with _ | _ | ⟨data, cur, mat, _ | ps⟩ <;> cases vs <;> rfl

theorem Holds.write_set {vs : List StorageEntry} {ws : List (Option (List UInt8))} (h : Holds c vs ws)
    (value : Option (List UInt8)) (first : Bool) :
    ∃ vs', setEntry c value first vs = some vs' ∧ Holds c vs' (setOffchainEntry value first ws) := by
  cases vs with
  | nil =>
    cases h
    cases first <;> exact ⟨_, rfl, Holds.ofValue value .nil⟩
  | cons v vs =>
    obtain ⟨w, ws, rfl⟩ := h.exists_cons
    cases first with
    | true => exact ⟨_, rfl, Holds.ofValue value h⟩
    | false =>
      obtain ⟨vs', hr, h'⟩ := h.rollback
      refine ⟨_, by rw [setEntry_overwrite, hr, Option.map_some], ?_⟩
      exact Holds.ofValue value h'

theorem Holds.write_appendTo (hc : c.Lawful) {vs : List StorageEntry} {ws : List (Option (List UInt8))}
    (h : Holds c vs ws) (value element : List UInt8) :
    Holds c (appendTo c value element :: vs) (some (appendValue c value element) :: ws) := by
  cases hd : c.decode value with
  | none =>
    have happ : appendTo c value element = .append element 1 none none := by
      simp [appendTo, extractLength, hd]
    have hval : appendValue c value element = c.encode 1 ++ element := by rw [appendValue, hd]
    rw [happ, hval]
    exact .append element rfl h
  | some r =>
    obtain ⟨n, rest⟩ := r
    have hv := hc.decode_canonical value n rest hd
    have happ : appendTo c value element = .append (value ++ element) (n + 1) (some n) none := by
      simp [appendTo, extractLength, hd]
    have hval : appendValue c value element = c.encode (n + 1) ++ (rest ++ element) := by
      rw [appendValue, hd]
      exact List.append_assoc _ _ _
    rw [happ, hval]
    exact .append (rest ++ element) (by rw [hv, List.append_assoc]; rfl) h

theorem Holds.write_append (hc : c.Lawful) {vs : List StorageEntry} {ws : List (Option (List UInt8))}
    (h : Holds c vs ws) (element init : List UInt8) (first : Bool) :
    Holds c (appendEntry c element first init vs)
      (setOffchainEntry (some (appendValue c (currentValue init ws) element)) first ws) := by
  cases vs with
  | nil =>
    cases h
    cases first <;> exact Holds.write_appendTo hc .nil init element
  | cons v vs =>
    obtain ⟨w, ws, rfl⟩ := h.exists_cons
    have hnil : appendValue c [] element = c.encode 1 ++ element := by rw [appendValue, hc.decode_nil]
    cases first with
    | true =>
      -- a new version on top of `v`; an `Append` moves its buffer into it
      cases h with
      | set value h' => exact Holds.write_appendTo hc (.set value h') value element
      | remove h' =>
        rw [appendEntry, if_pos rfl, setOffchainEntry, currentValue, Option.getD_none, hnil]
        exact .append element rfl (.remove h')
      | append body hdata h' =>
        subst hdata
        rw [appendEntry, if_pos rfl, setOffchainEntry, currentValue, Option.getD_some, appendValue_encode hc]
        refine .taken (body ++ element) (List.append_assoc _ _ _) (by simp) (by simp) ?_
        rw [List.length_append, Nat.add_sub_cancel_left, List.take_left']
        exact .append body rfl h'
        rfl
      | taken body hdata hle hlen h' =>
        subst hdata
        rw [appendEntry, if_pos rfl, setOffchainEntry, currentValue, Option.getD_some, appendValue_encode hc]
        refine .taken (body ++ element) (List.append_assoc _ _ _) (by simp) (by simp) ?_
        rw [List.length_append, Nat.add_sub_cancel_left, List.take_left']
        exact .taken body rfl hle hlen h'
        rfl
    | false =>
      -- the newest version is rewritten
      cases h with
      | set value h' => exact Holds.write_appendTo hc h' value element
      | remove h' =>
        rw [appendEntry, if_neg Bool.false_ne_true, setOffchainEntry, currentValue, Option.getD_none, hnil]
        exact .append element rfl h'
      | append body hdata h' =>
        subst hdata
        rw [appendEntry, if_neg Bool.false_ne_true, setOffchainEntry, currentValue, Option.getD_some,
          appendValue_encode hc]
        exact .append (body ++ element) (List.append_assoc _ _ _) h'
      | taken body hdata hle hlen h' =>
        subst hdata
        rw [appendEntry, if_neg Bool.false_ne_true, setOffchainEntry, currentValue, Option.getD_some,
          appendValue_encode hc]
        refine .taken (body ++ element) (List.append_assoc _ _ _) hle
          (by rw [List.length_append]; omega) ?_
        rw [List.take_append_of_le_length hlen]
        exact h'

/-! ## Merges -/

theorem commitEntry_of_rollback {v₀ v₁ : StorageEntry} {vs vs' : List StorageEntry}
    (hv : v₀.takesParent = false) (hr : rollbackEntry c (v₁ :: vs) = some vs') :
    commitEntry c (v₀ :: v₁ :: vs) = some (v₀ :: vs') := by
  rcases v₀ with _ | _ | ⟨d, cl, ml, _ | p⟩ <;>
    rcases v₁ with _ | _ | ⟨d', cl', ml', _ | p'⟩ <;> cases vs <;>
    simp_all [commitEntry, rollbackEntry, StorageEntry.takesParent]

/-- Committing merges the newest version into the one before it: the newest value replaces the one before. -/
theorem Holds.merge {v₀ v₁ : StorageEntry} {vs : List StorageEntry} {w₀ w₁ : Option (List UInt8)}
    {ws : List (Option (List UInt8))} (h : Holds c (v₀ :: v₁ :: vs) (w₀ :: w₁ :: ws)) :
    ∃ vs', commitEntry c (v₀ :: v₁ :: vs) = some vs' ∧ Holds c vs' (w₀ :: ws) := by
  cases hv : v₀.takesParent with
  | false =>
    have htail : Holds c (v₁ :: vs) (w₁ :: ws) := by
      cases h with
      | set _ h' => exact h'
      | remove h' => exact h'
      | append _ _ h' => exact h'
      | taken _ _ _ _ _ => simp [StorageEntry.takesParent] at hv
    obtain ⟨vs', hr, h'⟩ := htail.rollback
    exact ⟨_, commitEntry_of_rollback hv hr, h.replaceTail hv h'⟩
  | true =>
    cases h with
    | set _ _ => simp [StorageEntry.takesParent] at hv
    | remove _ => simp [StorageEntry.takesParent] at hv
    | append _ _ _ => simp [StorageEntry.takesParent] at hv
    | taken body hdata hle hlen h' =>
      -- the merged version keeps the parent's `parentSize`, standing on the grandparent
      refine ⟨_, rfl, ?_⟩
      cases h' with
      | append body' _ h'' => exact .append body hdata h''
      | taken body' hdata' hle' hlen' h'' =>
        obtain rfl := List.append_cancel_left hdata'
        rw [List.length_take] at hlen'
        refine .taken body hdata hle' (by omega) ?_
        rw [List.take_take, Nat.min_eq_left (by omega)] at h''
        exact h''

end CoreChain.Overlay

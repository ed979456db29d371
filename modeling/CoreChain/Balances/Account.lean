import CoreChain.System.Accounts

/-!
# Balances accounts and their references

The account calls of `pallet_balances` (`frame/balances/src/lib.rs`): `ensure_upgraded`, `try_mutate_account` and
`mutate_account`, `update_locks` and `update_freezes`. The balances of an account live in `Account`, reached through
`StorageMapShim` as the `AccountStore`: `try_mutate_exists` writes the record back (or removes it) only when the
closure returns `Ok`. The closure of `try_mutate_account` also takes and gives back references in frame_system
(`System.Accounts`): a provider while the free balance is at least the existential deposit, a consumer while something
is reserved or frozen. Those writes are not undone when the closure then fails.

A closure of `try_mutate_account` sets the account data to anything or fails, and its error type takes the
`DispatchError`s of frame_system (`into`, the `From` conversion of `?`). Balances are `Nat`: nothing here adds or
subtracts them. `have_providers_or_no_zero_ed` is `true`, as without the `insecure_zero_ed` feature.

What the calls do (`tryMutateAccount_of_closure_error`, `tryMutateAccount_ok`): a failing closure changes nothing
past `ensure_upgraded`; an `Ok` stores the new data unless its free balance is below the deposit with nothing
reserved, whatever is frozen, and returns the free balance so dropped as dust. So `update_locks` on an account with
no balance data takes a consumer reference for the lock and stores nothing, and removing the lock finds no data
that consumes: the reference stays (`updateLocks_leaks_consumer`). And an `inc_consumers` that fails after
`inc_providers` returns `Err` with the provider taken (`tryMutateAccount_error_keeps_provider`).
-/

namespace CoreChain.Balances

/-- `AccountData`, with `flags` as whether the account uses the new reference logic. -/
structure AccountData where
  free : Nat
  reserved : Nat
  frozen : Nat
  newLogic : Bool
  deriving DecidableEq, Repr

/-- `AccountData::default`: no balance, and the new logic (`ExtraFlags::default`). -/
def AccountData.default : AccountData :=
  ⟨0, 0, 0, true⟩

/-- The constants the calls read: `ExistentialDeposit` and `MaxConsumers` of frame_system. -/
structure Config where
  existentialDeposit : Nat
  maxConsumers : Nat

/-- The storage the calls read and write: frame_system's accounts, balances' `Account` through `StorageMapShim`, and
the amounts of `Locks` and `Freezes`. -/
structure State (A : Type) where
  system : System.Accounts A
  account : A → Option AccountData
  locks : A → List Nat
  freezes : A → List Nat

variable {A : Type} [DecidableEq A] (config : Config)

/-- `ensure_upgraded`: an account on the old logic with a reserve and nothing frozen gets a provider if it has none
(and at least the deposit as free balance) and a consumer, and is marked as on the new logic. -/
def ensureUpgraded (s : State A) (who : A) : State A :=
  let a := (s.account who).getD .default
  if a.newLogic then s
  else
    let a := { a with newLogic := true }
    let (a, system) :=
      if a.reserved ≠ 0 ∧ a.frozen = 0 then
        let (a, system) :=
          if s.system.providers who = 0 then
            ({ a with free := max a.free config.existentialDeposit }, (s.system.incProviders who).1)
          else (a, s.system)
        (a, (system.incConsumersWithoutLimit who).1)
      else (a, s.system)
    { s with system := system, account := Function.update s.account who (some a) }

/-- The tail of the closure of `try_mutate_account`, once the references are settled: the data is kept only if its
free balance reaches the deposit or something is reserved; otherwise a non-zero free balance is dust. -/
def settle {R : Type} (account : AccountData) (result : R) : Option AccountData × Option Nat × R :=
  if account.free < config.existentialDeposit ∧ account.reserved = 0 then
    (none, if account.free = 0 then none else some account.free, result)
  else (some account, none, result)

/-- The closure `try_mutate_account` hands to `try_mutate_exists`: the frame_system accounts it leaves, and on `Ok`
the record to store (`None` removes it), the dust and the result of `f`. -/
def accountClosure {E R : Type} (into : System.DispatchError → E) (system : System.Accounts A) (who : A)
    (maybeAccount : Option AccountData) (f : AccountData → Bool → Except E (R × AccountData)) :
    System.Accounts A × Except E (Option AccountData × Option Nat × R) :=
  let isNew := maybeAccount.isNone
  let account := maybeAccount.getD .default
  let didProvide := decide (config.existentialDeposit ≤ account.free)
  let didConsume := !isNew && (account.reserved != 0 || account.frozen != 0)
  match f account isNew with
  | .error e => (system, .error e)
  | .ok (result, account) =>
    let doesProvide := decide (config.existentialDeposit ≤ account.free)
    let doesConsume := account.reserved != 0 || account.frozen != 0
    let system := if !didProvide && doesProvide then (system.incProviders who).1 else system
    let system := if didConsume && !doesConsume then system.decConsumers who else system
    match (if !didConsume && doesConsume then system.incConsumers config.maxConsumers who else (system, .ok ())) with
    | (system, .error e) => (system, .error (into e))
    | (system, .ok ()) =>
      -- the defensive bump for an account that consumes but holds no consumer reference
      match (if doesConsume && system.consumers who == 0 then system.incConsumers config.maxConsumers who
          else (system, .ok ())) with
      | (system, .error e) => (system, .error (into e))
      | (system, .ok ()) =>
        if didProvide && !doesProvide then
          match system.decProviders who with
          | (system, .error e) =>
            -- the best-effort revert of the consumer change
            let system := if didConsume && !doesConsume then (system.incConsumers config.maxConsumers who).1
              else system
            let system := if !didConsume && doesConsume then system.decConsumers who else system
            (system, .error (into e))
          | (system, .ok _) => (system, .ok (settle config account result))
        else (system, .ok (settle config account result))

/-- `try_mutate_account`: the account is upgraded, then the closure runs inside `try_mutate_exists`, whose write of
`Account` happens only on `Ok`; the frame_system writes of the closure stay either way. -/
def tryMutateAccount {E R : Type} (into : System.DispatchError → E) (s : State A) (who : A)
    (f : AccountData → Bool → Except E (R × AccountData)) : State A × Except E (R × Option Nat) :=
  let s := ensureUpgraded config s who
  match accountClosure config into s.system who (s.account who) f with
  | (system, .error e) => ({ s with system := system }, .error e)
  | (system, .ok (stored, dust, result)) =>
    ({ s with system := system, account := Function.update s.account who stored }, .ok (result, dust))

/-- `mutate_account`: `try_mutate_account` with a closure that cannot fail. -/
def mutateAccount {R : Type} (s : State A) (who : A) (f : AccountData → R × AccountData) :
    State A × Except System.DispatchError (R × Option Nat) :=
  tryMutateAccount config id s who fun a _ => .ok (f a)

/-- The frozen balance `update_locks` and `update_freezes` compute: the largest lock, then the largest freeze. -/
def frozenOf (locks freezes : List Nat) : Nat :=
  freezes.foldl max (locks.foldl max 0)

/-- `update_locks`: the frozen balance is set from the locks and the freezes, whatever `mutate_account` returns, and
the locks are stored (an empty list removes them). -/
def updateLocks (s : State A) (who : A) (locks : List Nat) : State A :=
  let freezes := s.freezes who
  let (s, _) := mutateAccount config s who fun b => ((), { b with frozen := frozenOf locks freezes })
  { s with locks := Function.update s.locks who locks }

/-- `update_freezes`: the frozen balance is set from the locks and the freezes; the freezes are stored only if
`mutate_account` succeeds. -/
def updateFreezes (s : State A) (who : A) (freezes : List Nat) : State A × Except System.DispatchError Unit :=
  match mutateAccount config s who fun b => ((), { b with frozen := frozenOf (s.locks who) freezes }) with
  | (s, .error e) => (s, .error e)
  | (s, .ok _) => ({ s with freezes := Function.update s.freezes who freezes }, .ok ())

/-! ## What the calls do -/

section Spec

variable {config} {E R : Type} {into : System.DispatchError → E} {s s' : State A} {who : A}
  {f : AccountData → Bool → Except E (R × AccountData)}

/-- An account that reads as on the new logic, stored or not, is left alone by `ensure_upgraded`. -/
theorem ensureUpgraded_of_newLogic (h : ((s.account who).getD .default).newLogic = true) :
    ensureUpgraded config s who = s := by
  unfold ensureUpgraded
  rw [if_pos h]

omit [DecidableEq A] in
theorem settle_result {R : Type} (account : AccountData) (result : R) : (settle config account result).2.2 = result := by
  unfold settle
  split <;> rfl

theorem accountClosure_of_error {system : System.Accounts A} {maybeAccount : Option AccountData} {e : E}
    (h : f (maybeAccount.getD .default) maybeAccount.isNone = .error e) :
    accountClosure config into system who maybeAccount f = (system, .error e) := by
  unfold accountClosure
  dsimp only
  rw [h]

/-- On `Ok` the closure returns what `settle` makes of the data `f` set. -/
theorem accountClosure_ok {system system' : System.Accounts A} {maybeAccount : Option AccountData}
    {stored : Option AccountData} {dust : Option Nat} {result : R}
    (h : accountClosure config into system who maybeAccount f = (system', .ok (stored, dust, result))) :
    ∃ account, f (maybeAccount.getD .default) maybeAccount.isNone = .ok (result, account) ∧
      (stored, dust, result) = settle config account result := by
  unfold accountClosure at h
  dsimp only at h
  split at h
  · cases h
  rename_i result₀ account hf
  -- every branch that returns `Ok` ends in `settle`, which hands the result of `f` on
  repeat' split at h
  all_goals first
    | cases h
    | obtain ⟨-, h⟩ := Prod.mk.inj h
      have h := Except.ok.inj h
      have hr : result₀ = result := (@settle_result config R account result₀).symm.trans (congrArg (·.2.2) h)
      subst hr
      exact ⟨account, hf, h.symm⟩

/-- A failing closure leaves everything as `ensure_upgraded` left it. -/
theorem tryMutateAccount_of_closure_error {e : E}
    (h : f (((ensureUpgraded config s who).account who).getD .default)
      ((ensureUpgraded config s who).account who).isNone = .error e) :
    tryMutateAccount config into s who f = (ensureUpgraded config s who, .error e) := by
  unfold tryMutateAccount
  dsimp only
  rw [accountClosure_of_error h]

/-- On `Ok`, the account holds what `settle` makes of the data `f` set, whatever is frozen, and the dust is the free
balance it drops. -/
theorem tryMutateAccount_ok {result : R} {dust : Option Nat}
    (h : tryMutateAccount config into s who f = (s', .ok (result, dust))) :
    ∃ account, f (((ensureUpgraded config s who).account who).getD .default)
        ((ensureUpgraded config s who).account who).isNone = .ok (result, account) ∧
      s'.account who = (settle config account result).1 ∧ dust = (settle config account result).2.1 := by
  unfold tryMutateAccount at h
  dsimp only at h
  split at h
  · cases h
  rename_i system stored dust' result' hc
  obtain ⟨account, hf, hs⟩ := accountClosure_ok hc
  obtain ⟨rfl, hres⟩ := Prod.mk.inj h
  obtain ⟨rfl, rfl⟩ := Prod.mk.inj (Except.ok.inj hres)
  refine ⟨account, hf, ?_, congrArg (·.2.1) hs⟩
  dsimp only
  rw [Function.update_self]
  exact congrArg (·.1) hs

omit [DecidableEq A] in
/-- `settle` keeps the data exactly when its free balance reaches the deposit or something is reserved. -/
theorem settle_fst_eq_some_iff (account : AccountData) (result : R) :
    (settle config account result).1 = some account ↔
      config.existentialDeposit ≤ account.free ∨ account.reserved ≠ 0 := by
  unfold settle
  split
  · rename_i h
    simp only [reduceCtorEq, false_iff, not_or, not_not]
    omega
  · rename_i h
    simp only [true_iff]
    omega

/-- An account with no balance data reads as `AccountData::default`, on the new logic. -/
theorem ensureUpgraded_of_none (h : s.account who = none) : ensureUpgraded config s who = s :=
  ensureUpgraded_of_newLogic (by rw [h]; rfl)

end Spec

/-! ## An account with no balance data

With no data the closure sees `is_new`, so it counts no reference as held before the call: a free balance set below
the deposit takes no provider, and a frozen balance takes a consumer, which `settle` then drops the data of. -/

section NewAccount

variable {config} {E R : Type} {into : System.DispatchError → E} {who : A}
  {f : AccountData → Bool → Except E (R × AccountData)} {result : R} {a : AccountData}
  {system : System.Accounts A}

/-- The default data holds nothing, so with a positive deposit the closure sees no provider held before it. -/
theorem deposit_le_default_eq_false (hed : 0 < config.existentialDeposit) :
    decide (config.existentialDeposit ≤ AccountData.default.free) = false :=
  decide_eq_false (by show ¬ _ ≤ 0; omega)

/-- Data that neither provides nor consumes leaves the references alone. -/
theorem accountClosure_new_of_idle (hed : 0 < config.existentialDeposit) (hf : f .default true = .ok (result, a))
    (hfree : a.free < config.existentialDeposit) (hres : a.reserved = 0) (hfrozen : a.frozen = 0) :
    accountClosure config into system who none f = (system, .ok (settle config a result)) := by
  unfold accountClosure
  simp only [Option.getD_none, Option.isNone_none, hf]
  have hdid := deposit_le_default_eq_false hed
  have hdoes : decide (config.existentialDeposit ≤ a.free) = false := decide_eq_false (by omega)
  simp only [hdid, hdoes, hres, hfrozen]
  rfl

variable {p su c : Nat} (hacc : system.account who = System.expected p su c) (hprov : 0 < c → 0 < p)
include hacc hprov

/-- A frozen balance below the deposit takes a consumer reference, and `settle` still sees the data as dust. -/
theorem accountClosure_new_of_frozen (hed : 0 < config.existentialDeposit) (hf : f .default true = .ok (result, a))
    (hfree : a.free < config.existentialDeposit) (hfrozen : a.frozen ≠ 0) (hp : 0 < p)
    (hc : c < config.maxConsumers) (hbound : c + 1 < 2 ^ 32) :
    accountClosure config into system who none f =
      (system.write who (System.expected p su (c + 1)), .ok (settle config a result)) := by
  have hinc := System.Accounts.incConsumers_spec hacc hprov config.maxConsumers
  rw [if_pos ⟨hp, hc⟩, System.Accounts.incRef_of_lt hbound] at hinc
  -- the written record holds the new consumer, so the defensive bump is skipped
  have hcons : (system.write who (System.expected p su (c + 1))).consumers who = c + 1 := by
    unfold System.Accounts.consumers System.Accounts.get
    rw [System.Accounts.account_write_self, System.expected, if_pos (by omega)]
    rfl
  unfold accountClosure
  simp only [Option.getD_none, Option.isNone_none, hf]
  have hdid := deposit_le_default_eq_false hed
  have hdoes : decide (config.existentialDeposit ≤ a.free) = false := decide_eq_false (by omega)
  have hconsumes : (a.reserved != 0 || a.frozen != 0) = true := by simp [hfrozen]
  simp only [hdid, hdoes, hconsumes, Bool.not_true, Bool.false_and, Bool.not_false, Bool.and_false,
    Bool.true_and, Bool.false_eq_true, ↓reduceIte, hinc, hcons]
  rfl

/-- The deposit and something reserved or frozen on a new account, already holding all the consumers it may: the
provider is taken first, and `inc_consumers` then fails. -/
theorem accountClosure_new_too_many_consumers (hed : 0 < config.existentialDeposit)
    (hf : f .default true = .ok (result, a)) (hfree : config.existentialDeposit ≤ a.free)
    (hconsumes : a.reserved ≠ 0 ∨ a.frozen ≠ 0) (hc : config.maxConsumers ≤ c) (hbound : p + 1 < 2 ^ 32) :
    accountClosure config into system who none f =
      ((system.incProviders who).1, .error (into .tooManyConsumers)) := by
  have hacc' : (system.incProviders who).1.account who = System.expected (p + 1) su c := by
    rw [System.Accounts.account_incProviders hacc hprov hbound, System.Accounts.account_write_self]
  have hinc := System.Accounts.incConsumers_spec hacc' (fun _ => Nat.succ_pos p) config.maxConsumers
  rw [if_neg (by omega), if_pos (Nat.succ_pos p)] at hinc
  unfold accountClosure
  simp only [Option.getD_none, Option.isNone_none, hf]
  have hdid := deposit_le_default_eq_false hed
  have hdoes : decide (config.existentialDeposit ≤ a.free) = true := decide_eq_true hfree
  have hconsumes' : (a.reserved != 0 || a.frozen != 0) = true := by
    rcases hconsumes with h | h <;> simp [h]
  simp only [hdid, hdoes, hconsumes', Bool.not_true, Bool.false_and, Bool.not_false, Bool.and_false,
    Bool.true_and, Bool.false_eq_true, ↓reduceIte, hinc]

end NewAccount

/-! ## Locks on an account with no balance data -/

section Locks

variable {config} {s : State A} {who : A} {locks : List Nat}

omit [DecidableEq A] in
/-- `settle` drops data below the deposit with nothing reserved, whatever is frozen. -/
theorem settle_of_lt {R : Type} {account : AccountData} (result : R)
    (hfree : account.free < config.existentialDeposit) (hres : account.reserved = 0) :
    (settle config account result).1 = none := by
  unfold settle
  rw [if_pos ⟨hfree, hres⟩]

/-- Setting a lock or freeze to nothing on an account with no data changes only the stored locks. -/
theorem updateLocks_new_of_unfrozen (hed : 0 < config.existentialDeposit) (habsent : s.account who = none)
    (hfrozen : frozenOf locks (s.freezes who) = 0) :
    updateLocks config s who locks = { s with locks := Function.update s.locks who locks } := by
  have hclosure : accountClosure config id s.system who none
      (fun b _ => .ok ((), { b with frozen := frozenOf locks (s.freezes who) })) =
      (s.system, .ok (settle config { AccountData.default with frozen := frozenOf locks (s.freezes who) } ())) :=
    accountClosure_new_of_idle hed rfl (show 0 < _ from hed) rfl hfrozen
  have hstored : Function.update s.account who (settle config { AccountData.default with
      frozen := frozenOf locks (s.freezes who) } ()).1 = s.account := by
    rw [settle_of_lt () (show 0 < _ from hed) rfl, Function.update_eq_self_iff, habsent]
  unfold updateLocks mutateAccount tryMutateAccount
  rw [ensureUpgraded_of_none habsent]
  dsimp only
  rw [habsent, hclosure]
  dsimp only
  rw [hstored]

variable {p su c : Nat} (hacc : s.system.account who = System.expected p su c) (hprov : 0 < c → 0 < p)
include hacc hprov

/-- A lock on an account with no data takes a consumer reference and stores no data. -/
theorem updateLocks_new_of_frozen (hed : 0 < config.existentialDeposit) (habsent : s.account who = none)
    (hp : 0 < p) (hc : c < config.maxConsumers) (hbound : c + 1 < 2 ^ 32)
    (hfrozen : frozenOf locks (s.freezes who) ≠ 0) :
    updateLocks config s who locks =
      { s with system := s.system.write who (System.expected p su (c + 1)),
               locks := Function.update s.locks who locks } := by
  have hclosure : accountClosure config id s.system who none
      (fun b _ => .ok ((), { b with frozen := frozenOf locks (s.freezes who) })) =
      (s.system.write who (System.expected p su (c + 1)),
        .ok (settle config { AccountData.default with frozen := frozenOf locks (s.freezes who) } ())) :=
    accountClosure_new_of_frozen hacc hprov hed rfl (show 0 < _ from hed) hfrozen hp hc hbound
  have hstored : Function.update s.account who (settle config { AccountData.default with
      frozen := frozenOf locks (s.freezes who) } ()).1 = s.account := by
    rw [settle_of_lt () (show 0 < _ from hed) rfl, Function.update_eq_self_iff, habsent]
  unfold updateLocks mutateAccount tryMutateAccount
  rw [ensureUpgraded_of_none habsent]
  dsimp only
  rw [habsent, hclosure]
  dsimp only
  rw [hstored]

/-- The `Err` of `inc_consumers` comes back from `try_mutate_account` with the provider that `inc_providers` took
before it: the balance data is left as it was, the references are not. -/
theorem tryMutateAccount_error_keeps_provider {E R : Type} {into : System.DispatchError → E}
    {f : AccountData → Bool → Except E (R × AccountData)} {result : R} {a : AccountData}
    (hed : 0 < config.existentialDeposit) (habsent : s.account who = none)
    (hf : f .default true = .ok (result, a)) (hfree : config.existentialDeposit ≤ a.free)
    (hconsumes : a.reserved ≠ 0 ∨ a.frozen ≠ 0) (hc : config.maxConsumers ≤ c) (hbound : p + 1 < 2 ^ 32) :
    tryMutateAccount config into s who f =
      ({ s with system := (s.system.incProviders who).1 }, .error (into .tooManyConsumers)) := by
  unfold tryMutateAccount
  rw [ensureUpgraded_of_none habsent]
  dsimp only
  rw [habsent, accountClosure_new_too_many_consumers hacc hprov hed hf hfree hconsumes hc hbound]

end Locks

/-- `update_locks` with a lock and then with none, on an account with no balance data, leaves one more consumer
reference: the first call takes it and stores no data, so the second finds no data that consumes. -/
theorem updateLocks_leaks_consumer {s : State A} {who : A} {p su c amount : Nat}
    (hed : 0 < config.existentialDeposit) (habsent : s.account who = none)
    (hacc : s.system.account who = System.expected p su c) (hp : 0 < p) (hc : c < config.maxConsumers)
    (hbound : c + 1 < 2 ^ 32) (hfreezes : s.freezes who = []) (hlocks : s.locks who = []) (hamount : 0 < amount) :
    updateLocks config (updateLocks config s who [amount]) who [] =
      { s with system := s.system.write who (System.expected p su (c + 1)) } := by
  have hfrozen : frozenOf [amount] (s.freezes who) ≠ 0 := by
    simp only [hfreezes, frozenOf, List.foldl_cons, List.foldl_nil]
    omega
  have hunlocked : Function.update s.locks who [] = s.locks := Function.update_eq_self_iff.mpr hlocks.symm
  rw [updateLocks_new_of_frozen hacc (fun _ => hp) hed habsent hp hc hbound hfrozen,
    updateLocks_new_of_unfrozen hed ?absent ?unfrozen]
  case absent => exact habsent
  case unfrozen => rw [hfreezes]; rfl
  simp only [Function.update_idem, hunlocked]

/-- One account, `0`, with a provider and no consumer in frame_system, and no balance data, lock or freeze. -/
def sampleState : State Nat :=
  ⟨⟨fun _ => System.expected 1 0 0, []⟩, fun _ => none, fun _ => [], fun _ => []⟩

theorem updateLocks_leaks_consumer_sample :
    sampleState.system.consumers 0 = 0 ∧
      (updateLocks ⟨1, 16⟩ (updateLocks ⟨1, 16⟩ sampleState 0 [10]) 0 []).system.consumers 0 = 1 := by
  refine ⟨rfl, ?_⟩
  rw [updateLocks_leaks_consumer ⟨1, 16⟩ (by decide) rfl
    (show sampleState.system.account 0 = System.expected 1 0 0 from rfl) (by decide) (by decide) (by decide) rfl rfl
    (by decide)]
  rfl

end CoreChain.Balances

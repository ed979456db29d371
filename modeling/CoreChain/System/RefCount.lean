import Mathlib

/-!
# The reference counters of frame_system accounts

The model of the reference-count calls of `substrate/frame/system/src/lib.rs`. An account exists while something
provides for it: `providers` counts the modules that let it exist, `sufficients` those that let it exist for their
own purposes only, and `consumers` the modules that depend on it existing, which keep its last provider from being
removed. The first provider or sufficient reference creates the account and calls `on_created_account`; the last
removed kills it and calls `on_killed_account`.

`Account` is a `ValueQuery` map, read as the default record when absent. The calls reach it through three storage
primitives, kept apart here: `mutate` always writes the record back (`write`); `try_mutate` writes it back only on
`Ok`; `mutate_exists` and `try_mutate_exists` see the record as an `Option` and delete it on `None`. The counters are
`u32`: `saturating_add` stops at `u32::MAX`, and the sum in `inc_sufficients` wraps. The nonce and the account data
are not read by these calls and are left out. The two hooks are recorded, in order, in `hooks`.
-/

namespace CoreChain.System

/-- `u32::MAX`. -/
def u32Max : Nat := 2 ^ 32 - 1

/-- `RefCount::saturating_add(1)`. -/
def incRef (x : Nat) : Nat :=
  min (x + 1) u32Max

/-- `AccountInfo`, with the counters the calls read. -/
structure AccountInfo where
  consumers : Nat
  providers : Nat
  sufficients : Nat
  deriving DecidableEq, Repr

/-- `AccountInfo::default`. -/
def AccountInfo.default : AccountInfo :=
  ⟨0, 0, 0⟩

/-- `IncRefStatus`. -/
inductive IncRefStatus where
  | created
  | existed
  deriving DecidableEq, Repr

/-- `DecRefStatus`. -/
inductive DecRefStatus where
  | reaped
  | «exists»
  deriving DecidableEq, Repr

/-- The variants of `DispatchError` the calls return. -/
inductive DispatchError where
  | consumerRemaining
  | noProviders
  | tooManyConsumers
  deriving DecidableEq, Repr

/-- A call of `on_created_account` or `on_killed_account`. -/
inductive Hook (A : Type) where
  | created (who : A)
  | killed (who : A)
  deriving DecidableEq, Repr

/-- The `Account` map and the hooks called so far. -/
structure Accounts (A : Type) where
  account : A → Option AccountInfo
  hooks : List (Hook A)

variable {A : Type} [DecidableEq A]

namespace Accounts

/-- No account. -/
def empty : Accounts A :=
  ⟨fun _ => none, []⟩

/-- `Account::get`: the stored record, or the default one. -/
def get (s : Accounts A) (who : A) : AccountInfo :=
  (s.account who).getD .default

/-- `account_exists`. -/
def accountExists (s : Accounts A) (who : A) : Bool :=
  (s.account who).isSome

/-- Writing the record of `who` (`None` deletes it). -/
def write (s : Accounts A) (who : A) (a : Option AccountInfo) : Accounts A :=
  { s with account := Function.update s.account who a }

/-- A call of a hook. -/
def hook (s : Accounts A) (h : Hook A) : Accounts A :=
  { s with hooks := s.hooks ++ [h] }

/-- `inc_providers`, through `mutate`. -/
def incProviders (s : Accounts A) (who : A) : Accounts A × IncRefStatus :=
  let a := s.get who
  if a.providers = 0 ∧ a.sufficients = 0 then
    ((s.write who (some { a with providers := 1 })).hook (.created who), .created)
  else (s.write who (some { a with providers := incRef a.providers }), .existed)

/-- `dec_providers`, through `try_mutate_exists`: the underflow repair sets a zero counter to one first. -/
def decProviders (s : Accounts A) (who : A) : Accounts A × Except DispatchError DecRefStatus :=
  match s.account who with
  | none => (s, .ok .reaped)
  | some account =>
    let account := if account.providers = 0 then { account with providers := 1 } else account
    match account.providers, account.consumers, account.sufficients with
    | 1, 0, 0 => ((s.write who none).hook (.killed who), .ok .reaped)
    | 1, _ + 1, _ => (s, .error .consumerRemaining)
    | x, _, _ => (s.write who (some { account with providers := x - 1 }), .ok .exists)

/-- `inc_sufficients`, through `mutate`; the test adds the two `u32` counters. -/
def incSufficients (s : Accounts A) (who : A) : Accounts A × IncRefStatus :=
  let a := s.get who
  if (a.providers + a.sufficients) % 2 ^ 32 = 0 then
    ((s.write who (some { a with sufficients := 1 })).hook (.created who), .created)
  else (s.write who (some { a with sufficients := incRef a.sufficients }), .existed)

/-- `dec_sufficients`, through `mutate_exists`. -/
def decSufficients (s : Accounts A) (who : A) : Accounts A × DecRefStatus :=
  match s.account who with
  | none => (s, .reaped)
  | some account =>
    match account.sufficients, account.providers with
    | 0, 0 | 1, 0 => ((s.write who none).hook (.killed who), .reaped)
    | x, _ => (s.write who (some { account with sufficients := x - 1 }), .exists)

/-- `inc_consumers`, through `try_mutate`, below `MaxConsumers`. -/
def incConsumers (maxConsumers : Nat) (s : Accounts A) (who : A) : Accounts A × Except DispatchError Unit :=
  let a := s.get who
  if 0 < a.providers then
    if a.consumers < maxConsumers then (s.write who (some { a with consumers := incRef a.consumers }), .ok ())
    else (s, .error .tooManyConsumers)
  else (s, .error .noProviders)

/-- `inc_consumers_without_limit`, through `try_mutate`. -/
def incConsumersWithoutLimit (s : Accounts A) (who : A) : Accounts A × Except DispatchError Unit :=
  let a := s.get who
  if 0 < a.providers then (s.write who (some { a with consumers := incRef a.consumers }), .ok ())
  else (s, .error .noProviders)

/-- `dec_consumers`, through `mutate`: the record is written back even when the counter was already zero. -/
def decConsumers (s : Accounts A) (who : A) : Accounts A :=
  let a := s.get who
  s.write who (some (if 0 < a.consumers then { a with consumers := a.consumers - 1 } else a))

/-- `providers`. -/
def providers (s : Accounts A) (who : A) : Nat :=
  (s.get who).providers

/-- `consumers`. -/
def consumers (s : Accounts A) (who : A) : Nat :=
  (s.get who).consumers

/-- `sufficients`. -/
def sufficients (s : Accounts A) (who : A) : Nat :=
  (s.get who).sufficients

/-- `can_dec_provider`. -/
def canDecProvider (s : Accounts A) (who : A) : Bool :=
  (s.get who).consumers = 0 || 1 < (s.get who).providers

/-- `can_accrue_consumers`: the `u32` sum must not overflow. -/
def canAccrueConsumers (maxConsumers : Nat) (s : Accounts A) (who : A) (amount : Nat) : Bool :=
  let a := s.get who
  if a.consumers + amount ≤ u32Max then 0 < a.providers && a.consumers + amount ≤ maxConsumers else false

end Accounts

end CoreChain.System

import CoreChain.Balances.Account

/-!
# Balances through the fungible traits

The `fungible` traits of frame_support (`traits/tokens/fungible/regular.rs`) as `pallet_balances` implements them
(`impl_fungible.rs`), over the account calls of `Balances.Account`: `Inspect` (`reducible_balance`, `can_deposit`,
`can_withdraw`), `Unbalanced` (the pallet's `write_balance`, and the trait's own `decrease_balance` and
`increase_balance`), `Mutate` (`mint_into`, `burn_from`, `shelve`, `restore`, `transfer`, `set_balance`) and
`Balanced` (`issue`, `rescind`, `pair`, `deposit`, `withdraw`, `resolve`, `settle`).

`T::Balance` is `Nat` up to `maxBalance`: a `checked_*` operation fails past it or below zero, a `saturating_*` one
clips there. An imbalance, `Credit` or `Debt`, is its amount. Dropping a non-zero one calls its handler, which
`Balanced for Pallet` sets to `DecreaseIssuance` for a `Credit` and `IncreaseIssuance` for a `Debt`. `DustRemoval` is
`()`, so `handle_dust` drops the dust as a `Credit`. Nothing here is transactional: a call that returns `Err` keeps
what it wrote before, so every call returns the storage it leaves beside its result.
-/

set_option linter.constructorNameAsVariable false

namespace CoreChain.Balances

/-- The constants the fungible calls read: those of the account calls, and the largest `T::Balance`. -/
structure Params extends Config where
  maxBalance : Nat

/-- `Preservation`: whether the account may be reaped, or must keep its provider reference. -/
inductive Preservation where
  | expendable
  | protect
  | preserve
  deriving DecidableEq, Repr

/-- `Fortitude`: whether freezes are respected. -/
inductive Fortitude where
  | polite
  | force
  deriving DecidableEq, Repr

/-- `Precision`. -/
inductive Precision where
  | exact
  | bestEffort
  deriving DecidableEq, Repr

/-- `Provenance`. -/
inductive Provenance where
  | minted
  | extant
  deriving DecidableEq, Repr

/-- `TokenError`, the variants `into_result` raises. -/
inductive TokenError where
  | fundsUnavailable
  | onlyProvider
  | belowMinimum
  | cannotCreate
  | unknownAsset
  | frozen
  | notExpendable
  | blocked
  deriving DecidableEq, Repr

/-- `ArithmeticError`. -/
inductive ArithmeticError where
  | underflow
  | overflow
  deriving DecidableEq, Repr

/-- The `DispatchError`s the calls return: frame_system's reference errors, `Token`, `Arithmetic`, balances'
`InsufficientBalance`, and `Other` with its text. -/
inductive Error where
  | system (e : System.DispatchError)
  | token (e : TokenError)
  | arithmetic (e : ArithmeticError)
  | insufficientBalance
  | other (message : String)
  deriving DecidableEq, Repr

/-- `DepositConsequence`. -/
inductive DepositConsequence where
  | belowMinimum
  | cannotCreate
  | unknownAsset
  | overflow
  | success
  | blocked
  deriving DecidableEq, Repr

/-- `WithdrawConsequence`. -/
inductive WithdrawConsequence where
  | balanceLow
  | wouldDie
  | unknownAsset
  | underflow
  | overflow
  | frozen
  | reducedToZero (balance : Nat)
  | success
  deriving DecidableEq, Repr

/-- `DepositConsequence::into_result`. -/
def DepositConsequence.intoResult : DepositConsequence → Except Error Unit
  | .belowMinimum => .error (.token .belowMinimum)
  | .cannotCreate => .error (.token .cannotCreate)
  | .unknownAsset => .error (.token .unknownAsset)
  | .overflow => .error (.arithmetic .overflow)
  | .blocked => .error (.token .blocked)
  | .success => .ok ()

/-- `WithdrawConsequence::into_result`: a reduction to zero is an error when the account must stay. -/
def WithdrawConsequence.intoResult (keepNonzero : Bool) : WithdrawConsequence → Except Error Nat
  | .balanceLow => .error (.token .fundsUnavailable)
  | .wouldDie => .error (.token .onlyProvider)
  | .unknownAsset => .error (.token .unknownAsset)
  | .underflow => .error (.arithmetic .underflow)
  | .overflow => .error (.arithmetic .overflow)
  | .frozen => .error (.token .frozen)
  | .reducedToZero result => if keepNonzero then .error (.token .notExpendable) else .ok result
  | .success => .ok 0

/-- The storage the calls read and write: the accounts with their references, and `TotalIssuance`. -/
structure Storage (A : Type) where
  accounts : State A
  totalIssuance : Nat

variable {A : Type} [DecidableEq A] (params : Params)

namespace Storage

/-- `Self::account(who)`: the stored data, or the default. -/
def account (st : Storage A) (who : A) : AccountData :=
  (st.accounts.account who).getD .default

/-- `balance`: the free balance. -/
def balance (st : Storage A) (who : A) : Nat :=
  (st.account who).free

end Storage

/-! ## Inspect -/

/-- `reducible_balance`: the free balance less what freezes hold (unless forced) and the deposit, where the provider
reference it pays for must stay. -/
def reducibleBalance (st : Storage A) (who : A) (preservation : Preservation) (force : Fortitude) : Nat :=
  let a := st.account who
  let untouchable := if force = .polite then a.frozen - a.reserved else 0
  let untouchable :=
    if preservation = .preserve ∨
        preservation = .protect ∧ a.free ≠ 0 ∧ st.accounts.system.providers who = 1 ∨
        preservation = .expendable ∧ a.free ≠ 0 ∧ st.accounts.system.canDecProvider who = false then
      max untouchable params.existentialDeposit
    else untouchable
  a.free - untouchable

/-- `can_deposit`. -/
def canDeposit (st : Storage A) (who : A) (amount : Nat) (provenance : Provenance) : DepositConsequence :=
  if amount = 0 then .success
  else if provenance = .minted ∧ params.maxBalance < st.totalIssuance + amount then .overflow
  else
    let account := st.account who
    if params.maxBalance < account.free + amount then .overflow
    else if account.free + amount < params.existentialDeposit then .belowMinimum
    else if params.maxBalance < account.reserved + (account.free + amount) then .overflow
    else .success

/-- `can_withdraw`. -/
def canWithdraw (st : Storage A) (who : A) (amount : Nat) : WithdrawConsequence :=
  if amount = 0 then .success
  else if st.totalIssuance < amount then .underflow
  else
    let account := st.account who
    if account.free < amount then .balanceLow
    else
      let newFreeBalance := account.free - amount
      if reducibleBalance params st who .expendable .polite < amount then .frozen
      else if newFreeBalance < params.existentialDeposit ∧ st.accounts.system.canDecProvider who = false then
        .wouldDie
      else
        let success : WithdrawConsequence :=
          if newFreeBalance < params.existentialDeposit then .reducedToZero newFreeBalance else .success
        -- the free funds left must cover the frozen balance
        if min (newFreeBalance + account.reserved) params.maxBalance < account.frozen then .frozen else success

/-! ## Dropping imbalances -/

/-- `DecreaseIssuance::handle`. -/
def decreaseIssuance (st : Storage A) (amount : Nat) : Storage A :=
  { st with totalIssuance := st.totalIssuance - amount }

/-- `IncreaseIssuance::handle`. -/
def increaseIssuance (st : Storage A) (amount : Nat) : Storage A :=
  { st with totalIssuance := min (st.totalIssuance + amount) params.maxBalance }

/-- Dropping a `Credit`: a non-zero amount goes to `DecreaseIssuance`. -/
def dropCredit (st : Storage A) (amount : Nat) : Storage A :=
  if amount = 0 then st else decreaseIssuance st amount

/-- Dropping a `Debt`: a non-zero amount goes to `IncreaseIssuance`. -/
def dropDebt (st : Storage A) (amount : Nat) : Storage A :=
  if amount = 0 then st else increaseIssuance params st amount

/-- `handle_dust`: `DustRemoval` is `()`, whose `on_unbalanced` drops the dust as a `Credit`. -/
def handleDust (st : Storage A) (dust : Nat) : Storage A :=
  dropCredit st dust

/-! ## Unbalanced -/

/-- `write_balance`: sets the free balance through `mutate_account`, unless that reduces it by more than
`reducible_balance(Expendable, Force)` read before the call. -/
def writeBalance (st : Storage A) (who : A) (amount : Nat) : Storage A × Except Error (Option Nat) :=
  let maxReduction := reducibleBalance params st who .expendable .force
  match mutateAccount (R := Except Error Unit) params.toConfig st.accounts who fun account =>
      if maxReduction < account.free - amount then (.error .insufficientBalance, account)
      else (.ok (), { account with free := amount }) with
  | (accounts, .error e) => ({ st with accounts := accounts }, .error (.system e))
  | (accounts, .ok (.error e, _)) => ({ st with accounts := accounts }, .error e)
  | (accounts, .ok (.ok (), maybeDust)) => ({ st with accounts := accounts }, .ok maybeDust)

/-- `decrease_balance`: the amount taken is returned; dust the write reaps is handled as well. -/
def decreaseBalance (st : Storage A) (who : A) (amount : Nat) (precision : Precision)
    (preservation : Preservation) (force : Fortitude) : Storage A × Except Error Nat :=
  let oldBalance := st.balance who
  let reducible := reducibleBalance params st who preservation force
  let checked : Except Error Nat :=
    match precision with
    | .bestEffort => .ok (min amount reducible)
    | .exact => if amount ≤ reducible then .ok amount else .error (.token .fundsUnavailable)
  match checked with
  | .error e => (st, .error e)
  | .ok amount =>
    if oldBalance < amount then (st, .error (.token .fundsUnavailable))
    else
      let newBalance := oldBalance - amount
      match writeBalance params st who newBalance with
      | (st, .error e) => (st, .error e)
      | (st, .ok maybeDust) => (maybeDust.elim st (handleDust st), .ok (oldBalance - newBalance))

/-- `increase_balance`: the amount added is returned; an increase that stays below the deposit adds nothing. -/
def increaseBalance (st : Storage A) (who : A) (amount : Nat) (precision : Precision) :
    Storage A × Except Error Nat :=
  let oldBalance := st.balance who
  let checked : Except Error Nat :=
    match precision with
    | .bestEffort => .ok (min (oldBalance + amount) params.maxBalance)
    | .exact =>
      if oldBalance + amount ≤ params.maxBalance then .ok (oldBalance + amount)
      else .error (.arithmetic .overflow)
  match checked with
  | .error e => (st, .error e)
  | .ok newBalance =>
    if newBalance < params.existentialDeposit then
      match precision with
      | .bestEffort => (st, .ok 0)
      | .exact => (st, .error (.token .belowMinimum))
    else if newBalance = oldBalance then (st, .ok 0)
    else
      match writeBalance params st who newBalance with
      | (st, .error e) => (st, .error e)
      | (st, .ok maybeDust) => (maybeDust.elim st (handleDust st), .ok (newBalance - oldBalance))

/-! ## Mutate -/

/-- `mint_into`. -/
def mintInto (st : Storage A) (who : A) (amount : Nat) : Storage A × Except Error Nat :=
  if params.maxBalance < st.totalIssuance + amount then (st, .error (.arithmetic .overflow))
  else
    match increaseBalance params st who amount .exact with
    | (st, .error e) => (st, .error e)
    | (st, .ok actual) =>
      ({ st with totalIssuance := min (st.totalIssuance + actual) params.maxBalance }, .ok actual)

/-- `burn_from`: `TotalIssuance` is read again after the decrease, which has already taken the dust off it. -/
def burnFrom (st : Storage A) (who : A) (amount : Nat) (preservation : Preservation) (precision : Precision)
    (force : Fortitude) : Storage A × Except Error Nat :=
  let actual := min (reducibleBalance params st who preservation force) amount
  if actual ≠ amount ∧ precision ≠ .bestEffort then (st, .error (.token .fundsUnavailable))
  else if st.totalIssuance < actual then (st, .error (.arithmetic .overflow))
  else
    match decreaseBalance params st who actual .bestEffort preservation force with
    | (st, .error e) => (st, .error e)
    | (st, .ok actual) => ({ st with totalIssuance := st.totalIssuance - actual }, .ok actual)

/-- `shelve`: the body of `burn_from` for exactly `amount`, expendable and polite. -/
def shelve (st : Storage A) (who : A) (amount : Nat) : Storage A × Except Error Nat :=
  burnFrom params st who amount .expendable .exact .polite

/-- `restore`: the body of `mint_into`. -/
def restore (st : Storage A) (who : A) (amount : Nat) : Storage A × Except Error Nat :=
  mintInto params st who amount

/-- `transfer`: both ends are checked first; the result of the best-effort increase is ignored. -/
def transfer (st : Storage A) (source dest : A) (amount : Nat) (preservation : Preservation) :
    Storage A × Except Error Nat :=
  match (canWithdraw params st source amount).intoResult (preservation != .expendable) with
  | .error e => (st, .error e)
  | .ok _ =>
    match (canDeposit params st dest amount .extant).intoResult with
    | .error e => (st, .error e)
    | .ok () =>
      if source = dest then (st, .ok amount)
      else
        match decreaseBalance params st source amount .bestEffort preservation .polite with
        | (st, .error e) => (st, .error e)
        | (st, .ok _) => ((increaseBalance params st dest amount .bestEffort).1, .ok amount)

/-- `set_balance`: burns or mints the difference, and returns the new balance, or the old one on failure. -/
def setBalance (st : Storage A) (who : A) (amount : Nat) : Storage A × Nat :=
  let b := st.balance who
  let (st, result) :=
    if amount < b then
      match burnFrom params st who (b - amount) .expendable .bestEffort .force with
      | (st, r) => (st, r.map (b - ·))
    else
      match mintInto params st who (amount - b) with
      | (st, r) => (st, r.map fun d => min (b + d) params.maxBalance)
  match result with
  | .ok balance => (st, balance)
  | .error _ => (st, b)

/-! ## Balanced -/

namespace Balanced

/-- `issue`: a `Credit` of what `TotalIssuance` grew by. -/
def issue (st : Storage A) (amount : Nat) : Storage A × Nat :=
  let old := st.totalIssuance
  let new := min (old + amount) params.maxBalance
  ({ st with totalIssuance := new }, new - old)

/-- `rescind`: a `Debt` of what `TotalIssuance` shrank by. -/
def rescind (st : Storage A) (amount : Nat) : Storage A × Nat :=
  let old := st.totalIssuance
  let new := old - amount
  ({ st with totalIssuance := new }, old - new)

/-- `pair`: a `Debt` and a `Credit` of `amount`; if either falls short both are dropped, the `Debt` first (the
reverse order of their bindings). -/
def pair (st : Storage A) (amount : Nat) : Storage A × Except Error (Nat × Nat) :=
  let (st, issued) := issue params st amount
  let (st, rescinded) := rescind st amount
  if issued ≠ rescinded ∨ issued ≠ amount then
    (dropCredit (dropDebt params st rescinded) issued, .error (.other "Failed to issue and rescind equal amounts"))
  else (st, .ok (rescinded, issued))

/-- `deposit`: a `Debt` of what the increase added. -/
def deposit (st : Storage A) (who : A) (value : Nat) (precision : Precision) : Storage A × Except Error Nat :=
  increaseBalance params st who value precision

/-- `withdraw`: a `Credit` of what the decrease took. -/
def withdraw (st : Storage A) (who : A) (value : Nat) (precision : Precision) (preservation : Preservation)
    (force : Fortitude) : Storage A × Except Error Nat :=
  decreaseBalance params st who value precision preservation force

/-- `resolve`: an exact deposit of the `Credit`, which `offset` then meets; what is left is dropped. On failure the
`Credit` is handed back. -/
def resolve (st : Storage A) (who : A) (credit : Nat) : Storage A × Except Nat Unit :=
  match deposit params st who credit .exact with
  | (st, .error _) => (st, .error credit)
  | (st, .ok debt) =>
    if credit = debt then (st, .ok ())
    else if debt < credit then (dropCredit st (credit - debt), .ok ())
    else (dropDebt params st (debt - credit), .ok ())

/-- `settle`: an exact, polite withdrawal of the `Debt`, met by the `Credit` it gives. On failure the `Debt` is
handed back. -/
def settle (st : Storage A) (who : A) (debt : Nat) (preservation : Preservation) : Storage A × Except Nat Nat :=
  match withdraw params st who debt .exact preservation .polite with
  | (st, .error _) => (st, .error debt)
  | (st, .ok credit) =>
    if credit = debt then (st, .ok 0)
    else if debt < credit then (st, .ok (credit - debt))
    else (st, .error (debt - credit))

end Balanced

end CoreChain.Balances

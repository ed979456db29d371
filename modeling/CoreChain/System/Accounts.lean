import CoreChain.System.RefCount

/-!
# The reference counters over a run

Beside the accounts, a `Ledger` keeps the references handed out and not yet given back, per account and kind: an
increment that succeeds hands one out, a decrement that succeeds gives one back, and a decrement is only made for a
reference still out (`Op.matched`). Under these rules, and with fewer than `2^32` references out on any account,
every reachable ledger keeps `Inv` (`reachable_inv`): each account's record is exactly the one its counts call for
(`expected`: stored while it has a provider or a sufficient reference, with the counts as its counters), and a
consumer is only ever held with a provider.

Each call has one lemma giving its result from the counts (`incProviders_spec`, `decProviders_spec`, ...); the
statuses, the hooks and the invariant all follow from these.
-/

namespace CoreChain.System

variable {A : Type} [DecidableEq A]

/-- The record an account with these counts has: stored exactly while something provides for it. -/
def expected (p su c : Nat) : Option AccountInfo :=
  if 0 < p + su then some ⟨c, p, su⟩ else none

/-- The hooks a change of one account's record calls: `on_created_account` when it appears, `on_killed_account`
when it goes. -/
def transition (who : A) : Option AccountInfo → Option AccountInfo → List (Hook A)
  | none, some _ => [.created who]
  | some _, none => [.killed who]
  | _, _ => []

namespace Accounts

variable {s : Accounts A} {who : A}

@[simp] theorem account_write_self (s : Accounts A) (who : A) (a : Option AccountInfo) :
    (s.write who a).account who = a := by
  simp [write]

@[simp] theorem account_write_ne (s : Accounts A) {who x : A} (a : Option AccountInfo) (h : x ≠ who) :
    (s.write who a).account x = s.account x := by
  simp [write, Function.update_of_ne h]

@[simp] theorem hooks_write (s : Accounts A) (who : A) (a : Option AccountInfo) :
    (s.write who a).hooks = s.hooks := rfl

omit [DecidableEq A] in
@[simp] theorem account_hook (s : Accounts A) (h : Hook A) : (s.hook h).account = s.account := rfl

omit [DecidableEq A] in
@[simp] theorem hooks_hook (s : Accounts A) (h : Hook A) : (s.hook h).hooks = s.hooks ++ [h] := rfl

omit [DecidableEq A] in
/-- An account with the record its counts call for reads as those counts. -/
theorem get_of_expected {p su c : Nat} (hacc : s.account who = expected p su c) (hprov : 0 < c → 0 < p) :
    s.get who = ⟨c, p, su⟩ := by
  unfold get
  rw [hacc, expected]
  split
  · rfl
  · have hp : p = 0 := by omega
    have hc : c = 0 := by
      by_contra hc
      have := hprov (Nat.pos_of_ne_zero hc)
      omega
    simp [AccountInfo.default, hp, hc]
    omega

/-! ## One lemma per call -/

theorem incRef_of_lt {x : Nat} (h : x + 1 < 2 ^ 32) : incRef x = x + 1 := by
  unfold incRef u32Max
  omega

/-- Without a provider there is no consumer either. -/
theorem consumers_eq_zero {p c : Nat} (hprov : 0 < c → 0 < p) (hp : p = 0) : c = 0 := by
  by_contra hc
  have := hprov (Nat.pos_of_ne_zero hc)
  omega

variable {p su c : Nat} (hacc : s.account who = expected p su c) (hprov : 0 < c → 0 < p)
include hacc hprov

theorem incProviders_spec (hbound : p + 1 < 2 ^ 32) :
    s.incProviders who =
      if p + su = 0 then ((s.write who (expected (p + 1) su c)).hook (.created who), .created)
      else (s.write who (expected (p + 1) su c), .existed) := by
  have hget := get_of_expected hacc hprov
  unfold incProviders
  rw [hget]
  dsimp only
  by_cases hzero : p + su = 0
  · -- the account is created with one provider
    have hp : p = 0 := by omega
    have hc := consumers_eq_zero hprov hp
    obtain rfl : su = 0 := by omega
    subst hp hc
    simp [expected]
  · rw [if_neg (by omega), if_neg hzero, incRef_of_lt hbound, expected, if_pos (by omega)]

theorem incSufficients_spec (hbound : p + su + 1 < 2 ^ 32) :
    s.incSufficients who =
      if p + su = 0 then ((s.write who (expected p (su + 1) c)).hook (.created who), .created)
      else (s.write who (expected p (su + 1) c), .existed) := by
  have hget := get_of_expected hacc hprov
  unfold incSufficients
  rw [hget]
  dsimp only
  -- the `u32` sum does not wrap below `2^32`
  rw [Nat.mod_eq_of_lt (by omega : p + su < 2 ^ 32)]
  by_cases hzero : p + su = 0
  · have hp : p = 0 := by omega
    have hc := consumers_eq_zero hprov hp
    obtain rfl : su = 0 := by omega
    subst hp hc
    simp [expected]
  · rw [if_neg hzero, if_neg hzero, incRef_of_lt (by omega), expected, if_pos (by omega)]

theorem decProviders_spec (hp : 0 < p) :
    s.decProviders who =
      if p = 1 ∧ c = 0 ∧ su = 0 then ((s.write who (expected (p - 1) su c)).hook (.killed who), .ok .reaped)
      else if p = 1 ∧ 0 < c then (s, .error .consumerRemaining)
      else (s.write who (expected (p - 1) su c), .ok .exists) := by
  have hsome : s.account who = some ⟨c, p, su⟩ := by
    rw [hacc, expected, if_pos (by omega)]
  unfold decProviders
  rw [hsome]
  simp only [show p ≠ 0 by omega, ↓reduceIte]
  -- the three arms of the match on `(providers, consumers, sufficients)`
  obtain ⟨q, rfl⟩ : ∃ q, p = q + 1 := ⟨p - 1, by omega⟩
  rcases q with _ | q
  · rcases c with _ | c <;> rcases su with _ | su <;> simp [expected]
  · simp [expected, show 0 < q + 1 + su by omega]

theorem decSufficients_spec (hsu : 0 < su) :
    s.decSufficients who =
      if su = 1 ∧ p = 0 then ((s.write who (expected p (su - 1) c)).hook (.killed who), .reaped)
      else (s.write who (expected p (su - 1) c), .exists) := by
  have hsome : s.account who = some ⟨c, p, su⟩ := by
    rw [hacc, expected, if_pos (by omega)]
  unfold decSufficients
  rw [hsome]
  -- the arms of the match on `(sufficients, providers)`
  obtain ⟨q, rfl⟩ : ∃ q, su = q + 1 := ⟨su - 1, by omega⟩
  rcases q with _ | q
  · rcases p with _ | p
    · have hc := consumers_eq_zero hprov rfl
      subst hc
      simp [expected]
    · simp [expected]
  · simp [expected, show 0 < p + (q + 1) by omega]

theorem incConsumers_spec (maxConsumers : Nat) :
    s.incConsumers maxConsumers who =
      if 0 < p ∧ c < maxConsumers then (s.write who (expected p su (incRef c)), .ok ())
      else if 0 < p then (s, .error .tooManyConsumers)
      else (s, .error .noProviders) := by
  have hget := get_of_expected hacc hprov
  unfold incConsumers
  rw [hget]
  dsimp only
  by_cases hp : 0 < p
  · by_cases hc : c < maxConsumers
    · rw [if_pos hp, if_pos hc, if_pos ⟨hp, hc⟩, expected, if_pos (by omega)]
    · rw [if_pos hp, if_neg hc, if_neg (fun h => hc h.2), if_pos hp]
  · rw [if_neg hp, if_neg (fun h => hp h.1), if_neg hp]

theorem incConsumersWithoutLimit_spec :
    s.incConsumersWithoutLimit who =
      if 0 < p then (s.write who (expected p su (incRef c)), .ok ()) else (s, .error .noProviders) := by
  have hget := get_of_expected hacc hprov
  unfold incConsumersWithoutLimit
  rw [hget]
  dsimp only
  by_cases hp : 0 < p
  · rw [if_pos hp, if_pos hp, expected, if_pos (by omega)]
  · rw [if_neg hp, if_neg hp]

theorem decConsumers_spec (hc : 0 < c) :
    s.decConsumers who = s.write who (expected p su (c - 1)) := by
  have hget := get_of_expected hacc hprov
  have hp := hprov hc
  unfold decConsumers
  rw [hget]
  dsimp only
  rw [if_pos hc, expected, if_pos (by omega)]

/-! ## What each call does to the record -/

theorem account_incProviders (hbound : p + 1 < 2 ^ 32) :
    (s.incProviders who).1.account = (s.write who (expected (p + 1) su c)).account := by
  rw [incProviders_spec hacc hprov hbound]
  split <;> rfl

theorem account_incSufficients (hbound : p + su + 1 < 2 ^ 32) :
    (s.incSufficients who).1.account = (s.write who (expected p (su + 1) c)).account := by
  rw [incSufficients_spec hacc hprov hbound]
  split <;> rfl

theorem account_decSufficients (hsu : 0 < su) :
    (s.decSufficients who).1.account = (s.write who (expected p (su - 1) c)).account := by
  rw [decSufficients_spec hacc hprov hsu]
  split <;> rfl

end Accounts

/-! ## The ledger -/

/-- The kinds of references. -/
inductive RefKind where
  | provider
  | sufficient
  | consumer
  deriving DecidableEq, Repr

/-- The accounts, and the references handed out and not yet given back. -/
structure Ledger (A : Type) where
  accounts : Accounts A
  outstanding : A → RefKind → Nat

/-- The calls on the counters. -/
inductive Op (A : Type) where
  | incProviders (who : A)
  | decProviders (who : A)
  | incSufficients (who : A)
  | decSufficients (who : A)
  | incConsumers (who : A)
  | incConsumersWithoutLimit (who : A)
  | decConsumers (who : A)
  deriving DecidableEq, Repr

/-- The account a call is on. -/
def Op.who : Op A → A
  | .incProviders who | .decProviders who | .incSufficients who | .decSufficients who | .incConsumers who
  | .incConsumersWithoutLimit who | .decConsumers who => who

namespace Ledger

/-- The ledger after a call on `who` that left `accounts` and `n` references of kind `k` out. -/
def adjust (l : Ledger A) (accounts : Accounts A) (who : A) (k : RefKind) (n : Nat) : Ledger A :=
  ⟨accounts, Function.update l.outstanding who (Function.update (l.outstanding who) k n)⟩

/-- No references out. -/
def empty : Ledger A :=
  ⟨.empty, fun _ _ => 0⟩

/-- Fewer than `2^32` references out on every account. -/
def Bounded (l : Ledger A) : Prop :=
  ∀ who, l.outstanding who .provider + l.outstanding who .sufficient + l.outstanding who .consumer < 2 ^ 32

end Ledger

/-- A call, with the references it hands out or gives back. -/
def Op.apply (maxConsumers : Nat) : Op A → Ledger A → Ledger A
  | .incProviders who, l =>
    l.adjust (l.accounts.incProviders who).1 who .provider (l.outstanding who .provider + 1)
  | .decProviders who, l =>
    match l.accounts.decProviders who with
    | (s, .ok _) => l.adjust s who .provider (l.outstanding who .provider - 1)
    | (s, .error _) => { l with accounts := s }
  | .incSufficients who, l =>
    l.adjust (l.accounts.incSufficients who).1 who .sufficient (l.outstanding who .sufficient + 1)
  | .decSufficients who, l =>
    l.adjust (l.accounts.decSufficients who).1 who .sufficient (l.outstanding who .sufficient - 1)
  | .incConsumers who, l =>
    match l.accounts.incConsumers maxConsumers who with
    | (s, .ok ()) => l.adjust s who .consumer (l.outstanding who .consumer + 1)
    | (s, .error _) => { l with accounts := s }
  | .incConsumersWithoutLimit who, l =>
    match l.accounts.incConsumersWithoutLimit who with
    | (s, .ok ()) => l.adjust s who .consumer (l.outstanding who .consumer + 1)
    | (s, .error _) => { l with accounts := s }
  | .decConsumers who, l => l.adjust (l.accounts.decConsumers who) who .consumer (l.outstanding who .consumer - 1)

/-- A decrement gives back a reference that is out. -/
def Op.matched (l : Ledger A) : Op A → Prop
  | .decProviders who => 0 < l.outstanding who .provider
  | .decSufficients who => 0 < l.outstanding who .sufficient
  | .decConsumers who => 0 < l.outstanding who .consumer
  | _ => True

/-- The ledgers reached by matched calls that keep fewer than `2^32` references out. -/
inductive Reachable (maxConsumers : Nat) : Ledger A → Prop
  | init : Reachable maxConsumers .empty
  | step {l : Ledger A} {op : Op A} : Reachable maxConsumers l → op.matched l →
    (op.apply maxConsumers l).Bounded → Reachable maxConsumers (op.apply maxConsumers l)

/-- Every account's record is the one its references call for, and a consumer is held only with a provider. -/
def Inv (l : Ledger A) : Prop :=
  ∀ who, l.accounts.account who = expected (l.outstanding who .provider) (l.outstanding who .sufficient)
      (l.outstanding who .consumer) ∧
    (0 < l.outstanding who .consumer → 0 < l.outstanding who .provider)

omit [DecidableEq A] in
theorem inv_empty : Inv (Ledger.empty : Ledger A) := by
  intro who
  simp [Ledger.empty, Accounts.empty, expected]

@[simp] theorem accounts_adjust (l : Ledger A) (accounts : Accounts A) (who : A) (k : RefKind) (n : Nat) :
    (l.adjust accounts who k n).accounts = accounts := rfl

@[simp] theorem outstanding_adjust_self (l : Ledger A) (accounts : Accounts A) (who : A) (k : RefKind) (n : Nat) :
    (l.adjust accounts who k n).outstanding who k = n := by
  simp [Ledger.adjust]

@[simp] theorem outstanding_adjust_of_ne_kind (l : Ledger A) (accounts : Accounts A) (who : A) {k k' : RefKind}
    (n : Nat) (hk : k' ≠ k) : (l.adjust accounts who k n).outstanding who k' = l.outstanding who k' := by
  simp [Ledger.adjust, Function.update_of_ne hk]

@[simp] theorem outstanding_adjust_of_ne (l : Ledger A) (accounts : Accounts A) {who x : A} (k : RefKind)
    (n : Nat) (hx : x ≠ who) : (l.adjust accounts who k n).outstanding x = l.outstanding x := by
  simp [Ledger.adjust, Function.update_of_ne hx]

/-- A call that rewrites one account and its count of one kind keeps the invariant, if that account's new record
is the one its new counts call for. -/
theorem Inv.adjust {l : Ledger A} (hinv : Inv l) {accounts : Accounts A} {who : A} {k : RefKind} {n : Nat}
    {p su c : Nat} (haccounts : accounts.account = (l.accounts.write who (expected p su c)).account)
    (hp : (l.adjust l.accounts who k n).outstanding who .provider = p)
    (hsu : (l.adjust l.accounts who k n).outstanding who .sufficient = su)
    (hc : (l.adjust l.accounts who k n).outstanding who .consumer = c) (hprov : 0 < c → 0 < p) :
    Inv (l.adjust accounts who k n) := by
  intro x
  by_cases hx : x = who
  · subst hx
    simp only [Ledger.adjust] at hp hsu hc ⊢
    rw [haccounts, Accounts.account_write_self, hp, hsu, hc]
    exact ⟨rfl, hprov⟩
  · simp only [Ledger.adjust, haccounts, Accounts.account_write_ne _ _ hx, Function.update_of_ne hx]
    exact hinv x

omit [DecidableEq A] in
/-- A call that changes nothing keeps the invariant. -/
theorem Inv.of_account_eq {l : Ledger A} (hinv : Inv l) {accounts : Accounts A}
    (haccounts : accounts.account = l.accounts.account) : Inv { l with accounts := accounts } := by
  intro x
  simp only [haccounts]
  exact hinv x

/-- What a call reports: `Created` exactly when the account was absent, `Reaped` exactly when its record goes. -/
def Op.reports (l : Ledger A) : Op A → Prop
  | .incProviders who => ((l.accounts.incProviders who).2 = .created ↔ l.accounts.account who = none)
  | .incSufficients who => ((l.accounts.incSufficients who).2 = .created ↔ l.accounts.account who = none)
  | .decProviders who =>
    ((l.accounts.decProviders who).2 = .ok .reaped ↔ (l.accounts.decProviders who).1.account who = none)
  | .decSufficients who =>
    ((l.accounts.decSufficients who).2 = .reaped ↔ (l.accounts.decSufficients who).1.account who = none)
  | _ => True

omit [DecidableEq A] in
@[simp] theorem transition_self (who : A) (a : Option AccountInfo) : transition who a a = [] := by
  cases a <;> rfl

omit [DecidableEq A] in
/-- The hooks between two records that counts call for: a creation when the provider and sufficient references
rise from none, a kill when they fall to none. -/
theorem transition_expected (who : A) (p su c p' su' c' : Nat) :
    transition who (expected p su c) (expected p' su' c') =
      if p + su = 0 ∧ 0 < p' + su' then [.created who]
      else if 0 < p + su ∧ p' + su' = 0 then [.killed who] else [] := by
  unfold expected
  split_ifs <;> first | rfl | omega

/-! ## One step -/

section Step

variable {maxConsumers : Nat} {l : Ledger A}

/-- One matched call that keeps fewer than `2^32` references out keeps the invariant. -/
theorem Inv.apply {op : Op A} (hinv : Inv l) (hmatched : op.matched l) (hbound : (op.apply maxConsumers l).Bounded) :
    Inv (op.apply maxConsumers l) := by
  have hb := hbound op.who
  obtain ⟨hacc, hprov⟩ := hinv op.who
  cases op with
  | incProviders who =>
    simp only [Op.who, Op.apply, outstanding_adjust_self, ne_eq, reduceCtorEq, not_false_eq_true,
      outstanding_adjust_of_ne_kind] at hb hacc hprov ⊢
    exact Inv.adjust hinv (Accounts.account_incProviders hacc hprov (by omega)) (by simp) (by simp) (by simp)
      (fun _ => Nat.succ_pos _)
  | decProviders who =>
    simp only [Op.who, Op.matched] at hacc hprov hmatched
    simp only [Op.apply]
    rw [Accounts.decProviders_spec hacc hprov hmatched]
    split_ifs with hreap hremain
    · -- reaped: the last provider goes with the record
      exact Inv.adjust hinv rfl (by simp) (by simp) (by simp) (by omega)
    · exact Inv.of_account_eq hinv rfl
    · exact Inv.adjust hinv rfl (by simp) (by simp) (by simp) (by omega)
  | incSufficients who =>
    simp only [Op.who, Op.apply, outstanding_adjust_self, ne_eq, reduceCtorEq, not_false_eq_true,
      outstanding_adjust_of_ne_kind] at hb hacc hprov ⊢
    exact Inv.adjust hinv (Accounts.account_incSufficients hacc hprov (by omega)) (by simp) (by simp) (by simp)
      hprov
  | decSufficients who =>
    simp only [Op.who, Op.matched] at hacc hprov hmatched
    simp only [Op.apply]
    exact Inv.adjust hinv (Accounts.account_decSufficients hacc hprov hmatched) (by simp) (by simp) (by simp)
      hprov
  | incConsumers who =>
    simp only [Op.who] at hacc hprov hb
    simp only [Op.apply] at hb ⊢
    rw [Accounts.incConsumers_spec hacc hprov] at hb ⊢
    split_ifs at hb ⊢ with hok hp
    · -- handed out: below `2^32` the counter adds one
      simp only [outstanding_adjust_self, ne_eq, reduceCtorEq, not_false_eq_true,
        outstanding_adjust_of_ne_kind] at hb
      rw [Accounts.incRef_of_lt (by omega)]
      exact Inv.adjust hinv rfl (by simp) (by simp) (by simp) (fun _ => hok.1)
    · exact Inv.of_account_eq hinv rfl
    · exact Inv.of_account_eq hinv rfl
  | incConsumersWithoutLimit who =>
    simp only [Op.who] at hacc hprov hb
    simp only [Op.apply] at hb ⊢
    rw [Accounts.incConsumersWithoutLimit_spec hacc hprov] at hb ⊢
    split_ifs at hb ⊢ with hp
    · simp only [outstanding_adjust_self, ne_eq, reduceCtorEq, not_false_eq_true,
        outstanding_adjust_of_ne_kind] at hb
      rw [Accounts.incRef_of_lt (by omega)]
      exact Inv.adjust hinv rfl (by simp) (by simp) (by simp) (fun _ => hp)
    · exact Inv.of_account_eq hinv rfl
  | decConsumers who =>
    simp only [Op.who, Op.matched] at hacc hprov hmatched
    simp only [Op.apply]
    rw [Accounts.decConsumers_spec hacc hprov hmatched]
    exact Inv.adjust hinv rfl (by simp) (by simp) (by simp) (fun _ => hprov hmatched)

/-- A matched call reports the creation and the removal of the record as they happen. -/
theorem Inv.reports {op : Op A} (hinv : Inv l) (hmatched : op.matched l)
    (hbound : (op.apply maxConsumers l).Bounded) : op.reports l := by
  have hb := hbound op.who
  obtain ⟨hacc, hprov⟩ := hinv op.who
  cases op with
  | incProviders who =>
    simp only [Op.who, Op.apply, outstanding_adjust_self, ne_eq, reduceCtorEq, not_false_eq_true,
      outstanding_adjust_of_ne_kind] at hb hacc hprov
    simp only [Op.reports, Accounts.incProviders_spec hacc hprov (by omega), hacc, expected]
    split_ifs <;> simp <;> omega
  | incSufficients who =>
    simp only [Op.who, Op.apply, outstanding_adjust_self, ne_eq, reduceCtorEq, not_false_eq_true,
      outstanding_adjust_of_ne_kind] at hb hacc hprov
    simp only [Op.reports, Accounts.incSufficients_spec hacc hprov (by omega), hacc, expected]
    split_ifs <;> simp <;> omega
  | decProviders who =>
    simp only [Op.who, Op.matched] at hacc hprov hmatched
    simp only [Op.reports, Accounts.decProviders_spec hacc hprov hmatched]
    split_ifs with hreap hremain
    · simp [expected]
      omega
    · simp [hacc, expected]
      omega
    · simp [expected]
      omega
  | decSufficients who =>
    simp only [Op.who, Op.matched] at hacc hprov hmatched
    simp only [Op.reports, Accounts.decSufficients_spec hacc hprov hmatched]
    split_ifs with hreap
    · simp [expected]
      omega
    · simp [expected]
      omega
  | incConsumers who => trivial
  | incConsumersWithoutLimit who => trivial
  | decConsumers who => trivial

/-- A matched call calls `on_created_account` exactly when the record appears and `on_killed_account` exactly when
it goes, and no other hook. -/
theorem Inv.hooks {op : Op A} (hinv : Inv l) (hmatched : op.matched l)
    (hbound : (op.apply maxConsumers l).Bounded) :
    (op.apply maxConsumers l).accounts.hooks =
      l.accounts.hooks ++ transition op.who (l.accounts.account op.who)
        ((op.apply maxConsumers l).accounts.account op.who) := by
  have hb := hbound op.who
  obtain ⟨hacc, hprov⟩ := hinv op.who
  cases op with
  | incProviders who =>
    simp only [Op.who, Op.apply, outstanding_adjust_self, ne_eq, reduceCtorEq, not_false_eq_true,
      outstanding_adjust_of_ne_kind] at hb hacc hprov ⊢
    rw [Accounts.incProviders_spec hacc hprov (by omega)]
    split_ifs with hzero
    · simp only [accounts_adjust, Accounts.hooks_hook, Accounts.hooks_write, Accounts.account_hook,
        Accounts.account_write_self, hacc, transition_expected]
      rw [if_pos ⟨hzero, by omega⟩]
    · simp only [accounts_adjust, Accounts.hooks_write, Accounts.account_write_self, hacc, transition_expected]
      rw [if_neg (by omega), if_neg (by omega), List.append_nil]
  | incSufficients who =>
    simp only [Op.who, Op.apply, outstanding_adjust_self, ne_eq, reduceCtorEq, not_false_eq_true,
      outstanding_adjust_of_ne_kind] at hb hacc hprov ⊢
    rw [Accounts.incSufficients_spec hacc hprov (by omega)]
    split_ifs with hzero
    · simp only [accounts_adjust, Accounts.hooks_hook, Accounts.hooks_write, Accounts.account_hook,
        Accounts.account_write_self, hacc, transition_expected]
      rw [if_pos ⟨hzero, by omega⟩]
    · simp only [accounts_adjust, Accounts.hooks_write, Accounts.account_write_self, hacc, transition_expected]
      rw [if_neg (by omega), if_neg (by omega), List.append_nil]
  | decProviders who =>
    simp only [Op.who, Op.matched] at hacc hprov hmatched ⊢
    simp only [Op.apply, Accounts.decProviders_spec hacc hprov hmatched]
    split_ifs with hreap hremain
    · -- the last provider goes, and the record with it
      simp only [accounts_adjust, Accounts.hooks_hook, Accounts.hooks_write, Accounts.account_hook,
        Accounts.account_write_self, hacc, transition_expected]
      rw [if_neg (by omega), if_pos ⟨by omega, by omega⟩]
    · simp
    · simp only [accounts_adjust, Accounts.hooks_write, Accounts.account_write_self, hacc, transition_expected]
      rw [if_neg (by omega), if_neg (by omega), List.append_nil]
  | decSufficients who =>
    simp only [Op.who, Op.matched] at hacc hprov hmatched ⊢
    simp only [Op.apply, Accounts.decSufficients_spec hacc hprov hmatched]
    split_ifs with hreap
    · simp only [accounts_adjust, Accounts.hooks_hook, Accounts.hooks_write, Accounts.account_hook,
        Accounts.account_write_self, hacc, transition_expected]
      rw [if_neg (by omega), if_pos ⟨by omega, by omega⟩]
    · simp only [accounts_adjust, Accounts.hooks_write, Accounts.account_write_self, hacc, transition_expected]
      rw [if_neg (by omega), if_neg (by omega), List.append_nil]
  | incConsumers who =>
    simp only [Op.who] at hacc hprov ⊢
    simp only [Op.apply, Accounts.incConsumers_spec hacc hprov]
    split_ifs with hok hp
    · -- a consumer is only taken with a provider, so the record stays
      simp only [accounts_adjust, Accounts.hooks_write, Accounts.account_write_self, hacc, transition_expected]
      rw [if_neg (by omega), if_neg (by omega), List.append_nil]
    · simp
    · simp
  | incConsumersWithoutLimit who =>
    simp only [Op.who] at hacc hprov ⊢
    simp only [Op.apply, Accounts.incConsumersWithoutLimit_spec hacc hprov]
    split_ifs with hp
    · simp only [accounts_adjust, Accounts.hooks_write, Accounts.account_write_self, hacc, transition_expected]
      rw [if_neg (by omega), if_neg (by omega), List.append_nil]
    · simp
  | decConsumers who =>
    simp only [Op.who, Op.matched] at hacc hprov hmatched ⊢
    simp only [Op.apply, Accounts.decConsumers_spec hacc hprov hmatched]
    have hp := hprov hmatched
    simp only [accounts_adjust, Accounts.hooks_write, Accounts.account_write_self, hacc, transition_expected]
    rw [if_neg (by omega), if_neg (by omega), List.append_nil]

theorem reachable_inv (h : Reachable maxConsumers l) : Inv l := by
  induction h with
  | init => exact inv_empty
  | step _ hmatched hbound ih => exact ih.apply hmatched hbound

end Step

omit [DecidableEq A] in
/-- Under the invariant, the counters read back are the references out. -/
theorem Inv.get {l : Ledger A} (hinv : Inv l) (who : A) :
    l.accounts.get who = ⟨l.outstanding who .consumer, l.outstanding who .provider, l.outstanding who .sufficient⟩ :=
  Accounts.get_of_expected (hinv who).1 (hinv who).2

omit [DecidableEq A] in
theorem Inv.accountExists {l : Ledger A} (hinv : Inv l) (who : A) :
    l.accounts.accountExists who = true ↔ 0 < l.outstanding who .provider + l.outstanding who .sufficient := by
  unfold Accounts.accountExists
  rw [(hinv who).1, expected]
  split_ifs with h <;> simp [h]

/-- Over every run of matched calls keeping fewer than `2^32` references out on each account: an account is stored
exactly while it has a provider or a sufficient reference, a consumer comes only with a provider, the counters are the
references out, and the next matched call reports the record's creation and removal and calls the hooks exactly there.
-/
theorem refcount_sound {maxConsumers : Nat} {l : Ledger A} (h : Reachable maxConsumers l) :
    (∀ who, l.accounts.accountExists who = true ↔ 0 < l.accounts.providers who + l.accounts.sufficients who) ∧
    (∀ who, 0 < l.accounts.consumers who → 0 < l.accounts.providers who) ∧
    (∀ who, l.accounts.providers who = l.outstanding who .provider ∧
      l.accounts.sufficients who = l.outstanding who .sufficient ∧
      l.accounts.consumers who = l.outstanding who .consumer) ∧
    ∀ op : Op A, op.matched l → (op.apply maxConsumers l).Bounded →
      op.reports l ∧ (op.apply maxConsumers l).accounts.hooks =
        l.accounts.hooks ++ transition op.who (l.accounts.account op.who)
          ((op.apply maxConsumers l).accounts.account op.who) := by
  have hinv := reachable_inv h
  have hcount : ∀ who, l.accounts.providers who = l.outstanding who .provider ∧
      l.accounts.sufficients who = l.outstanding who .sufficient ∧
      l.accounts.consumers who = l.outstanding who .consumer := by
    intro who
    simp only [Accounts.providers, Accounts.sufficients, Accounts.consumers, hinv.get who, and_self]
  refine ⟨fun who => ?_, fun who => ?_, hcount, fun op hmatched hbound => ?_⟩
  · obtain ⟨hp, hsu, -⟩ := hcount who
    rw [hp, hsu]
    exact hinv.accountExists who
  · obtain ⟨hp, -, hc⟩ := hcount who
    rw [hp, hc]
    exact (hinv who).2
  · exact ⟨hinv.reports hmatched hbound, hinv.hooks hmatched hbound⟩

/-- Account `0` provided for; account `1` made to exist by a sufficient reference, then provided for, and the
sufficient reference given back. -/
theorem refcount_sound_handedBack :
    ∃ l : Ledger Nat, Reachable 16 l ∧ l.accounts.providers 1 = 1 ∧ l.accounts.sufficients 1 = 0 ∧
      (∀ who, l.accounts.accountExists who = true ↔ 0 < l.accounts.providers who + l.accounts.sufficients who) ∧
      ∀ who, 0 < l.accounts.consumers who → 0 < l.accounts.providers who := by
  have h₁ := @Reachable.step Nat _ 16 _ (.incProviders 0) .init trivial fun who => by
    by_cases h : who = 0 <;> simp [Op.apply, Ledger.adjust, Ledger.empty, h]
  have h₂ := @Reachable.step Nat _ 16 _ (.incSufficients 1) h₁ trivial fun who => by
    by_cases h : who = 1 <;> by_cases h' : who = 0 <;> simp_all [Op.apply, Ledger.adjust, Ledger.empty]
  have h₃ := @Reachable.step Nat _ 16 _ (.incProviders 1) h₂ trivial fun who => by
    by_cases h : who = 1 <;> by_cases h' : who = 0 <;> simp_all [Op.apply, Ledger.adjust, Ledger.empty]
  have h₄ := @Reachable.step Nat _ 16 _ (.decSufficients 1) h₃ (by simp [Op.matched, Op.apply, Ledger.adjust])
    fun who => by
      by_cases h : who = 1 <;> by_cases h' : who = 0 <;> simp_all [Op.apply, Ledger.adjust, Ledger.empty]
  obtain ⟨hexists, hconsumers, -⟩ := refcount_sound h₄
  exact ⟨_, h₄, rfl, rfl, hexists, hconsumers⟩

end CoreChain.System

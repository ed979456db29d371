import CoreChain.Bridge.Inbound

/-!
# One lane across two chains

A lane is an outbound lane on the source chain and an inbound lane on the target chain, with the nonces the target
dispatched and every lane data each side has had: a relayer may carry any of them in a proof, however stale. A
`Step` is one of the three calls of the messages pallet that change the lane, with every proof an honest relayer
can build:

- `send`: the source chain sends a message;
- `deliver`: a relayer brings a run of messages the source chain generated, and optionally a lane data the source
  chain once had, to the target chain;
- `confirm`: a relayer brings a lane data the target chain once had, with the relayers state computed from it, to
  the source chain.

`Inv` is what every reachable lane keeps (`reachable_inv`), one lemma per call: the inbound queue is well formed,
the target dispatched increasing nonces that the source generated, the source stores exactly the messages not yet
confirmed, and every lane data of either side is behind the other side's current one. From it, the source chain
accepts every honest delivery proof (`receiveMessagesDeliveryProof_ok`).
-/

namespace CoreChain.Bridge

variable {R P : Type}

/-! ## The outbound lane -/

/-- With nothing after the latest received nonce, `confirm_delivery` confirms nothing. -/
theorem confirmDelivery_of_le {l : OutboundLane P} {maxAllowedMessages latestDeliveredNonce : Nat}
    {relayers : List (UnrewardedRelayer R)} (hle : latestDeliveredNonce ≤ l.data.latestReceivedNonce) :
    confirmDelivery l maxAllowedMessages latestDeliveredNonce relayers = .ok (l, none) := by
  unfold confirmDelivery
  rw [if_pos (by simp only [DeliveredMessages.totalMessages]; omega)]

/-- `confirm_delivery` either confirms nothing or confirms, up to a generated nonce, the nonces after the latest
received one, and prunes them. -/
theorem confirmDelivery_ok {l l' : OutboundLane P} {maxAllowedMessages latestDeliveredNonce : Nat}
    {relayers : List (UnrewardedRelayer R)} {confirmed : Option DeliveredMessages}
    (h : confirmDelivery l maxAllowedMessages latestDeliveredNonce relayers = .ok (l', confirmed)) :
    l' = l ∨
    (l.data.latestReceivedNonce < latestDeliveredNonce ∧ latestDeliveredNonce ≤ l.data.latestGeneratedNonce ∧
      l' = ⟨⟨latestDeliveredNonce + 1, latestDeliveredNonce, l.data.latestGeneratedNonce⟩,
        removeMessages l.messages ⟨l.data.latestReceivedNonce + 1, latestDeliveredNonce⟩⟩) := by
  by_cases hle : latestDeliveredNonce ≤ l.data.latestReceivedNonce
  · rw [confirmDelivery_of_le hle] at h
    cases h
    exact .inl rfl
  have hzero : ¬(latestDeliveredNonce + 1 - (l.data.latestReceivedNonce + 1) = 0) := by omega
  unfold confirmDelivery at h
  simp only [DeliveredMessages.totalMessages, hzero, ↓reduceIte] at h
  by_cases hgen : l.data.latestGeneratedNonce < latestDeliveredNonce
  · simp only [hgen, ↓reduceIte, reduceCtorEq] at h
  by_cases hmax : maxAllowedMessages < latestDeliveredNonce + 1 - (l.data.latestReceivedNonce + 1)
  · simp only [hgen, hmax, ↓reduceIte, reduceCtorEq] at h
  simp only [hgen, hmax, ↓reduceIte] at h
  cases hensure : ensureUnrewardedRelayersAreCorrect latestDeliveredNonce relayers with
  | error e =>
    rw [hensure] at h
    cases h
  | ok u =>
    rw [hensure] at h
    cases h
    exact .inr ⟨by omega, by omega, rfl⟩

/-- The checks of `ensure_unrewarded_relayers_are_correct` pass on consecutive entries that are not empty and end
by `bound`. -/
theorem ensureEntries_ok {bound : Nat} :
    ∀ {l : List (UnrewardedRelayer R)} {expectedEntryBegin : Option Nat},
      (∀ e ∈ l.head?, expectedEntryBegin = some e.messages.begin) → l.IsChain Follows →
      (∀ e ∈ l, e.messages.begin ≤ e.messages.end) → (∀ e ∈ l, e.messages.end ≤ bound) →
      ensureEntries bound expectedEntryBegin l = .ok ()
  | [], _, _, _, _, _ => rfl
  | e :: rest, expectedEntryBegin, hexpected, hchain, hne, hbound => by
    rw [List.isChain_cons] at hchain
    have he := hne e List.mem_cons_self
    have hb := hbound e List.mem_cons_self
    have hx : expectedEntryBegin = some e.messages.begin := hexpected e rfl
    simp only [ensureEntries, hx, ne_eq, not_true_eq_false, ↓reduceIte, not_lt.mpr he, not_lt.mpr hb]
    -- the next entry starts right after `e`
    apply ensureEntries_ok _ hchain.2 (fun x hx => hne x (List.mem_cons_of_mem _ hx))
      (fun x hx => hbound x (List.mem_cons_of_mem _ hx))
    intro x hx
    rw [hchain.1 x hx]

/-- With new generated nonces, no more of them than declared, and entries that pass the checks, `confirm_delivery`
confirms them. -/
theorem confirmDelivery_of_lt {l : OutboundLane P} {maxAllowedMessages latestDeliveredNonce : Nat}
    {relayers : List (UnrewardedRelayer R)} (hlt : l.data.latestReceivedNonce < latestDeliveredNonce)
    (hgen : latestDeliveredNonce ≤ l.data.latestGeneratedNonce)
    (hmax : latestDeliveredNonce - l.data.latestReceivedNonce ≤ maxAllowedMessages)
    (hensure : ensureUnrewardedRelayersAreCorrect latestDeliveredNonce relayers = .ok ()) :
    confirmDelivery l maxAllowedMessages latestDeliveredNonce relayers =
      .ok (⟨⟨latestDeliveredNonce + 1, latestDeliveredNonce, l.data.latestGeneratedNonce⟩,
        removeMessages l.messages ⟨l.data.latestReceivedNonce + 1, latestDeliveredNonce⟩⟩,
        some ⟨l.data.latestReceivedNonce + 1, latestDeliveredNonce⟩) := by
  have hzero : ¬(latestDeliveredNonce + 1 - (l.data.latestReceivedNonce + 1) = 0) := by omega
  have hgen' : ¬(l.data.latestGeneratedNonce < latestDeliveredNonce) := by omega
  have hmax' : ¬(maxAllowedMessages < latestDeliveredNonce + 1 - (l.data.latestReceivedNonce + 1)) := by omega
  unfold confirmDelivery
  simp only [DeliveredMessages.totalMessages, hzero, hgen', hmax', ↓reduceIte, hensure]

/-- The source chain accepts a delivery proof of target lane data `d` that is well formed, delivered only
generated nonces and confirmed only received ones, with the relayers state computed from it. -/
theorem receiveMessagesDeliveryProof_ok {c : InboundConfig} {l : OutboundLane P} {d : InboundLaneData R}
    (hwf : InboundWf c d) (hgen : d.lastDeliveredNonce ≤ l.data.latestGeneratedNonce)
    (hconf : d.lastConfirmedNonce ≤ l.data.latestReceivedNonce) :
    ∃ l', receiveMessagesDeliveryProof l d (.ofLaneData d) = .ok l' := by
  have hvalid : (UnrewardedRelayersState.ofLaneData d).isValid d = true := by
    simp [UnrewardedRelayersState.isValid]
  simp only [receiveMessagesDeliveryProof, hvalid, Bool.not_true, Bool.false_eq_true, ↓reduceIte]
  by_cases hle : d.lastDeliveredNonce ≤ l.data.latestReceivedNonce
  · rw [confirmDelivery_of_le hle]
    exact ⟨l, rfl⟩
  -- some nonces are confirmed, so the target has entries, and they cover the confirmed nonces
  have hentries : d.relayers ≠ [] := by
    intro hnil
    have : d.lastDeliveredNonce = d.lastConfirmedNonce := by
      simp [InboundLaneData.lastDeliveredNonce, hnil]
    omega
  have hmax : d.lastDeliveredNonce - l.data.latestReceivedNonce ≤
      (UnrewardedRelayersState.ofLaneData d).totalMessages := by
    simp only [UnrewardedRelayersState.ofLaneData, hwf.totalUnrewardedMessages_eq hentries]
    omega
  have hensure : ensureUnrewardedRelayersAreCorrect d.lastDeliveredNonce d.relayers = .ok () :=
    ensureEntries_ok (fun _ he => by simp [Option.mem_def.mp he]) hwf.consecutive hwf.nonempty
      hwf.end_le_lastDelivered
  rw [confirmDelivery_of_lt (by omega) hgen hmax hensure]
  exact ⟨_, rfl⟩

/-! ## The lane -/

/-- Both ends of a lane, the nonces the target dispatched, in order, and every lane data each side has had. -/
structure Lane (R P : Type) where
  source : OutboundLane P
  target : InboundLaneData R
  dispatched : List Nat
  sourceHistory : List OutboundLaneData
  targetHistory : List (InboundLaneData R)

/-- A new lane: nothing sent, nothing delivered. -/
def Lane.init : Lane R P :=
  ⟨⟨.default, fun _ => none⟩, .default, [], [.default], [.default]⟩

/-- What every reachable lane keeps. -/
structure Inv (c : InboundConfig) (s : Lane R P) : Prop where
  receivedLe : s.source.data.latestReceivedNonce ≤ s.source.data.latestGeneratedNonce
  oldest : s.source.data.oldestUnprunedNonce = s.source.data.latestReceivedNonce + 1
  stored : ∀ n, (s.source.messages n).isSome ↔
    s.source.data.oldestUnprunedNonce ≤ n ∧ n ≤ s.source.data.latestGeneratedNonce
  target : InboundWf c s.target
  deliveredLe : s.target.lastDeliveredNonce ≤ s.source.data.latestGeneratedNonce
  confirmedLe : s.target.lastConfirmedNonce ≤ s.source.data.latestReceivedNonce
  increasing : s.dispatched.Pairwise (· < ·)
  dispatchedLe : ∀ n ∈ s.dispatched, 0 < n ∧ n ≤ s.target.lastDeliveredNonce
  sourceHistory : ∀ o ∈ s.sourceHistory, o.latestReceivedNonce ≤ s.source.data.latestReceivedNonce
  targetHistory : ∀ d ∈ s.targetHistory, InboundWf c d ∧
    d.lastDeliveredNonce ≤ s.source.data.latestGeneratedNonce ∧
    d.lastConfirmedNonce ≤ s.source.data.latestReceivedNonce

theorem inv_init (c : InboundConfig) : Inv c (Lane.init : Lane R P) := by
  refine ⟨le_refl _, rfl, ?_, ?_, le_refl _, le_refl _, List.Pairwise.nil, ?_, ?_, ?_⟩
  · intro n
    simp only [Lane.init, OutboundLaneData.default, Option.isSome_none, Bool.false_eq_true, false_iff]
    omega
  · exact ⟨by simp [Lane.init, InboundLaneData.default], List.isChain_nil,
      by simp [Lane.init, InboundLaneData.default], by simp [Lane.init, InboundLaneData.default],
      by simp [Lane.init, InboundLaneData.default, InboundLaneData.lastDeliveredNonce]⟩
  · simp [Lane.init]
  · simp [Lane.init, OutboundLaneData.default]
  · intro d hd
    simp only [Lane.init, List.mem_singleton] at hd
    subst hd
    exact ⟨⟨by simp [InboundLaneData.default], List.isChain_nil, by simp [InboundLaneData.default],
      by simp [InboundLaneData.default], by simp [InboundLaneData.default, InboundLaneData.lastDeliveredNonce]⟩,
      by simp [InboundLaneData.default, InboundLaneData.lastDeliveredNonce, Lane.init, OutboundLaneData.default],
      by simp [InboundLaneData.default, Lane.init, OutboundLaneData.default]⟩

/-! ## One lemma per call -/

variable {c : InboundConfig} {s : Lane R P}

/-- Sending stores the next nonce; nothing the target has seen moves. -/
theorem Inv.send (hinv : Inv c s) (payload : P) :
    Inv c { s with
      source := (sendMessage s.source payload).1
      sourceHistory := (sendMessage s.source payload).1.data :: s.sourceHistory } := by
  have hgen := hinv.receivedLe
  have hold := hinv.oldest
  refine { hinv with
    receivedLe := ?_
    stored := ?_
    deliveredLe := ?_
    sourceHistory := ?_
    targetHistory := ?_ }
  · show s.source.data.latestReceivedNonce ≤ s.source.data.latestGeneratedNonce + 1
    omega
  · intro n
    show (Function.update s.source.messages (s.source.data.latestGeneratedNonce + 1) (some payload) n).isSome ↔
      s.source.data.oldestUnprunedNonce ≤ n ∧ n ≤ s.source.data.latestGeneratedNonce + 1
    by_cases hn : n = s.source.data.latestGeneratedNonce + 1
    · subst hn
      simp only [Function.update_self, Option.isSome_some, true_iff]
      omega
    · rw [Function.update_of_ne hn, hinv.stored n]
      omega
  · show s.target.lastDeliveredNonce ≤ s.source.data.latestGeneratedNonce + 1
    have := hinv.deliveredLe
    omega
  · intro o ho
    rcases List.mem_cons.mp ho with rfl | ho
    · exact le_refl _
    · exact hinv.sourceHistory o ho
  · intro d hd
    obtain ⟨hwf, hdel, hconf⟩ := hinv.targetHistory d hd
    exact ⟨hwf, Nat.le_succ_of_le hdel, hconf⟩

/-- A confirmation: the source received at most what the target delivered, and prunes exactly the nonces it
confirms. -/
theorem Inv.confirm (hinv : Inv c s) {d : InboundLaneData R} {l : OutboundLane P}
    (hl : receiveMessagesDeliveryProof s.source d (.ofLaneData d) = .ok l) :
    Inv c { s with source := l, sourceHistory := l.data :: s.sourceHistory } := by
  unfold receiveMessagesDeliveryProof at hl
  split at hl
  · cases hl
  split at hl
  · rename_i confirmed hconfirm
    cases hl
    rcases confirmDelivery_ok hconfirm with rfl | ⟨hlt, hle, rfl⟩
    · -- nothing confirmed
      refine { hinv with sourceHistory := ?_ }
      intro o ho
      rcases List.mem_cons.mp ho with rfl | ho
      · exact le_refl _
      · exact hinv.sourceHistory o ho
    · -- the nonces after the latest received one up to `d`'s last delivered one are confirmed
      have hold := hinv.oldest
      refine ⟨hle, rfl, ?_, hinv.target, hinv.deliveredLe, ?_, hinv.increasing, hinv.dispatchedLe, ?_, ?_⟩
      · intro n
        simp only [removeMessages]
        split
        · simp only [Option.isSome_none, Bool.false_eq_true, false_iff]
          omega
        · rw [hinv.stored n]
          omega
      · exact le_trans hinv.confirmedLe (le_of_lt hlt)
      · intro o ho
        rcases List.mem_cons.mp ho with rfl | ho
        · exact le_refl _
        · exact le_trans (hinv.sourceHistory o ho) (le_of_lt hlt)
      · intro d' hd'
        obtain ⟨hwf, hdel, hconf⟩ := hinv.targetHistory d' hd'
        exact ⟨hwf, hdel, le_trans hconf (le_of_lt hlt)⟩
  · cases hl

/-! ## Runs -/

variable [DecidableEq R]

/-- The calls that change a lane, with every proof an honest relayer can build. -/
inductive Step (c : InboundConfig) : Lane R P → Lane R P → Prop
  | send (s : Lane R P) (payload : P) :
    Step c s { s with
      source := (sendMessage s.source payload).1
      sourceHistory := (sendMessage s.source payload).1.data :: s.sourceHistory }
  | deliver (s : Lane R P) (relayer : R) (first count : Nat) (laneState : Option OutboundLaneData)
      (hfirst : 0 < first) (hlast : first + count ≤ s.source.data.latestGeneratedNonce + 1)
      (hstate : ∀ o ∈ laneState, o ∈ s.sourceHistory) :
    Step c s { s with
      target := (receiveMessagesProof c s.target relayer laneState (List.range' first count)).1
      dispatched := s.dispatched ++ (receiveMessagesProof c s.target relayer laneState (List.range' first count)).2
      targetHistory :=
        (receiveMessagesProof c s.target relayer laneState (List.range' first count)).1 :: s.targetHistory }
  | confirm (s : Lane R P) (d : InboundLaneData R) (l : OutboundLane P) (hd : d ∈ s.targetHistory)
      (hl : receiveMessagesDeliveryProof s.source d (.ofLaneData d) = .ok l) :
    Step c s { s with source := l, sourceHistory := l.data :: s.sourceHistory }

/-- The lanes reachable from a new one. -/
inductive Reachable (c : InboundConfig) : Lane R P → Prop
  | init : Reachable c .init
  | step {s s' : Lane R P} : Reachable c s → Step c s s' → Reachable c s'

/-- A delivery: the lane state it carries confirms at most what the source received, and the messages dispatched
are the next generated ones. -/
theorem Inv.deliver (hinv : Inv c s) (relayer : R) {first count : Nat} {laneState : Option OutboundLaneData}
    (hfirst : 0 < first) (hlast : first + count ≤ s.source.data.latestGeneratedNonce + 1)
    (hstate : ∀ o ∈ laneState, o ∈ s.sourceHistory) :
    Inv c { s with
      target := (receiveMessagesProof c s.target relayer laneState (List.range' first count)).1
      dispatched := s.dispatched ++ (receiveMessagesProof c s.target relayer laneState (List.range' first count)).2
      targetHistory :=
        (receiveMessagesProof c s.target relayer laneState (List.range' first count)).1 :: s.targetHistory } := by
  -- the lane state first: the same last delivered nonce, a confirmed nonce the source has received
  obtain ⟨d1, hproof, hwf1, hdel1, hconf1⟩ : ∃ d1 : InboundLaneData R,
      receiveMessagesProof c s.target relayer laneState (List.range' first count) =
        receiveMessages c relayer d1 (List.range' first count) ∧
      InboundWf c d1 ∧ d1.lastDeliveredNonce = s.target.lastDeliveredNonce ∧
      d1.lastConfirmedNonce ≤ s.source.data.latestReceivedNonce := by
    cases laneState with
    | none => exact ⟨s.target, rfl, hinv.target, rfl, hinv.confirmedLe⟩
    | some o =>
      refine ⟨(receiveStateUpdate s.target o).1, rfl, hinv.target.receiveStateUpdate o,
        lastDeliveredNonce_receiveStateUpdate s.target o, ?_⟩
      rcases receiveStateUpdate_cases s.target o with hd | ⟨-, -, hd⟩
      · rw [hd]
        exact hinv.confirmedLe
      · rw [hd]
        exact hinv.sourceHistory o (hstate o rfl)
  -- then the messages
  have hrec := receiveMessages_spec c relayer (List.range' first count) hwf1
  rw [hproof]
  set d2 := (receiveMessages c relayer d1 (List.range' first count)).1
  set ds := (receiveMessages c relayer d1 (List.range' first count)).2
  have hgen : ∀ n ∈ ds, 0 < n ∧ n ≤ s.source.data.latestGeneratedNonce := by
    intro n hn
    have := List.mem_range'_1.mp (hrec.next n hn).2.2
    omega
  have hdel2 : d2.lastDeliveredNonce ≤ s.source.data.latestGeneratedNonce := by
    rcases hrec.delivered with heq | hmem
    · rw [heq, hdel1]
      exact hinv.deliveredLe
    · exact (hgen _ hmem).2
  have hconf2 : d2.lastConfirmedNonce ≤ s.source.data.latestReceivedNonce := by
    rw [hrec.confirmed]
    exact hconf1
  refine { hinv with
    target := hrec.wf
    deliveredLe := hdel2
    confirmedLe := hconf2
    increasing := ?_
    dispatchedLe := ?_
    targetHistory := ?_ }
  · -- the new nonces come after every nonce dispatched before
    refine List.pairwise_append.mpr ⟨hinv.increasing, hrec.increasing, ?_⟩
    intro a ha b hb
    have := (hinv.dispatchedLe a ha).2
    have := (hrec.next b hb).1
    omega
  · intro n hn
    rcases List.mem_append.mp hn with hn | hn
    · have hold := hinv.dispatchedLe n hn
      have hle : s.target.lastDeliveredNonce ≤ d2.lastDeliveredNonce := hdel1 ▸ hrec.delivered_le
      exact ⟨hold.1, le_trans hold.2 hle⟩
    · exact ⟨(hgen n hn).1, (hrec.next n hn).2.1⟩
  · intro d hd
    rcases List.mem_cons.mp hd with rfl | hd
    · exact ⟨hrec.wf, hdel2, hconf2⟩
    · exact hinv.targetHistory d hd

theorem Inv.step {s s' : Lane R P} (hinv : Inv c s) (h : Step c s s') : Inv c s' := by
  cases h with
  | send payload => exact hinv.send payload
  | deliver relayer first count laneState hfirst hlast hstate => exact hinv.deliver relayer hfirst hlast hstate
  | confirm d l hd hl => exact hinv.confirm hl

theorem reachable_inv {s : Lane R P} (h : Reachable c s) : Inv c s := by
  induction h with
  | init => exact inv_init c
  | step _ hstep ih => exact ih.step hstep

/-! ## The lane over every interleaving -/

/-- Over every interleaving of sends, deliveries and confirmations with honest proofs of any age: the target dispatches
each generated nonce at most once, in increasing order, and keeps its relayer entries well formed; the source has
received at most what it generated, stores exactly the unconfirmed messages, and accepts a delivery proof of every lane
data the target had. -/
theorem lane_delivery_sound {c : InboundConfig} {s : Lane R P} (h : Reachable c s) :
    s.dispatched.Pairwise (· < ·) ∧
    (∀ n ∈ s.dispatched, 0 < n ∧ n ≤ s.source.data.latestGeneratedNonce) ∧
    InboundWf c s.target ∧
    s.source.data.latestReceivedNonce ≤ s.source.data.latestGeneratedNonce ∧
    (∀ n, (s.source.messages n).isSome ↔
      s.source.data.oldestUnprunedNonce ≤ n ∧ n ≤ s.source.data.latestGeneratedNonce) ∧
    ∀ d ∈ s.targetHistory, ∃ l, receiveMessagesDeliveryProof s.source d (.ofLaneData d) = .ok l := by
  have hinv := reachable_inv h
  refine ⟨hinv.increasing, ?_, hinv.target, hinv.receivedLe, hinv.stored, ?_⟩
  · intro n hn
    have hn' := hinv.dispatchedLe n hn
    exact ⟨hn'.1, le_trans hn'.2 hinv.deliveredLe⟩
  · intro d hd
    obtain ⟨hwf, hdel, hconf⟩ := hinv.targetHistory d hd
    exact receiveMessagesDeliveryProof_ok hwf hdel hconf

/-- Two messages sent, both delivered in one proof, and the delivery confirmed at the source. -/
theorem lane_delivery_sound_confirmed :
    ∃ s : Lane Nat Unit, Reachable ⟨2, 4⟩ s ∧ s.dispatched = [1, 2] ∧ s.source.data.latestReceivedNonce = 2 ∧
      s.dispatched.Pairwise (· < ·) ∧ (∀ n ∈ s.dispatched, 0 < n ∧ n ≤ s.source.data.latestGeneratedNonce) ∧
      ∀ d ∈ s.targetHistory, ∃ l, receiveMessagesDeliveryProof s.source d (.ofLaneData d) = .ok l := by
  have h₁ := Reachable.step (c := ⟨2, 4⟩) (Reachable.init (R := Nat)) (Step.send _ ())
  have h₂ := Reachable.step h₁ (Step.send _ ())
  have h₃ := Reachable.step h₂ (Step.deliver _ 7 1 2 none (by decide) (by decide) (by simp))
  have h₄ := Reachable.step h₃ (Step.confirm _ _ _ List.mem_cons_self rfl)
  obtain ⟨hinc, hgen, -, -, -, hproofs⟩ := lane_delivery_sound h₄
  exact ⟨_, h₄, rfl, rfl, hinc, hgen, hproofs⟩

end CoreChain.Bridge

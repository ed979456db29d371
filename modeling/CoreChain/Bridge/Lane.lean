import Mathlib

/-!
# The two ends of a bridge lane

The model of `bridges/modules/messages/src/outbound_lane.rs` and `inbound_lane.rs`, with the lane data of
`bridges/primitives/messages/src/lib.rs` and the two calls of the messages pallet that move data across
(`receive_messages_proof` and `receive_messages_delivery_proof` in `lib.rs`).

The source chain numbers the messages it sends and stores them until the target chain confirms their delivery. The
target chain dispatches messages strictly in nonce order and records who delivered them in `relayers`, a queue of
entries each covering a run of consecutive nonces; it forgets entries once the source chain's lane state shows it
has read them. The source chain reads the target's lane data through a delivery proof, checks its entries and prunes
the confirmed messages.

Nonces are `Nat`; the `u64` overflow of `checked_add` and `saturating_add` is left out. The lane state
(opened or closed) and the dispatch weight accounting are left out: a call that fails on them is reverted whole.
-/

namespace CoreChain.Bridge

/-- `DeliveredMessages`: the nonces `begin..=end`. -/
structure DeliveredMessages where
  begin : Nat
  «end» : Nat
  deriving DecidableEq, Repr

namespace DeliveredMessages

/-- `DeliveredMessages::new`. -/
def new (nonce : Nat) : DeliveredMessages :=
  ⟨nonce, nonce⟩

/-- `total_messages`, the saturating length of `begin..=end`. -/
def totalMessages (m : DeliveredMessages) : Nat :=
  m.end + 1 - m.begin

/-- `note_dispatched_message`. -/
def noteDispatchedMessage (m : DeliveredMessages) : DeliveredMessages :=
  { m with «end» := m.end + 1 }

end DeliveredMessages

/-- `UnrewardedRelayer`. -/
structure UnrewardedRelayer (R : Type) where
  relayer : R
  messages : DeliveredMessages
  deriving DecidableEq, Repr

/-- `InboundLaneData`, without the lane state. -/
structure InboundLaneData (R : Type) where
  relayers : List (UnrewardedRelayer R)
  lastConfirmedNonce : Nat
  deriving DecidableEq, Repr

namespace InboundLaneData

variable {R : Type}

/-- `InboundLaneData::default`. -/
def default : InboundLaneData R :=
  ⟨[], 0⟩

/-- `last_delivered_nonce`: the end of the last entry, or the last confirmed nonce. -/
def lastDeliveredNonce (d : InboundLaneData R) : Nat :=
  (d.relayers.getLast?.map (·.messages.end)).getD d.lastConfirmedNonce

/-- `total_unrewarded_messages`: the saturating length of the front entry's begin to the back entry's end. -/
def totalUnrewardedMessages (d : InboundLaneData R) : Nat :=
  match d.relayers.head?, d.relayers.getLast? with
  | some front, some back => back.messages.end + 1 - front.messages.begin
  | _, _ => 0

end InboundLaneData

/-- `OutboundLaneData`, without the lane state. -/
structure OutboundLaneData where
  oldestUnprunedNonce : Nat
  latestReceivedNonce : Nat
  latestGeneratedNonce : Nat
  deriving DecidableEq, Repr

/-- `OutboundLaneData::default`: nothing sent, and the pruning starts at nonce 1. -/
def OutboundLaneData.default : OutboundLaneData :=
  ⟨1, 0, 0⟩

/-- `UnrewardedRelayersState`. -/
structure UnrewardedRelayersState where
  unrewardedRelayerEntries : Nat
  messagesInOldestEntry : Nat
  totalMessages : Nat
  lastDeliveredNonce : Nat
  deriving DecidableEq, Repr

namespace UnrewardedRelayersState

variable {R : Type}

/-- `From<&InboundLaneData> for UnrewardedRelayersState`. -/
def ofLaneData (d : InboundLaneData R) : UnrewardedRelayersState :=
  ⟨d.relayers.length, (d.relayers.head?.map (·.messages.totalMessages)).getD 0, d.totalUnrewardedMessages,
    d.lastDeliveredNonce⟩

/-- `is_valid`: the state is the one computed from the lane data. -/
def isValid (s : UnrewardedRelayersState) (d : InboundLaneData R) : Bool :=
  s = ofLaneData d

end UnrewardedRelayersState

/-! ## The inbound lane -/

/-- `ReceptionResult`, with the dispatch result left out. -/
inductive ReceptionResult where
  | dispatched
  | invalidNonce
  | tooManyUnrewardedRelayers
  | tooManyUnconfirmedMessages
  deriving DecidableEq, Repr

/-- The two bounds of an inbound lane's storage. -/
structure InboundConfig where
  maxUnrewardedRelayerEntries : Nat
  maxUnconfirmedMessages : Nat
  deriving DecidableEq, Repr

variable {R : Type} [DecidableEq R]

/-- The front entry after a confirmation: its confirmed nonces are cut off. -/
def trimFront (newConfirmedNonce : Nat) : List (UnrewardedRelayer R) → List (UnrewardedRelayer R)
  | entry :: rest =>
    if entry.messages.begin ≤ newConfirmedNonce then
      { entry with messages := { entry.messages with begin := newConfirmedNonce + 1 } } :: rest
    else entry :: rest
  | [] => []

/-- `receive_state_update`: the source chain's lane state confirms the nonces up to its latest received one, and
the entries it confirms whole leave the queue. -/
def receiveStateUpdate (d : InboundLaneData R) (outboundLaneData : OutboundLaneData) :
    InboundLaneData R × Option Nat :=
  if d.lastDeliveredNonce < outboundLaneData.latestReceivedNonce then (d, none)
  else if outboundLaneData.latestReceivedNonce ≤ d.lastConfirmedNonce then (d, none)
  else
    let newConfirmedNonce := outboundLaneData.latestReceivedNonce
    -- the `pop_front` loop, then the update of the next entry
    let relayers := d.relayers.dropWhile fun entry => entry.messages.end ≤ newConfirmedNonce
    (⟨trimFront newConfirmedNonce relayers, newConfirmedNonce⟩, some newConfirmedNonce)

/-- The queue after a dispatch by `relayer`: the back entry grows when the relayer is the same, otherwise a new
entry starts at `nonce`. -/
def noteRelayer (relayers : List (UnrewardedRelayer R)) (relayer : R) (nonce : Nat) : List (UnrewardedRelayer R) :=
  match relayers.getLast? with
  | some entry =>
    if entry.relayer = relayer then
      relayers.dropLast ++ [{ entry with messages := entry.messages.noteDispatchedMessage }]
    else relayers ++ [⟨relayer, .new nonce⟩]
  | none => relayers ++ [⟨relayer, .new nonce⟩]

/-- `receive_message`. -/
def receiveMessage (c : InboundConfig) (d : InboundLaneData R) (relayer : R) (nonce : Nat) :
    InboundLaneData R × ReceptionResult :=
  if nonce ≠ d.lastDeliveredNonce + 1 then (d, .invalidNonce)
  else if c.maxUnrewardedRelayerEntries ≤ d.relayers.length then (d, .tooManyUnrewardedRelayers)
  else if c.maxUnconfirmedMessages < nonce - d.lastConfirmedNonce then (d, .tooManyUnconfirmedMessages)
  else (⟨noteRelayer d.relayers relayer nonce, d.lastConfirmedNonce⟩, .dispatched)

/-- The message loop of `receive_messages_proof`: the lane data, and the nonces dispatched, in order. -/
def receiveMessages (c : InboundConfig) (relayer : R) :
    InboundLaneData R → List Nat → InboundLaneData R × List Nat
  | d, [] => (d, [])
  | d, nonce :: nonces =>
    let (d, result) := receiveMessage c d relayer nonce
    let (d, dispatched) := receiveMessages c relayer d nonces
    (d, if result = .dispatched then nonce :: dispatched else dispatched)

/-- `receive_messages_proof` on the target chain, for a proof carrying the messages `nonces` and optionally the
source chain's lane data. -/
def receiveMessagesProof (c : InboundConfig) (d : InboundLaneData R) (relayer : R)
    (laneState : Option OutboundLaneData) (nonces : List Nat) : InboundLaneData R × List Nat :=
  let d := match laneState with
    | some outboundLaneData => (receiveStateUpdate d outboundLaneData).1
    | none => d
  receiveMessages c relayer d nonces

/-! ## The outbound lane -/

/-- `ReceptionConfirmationError`. -/
inductive ReceptionConfirmationError where
  | failedToConfirmFutureMessages
  | emptyUnrewardedRelayerEntry
  | nonConsecutiveUnrewardedRelayerEntries
  | tryingToConfirmMoreMessagesThanExpected
  deriving DecidableEq, Repr

/-- The outbound lane's storage: its data and the stored payloads by nonce. -/
structure OutboundLane (P : Type) where
  data : OutboundLaneData
  messages : Nat → Option P

/-- `send_message`: the next nonce. -/
def sendMessage {P : Type} (l : OutboundLane P) (payload : P) : OutboundLane P × Nat :=
  let nonce := l.data.latestGeneratedNonce + 1
  (⟨{ l.data with latestGeneratedNonce := nonce }, Function.update l.messages nonce (some payload)⟩, nonce)

/-- The loop of `ensure_unrewarded_relayers_are_correct`, with the begin the next entry must have. -/
def ensureEntries (latestReceivedNonce : Nat) :
    Option Nat → List (UnrewardedRelayer R) → Except ReceptionConfirmationError Unit
  | _, [] => .ok ()
  | expectedEntryBegin, entry :: rest =>
    if entry.messages.end < entry.messages.begin then .error .emptyUnrewardedRelayerEntry
    else if expectedEntryBegin ≠ some entry.messages.begin then .error .nonConsecutiveUnrewardedRelayerEntries
    else if latestReceivedNonce < entry.messages.end then .error .failedToConfirmFutureMessages
    else ensureEntries latestReceivedNonce (some (entry.messages.end + 1)) rest

/-- `ensure_unrewarded_relayers_are_correct`. -/
def ensureUnrewardedRelayersAreCorrect (latestReceivedNonce : Nat) (relayers : List (UnrewardedRelayer R)) :
    Except ReceptionConfirmationError Unit :=
  ensureEntries latestReceivedNonce (relayers.head?.map (·.messages.begin)) relayers

/-- The pruning loop of `confirm_delivery`: `remove_message` for every nonce of `begin..=end`. -/
def removeMessages {P : Type} (messages : Nat → Option P) (confirmed : DeliveredMessages) : Nat → Option P :=
  fun nonce => if confirmed.begin ≤ nonce ∧ nonce ≤ confirmed.end then none else messages nonce

/-- `confirm_delivery`. -/
def confirmDelivery {P : Type} (l : OutboundLane P) (maxAllowedMessages latestDeliveredNonce : Nat)
    (relayers : List (UnrewardedRelayer R)) :
    Except ReceptionConfirmationError (OutboundLane P × Option DeliveredMessages) :=
  let confirmed : DeliveredMessages := ⟨l.data.latestReceivedNonce + 1, latestDeliveredNonce⟩
  if confirmed.totalMessages = 0 then .ok (l, none)
  else if l.data.latestGeneratedNonce < confirmed.end then .error .failedToConfirmFutureMessages
  else if maxAllowedMessages < confirmed.totalMessages then .error .tryingToConfirmMoreMessagesThanExpected
  else
    match ensureUnrewardedRelayersAreCorrect confirmed.end relayers with
    | .error e => .error e
    | .ok () =>
      .ok (⟨{ l.data with latestReceivedNonce := confirmed.end, oldestUnprunedNonce := confirmed.end + 1 },
        removeMessages l.messages confirmed⟩, some confirmed)

/-- The errors of `receive_messages_delivery_proof` after the proof is verified. -/
inductive DeliveryProofError where
  | invalidUnrewardedRelayersState
  | receptionConfirmation (e : ReceptionConfirmationError)
  deriving DecidableEq, Repr

/-- `receive_messages_delivery_proof` on the source chain, for a proof of the target chain's lane data `d` and the
relayers state the relayer declares. -/
def receiveMessagesDeliveryProof {P : Type} (l : OutboundLane P) (d : InboundLaneData R)
    (relayersState : UnrewardedRelayersState) : Except DeliveryProofError (OutboundLane P) :=
  if !relayersState.isValid d then .error .invalidUnrewardedRelayersState
  else
    match confirmDelivery l relayersState.totalMessages d.lastDeliveredNonce d.relayers with
    | .ok (l, _) => .ok l
    | .error e => .error (.receptionConfirmation e)

end CoreChain.Bridge

import CoreChain.Bridge.Lane
import Mathlib

/-!
# The relayer entries of an inbound lane

`InboundWf` is what the target chain keeps of its queue of unrewarded relayer entries: every entry covers at least
one nonce, each starts right after the one before it, the front one starts right after the last confirmed nonce,
there are at most `max_unrewarded_relayer_entries` of them and at most `max_unconfirmed_messages` unconfirmed
nonces. Both calls that change the queue keep it:

- `InboundWf.receiveMessage`: a dispatch grows the back entry or starts a new one at the next nonce, and
  `receiveMessage_cases` says that a message is dispatched exactly when it carries the next nonce and fits;
- `InboundWf.receiveStateUpdate`: a confirmation drops the entries it covers and trims the next one, and leaves the
  last delivered nonce where it was (`lastDeliveredNonce_receiveStateUpdate`).

Over a whole proof of messages (`receiveMessages_spec`) the dispatched nonces are the next ones, in increasing
order, and each was carried by the proof.
-/

namespace CoreChain.Bridge

variable {R : Type}

/-- Two entries of the queue follow each other: the second starts right after the first ends. -/
def Follows (a b : UnrewardedRelayer R) : Prop :=
  b.messages.begin = a.messages.end + 1

/-- The relayer entries of an inbound lane, as `receive_message` and `receive_state_update` keep them. -/
structure InboundWf (c : InboundConfig) (d : InboundLaneData R) : Prop where
  nonempty : ∀ e ∈ d.relayers, e.messages.begin ≤ e.messages.end
  consecutive : d.relayers.IsChain Follows
  front : ∀ e ∈ d.relayers.head?, e.messages.begin = d.lastConfirmedNonce + 1
  entries : d.relayers.length ≤ c.maxUnrewardedRelayerEntries
  unconfirmed : d.lastDeliveredNonce - d.lastConfirmedNonce ≤ c.maxUnconfirmedMessages

/-! ## The last delivered nonce -/

namespace InboundLaneData

@[simp] theorem lastDeliveredNonce_nil (lastConfirmedNonce : Nat) :
    (⟨[], lastConfirmedNonce⟩ : InboundLaneData R).lastDeliveredNonce = lastConfirmedNonce := rfl

@[simp] theorem lastDeliveredNonce_concat (relayers : List (UnrewardedRelayer R)) (e : UnrewardedRelayer R)
    (lastConfirmedNonce : Nat) :
    (⟨relayers ++ [e], lastConfirmedNonce⟩ : InboundLaneData R).lastDeliveredNonce = e.messages.end := by
  simp [lastDeliveredNonce]

end InboundLaneData

/-- Along consecutive entries that are not empty the ends grow, so none ends after the last one. -/
theorem end_le_getLast :
    ∀ {l : List (UnrewardedRelayer R)} {last : UnrewardedRelayer R}, l.IsChain Follows →
      (∀ e ∈ l, e.messages.begin ≤ e.messages.end) → l.getLast? = some last →
      ∀ e ∈ l, e.messages.end ≤ last.messages.end
  | [], _, _, _, _, e, he => by cases he
  | [a], last, _, _, hlast, e, he => by
    simp only [List.getLast?_singleton, Option.some.injEq] at hlast
    simp only [List.mem_singleton] at he
    subst hlast he
    exact le_refl _
  | a :: b :: l, last, hchain, hne, hlast, e, he => by
    rw [List.isChain_cons_cons] at hchain
    have hnext : (b :: l).getLast? = some last := by
      rwa [List.getLast?_cons_cons] at hlast
    have hb := end_le_getLast hchain.2 (fun x hx => hne x (List.mem_cons_of_mem _ hx)) hnext
    rcases List.mem_cons.mp he with rfl | he
    · -- the first entry ends before the next one begins
      have hfollows : b.messages.begin = e.messages.end + 1 := hchain.1
      have hbne := hne b (by simp)
      have := hb b List.mem_cons_self
      omega
    · exact hb e he

namespace InboundWf

variable {c : InboundConfig} {d : InboundLaneData R}

theorem end_le_lastDelivered (hwf : InboundWf c d) : ∀ e ∈ d.relayers, e.messages.end ≤ d.lastDeliveredNonce := by
  intro e he
  obtain ⟨l', last, hl⟩ : ∃ l' last, d.relayers = l' ++ [last] := by
    rcases List.eq_nil_or_concat d.relayers with hnil | ⟨l', last, hl⟩
    · rw [hnil] at he
      cases he
    · exact ⟨l', last, by simpa using hl⟩
  have hlast : d.relayers.getLast? = some last := by
    rw [hl]
    exact List.getLast?_concat
  have hd : d.lastDeliveredNonce = last.messages.end := by
    simp [InboundLaneData.lastDeliveredNonce, hlast]
  rw [hd]
  exact end_le_getLast hwf.consecutive hwf.nonempty hlast e he

/-- With entries, the unconfirmed nonces are those from the front entry's begin to the last delivered one. -/
theorem totalUnrewardedMessages_eq (hwf : InboundWf c d) (hne : d.relayers ≠ []) :
    d.totalUnrewardedMessages = d.lastDeliveredNonce - d.lastConfirmedNonce := by
  obtain ⟨front, hfront⟩ := Option.ne_none_iff_exists'.mp (mt List.head?_eq_none_iff.mp hne)
  obtain ⟨back, hback⟩ := Option.ne_none_iff_exists'.mp (mt List.getLast?_eq_none_iff.mp hne)
  have hbegin := hwf.front front hfront
  simp only [InboundLaneData.totalUnrewardedMessages, hfront, hback, InboundLaneData.lastDeliveredNonce,
    Option.map_some, Option.getD_some]
  omega

end InboundWf

/-! ## A confirmation -/

/-- After dropping the entries a confirmation of `n` covers whole, the front entry starts at most one past `n` and
ends after it. -/
theorem head_dropWhile {n : Nat} :
    ∀ {l : List (UnrewardedRelayer R)}, l.IsChain Follows → (∀ e ∈ l.head?, e.messages.begin ≤ n + 1) →
      ∀ e ∈ (l.dropWhile fun entry => entry.messages.end ≤ n).head?, e.messages.begin ≤ n + 1 ∧ n < e.messages.end
  | [], _, _, e, he => by simp at he
  | a :: l, hchain, hhead, e, he => by
    by_cases ha : a.messages.end ≤ n
    · -- `a` is confirmed whole, and the next entry starts right after it
      rw [List.dropWhile_cons_of_pos (by simpa using ha)] at he
      rw [List.isChain_cons] at hchain
      apply head_dropWhile hchain.2 _ e he
      intro b hb
      have hfollows : b.messages.begin = a.messages.end + 1 := hchain.1 b hb
      omega
    · rw [List.dropWhile_cons_of_neg (by simpa using ha)] at he
      simp only [List.head?_cons, Option.mem_def, Option.some.injEq] at he
      subst he
      exact ⟨hhead a rfl, by omega⟩

theorem isChain_trimFront (n : Nat) {l : List (UnrewardedRelayer R)} (hchain : l.IsChain Follows) :
    (trimFront n l).IsChain Follows := by
  cases l with
  | nil => exact hchain
  | cons e rest =>
    -- only the front entry's begin moves, and `Follows` reads the end of the entry before
    rw [List.isChain_cons] at hchain
    simp only [trimFront]
    split
    · exact List.isChain_cons.mpr hchain
    · exact List.isChain_cons.mpr hchain

@[simp] theorem length_trimFront (n : Nat) (l : List (UnrewardedRelayer R)) :
    (trimFront n l).length = l.length := by
  cases l with
  | nil => rfl
  | cons e rest =>
    simp only [trimFront]
    split <;> rfl

theorem getLast?_map_end_trimFront (n : Nat) (l : List (UnrewardedRelayer R)) :
    (trimFront n l).getLast?.map (·.messages.end) = l.getLast?.map (·.messages.end) := by
  cases l with
  | nil => rfl
  | cons e rest =>
    simp only [trimFront]
    split
    · cases rest with
      | nil => rfl
      | cons a rest => simp only [List.getLast?_cons_cons]
    · rfl

/-- `receive_state_update` either changes nothing or confirms a nonce between the last confirmed and the last
delivered one, dropping and trimming the entries. -/
theorem receiveStateUpdate_cases (d : InboundLaneData R) (outboundLaneData : OutboundLaneData) :
    (receiveStateUpdate d outboundLaneData).1 = d ∨
    (d.lastConfirmedNonce < outboundLaneData.latestReceivedNonce ∧
      outboundLaneData.latestReceivedNonce ≤ d.lastDeliveredNonce ∧
      (receiveStateUpdate d outboundLaneData).1 =
        ⟨trimFront outboundLaneData.latestReceivedNonce
          (d.relayers.dropWhile fun entry => entry.messages.end ≤ outboundLaneData.latestReceivedNonce),
          outboundLaneData.latestReceivedNonce⟩) := by
  unfold receiveStateUpdate
  split
  · exact .inl rfl
  · split
    · exact .inl rfl
    · right
      refine ⟨?_, ?_, rfl⟩ <;> omega

/-- A confirmation leaves the last delivered nonce: the entries it drops end at or before the confirmed nonce, which
is delivered. -/
theorem lastDeliveredNonce_receiveStateUpdate (d : InboundLaneData R) (outboundLaneData : OutboundLaneData) :
    (receiveStateUpdate d outboundLaneData).1.lastDeliveredNonce = d.lastDeliveredNonce := by
  rcases receiveStateUpdate_cases d outboundLaneData with hd | ⟨hlo, hhi, hd⟩
  · rw [hd]
  rw [hd]
  set n := outboundLaneData.latestReceivedNonce
  set rest := d.relayers.dropWhile fun entry => entry.messages.end ≤ n
  have hlast : (⟨trimFront n rest, n⟩ : InboundLaneData R).lastDeliveredNonce = (rest.getLast?.map (·.messages.end)).getD n := by
    simp only [InboundLaneData.lastDeliveredNonce, getLast?_map_end_trimFront]
  rw [hlast]
  cases hrest : rest.getLast? with
  | none =>
    -- every entry was dropped, so the confirmed nonce is the last delivered one
    have hall : ∀ x ∈ d.relayers, x.messages.end ≤ n := by
      intro x hx
      simpa using List.dropWhile_eq_nil_iff.mp (List.getLast?_eq_none_iff.mp hrest) x hx
    cases hback : d.relayers.getLast? with
    | none =>
      have hnil : d.lastDeliveredNonce = d.lastConfirmedNonce := by
        simp [InboundLaneData.lastDeliveredNonce, hback]
      omega
    | some back =>
      have hd' : d.lastDeliveredNonce = back.messages.end := by
        simp [InboundLaneData.lastDeliveredNonce, hback]
      have := hall back (List.mem_of_getLast? hback)
      simp only [Option.map_none, Option.getD_none]
      omega
  | some back =>
    -- what is left is a suffix of the queue, with the same back entry
    obtain ⟨t, ht⟩ := List.dropWhile_suffix (l := d.relayers) (fun entry => entry.messages.end ≤ n)
    have hback : d.relayers.getLast? = some back := by
      rw [← ht, List.getLast?_append, hrest]
      rfl
    simp [InboundLaneData.lastDeliveredNonce, hback]

theorem InboundWf.receiveStateUpdate {c : InboundConfig} {d : InboundLaneData R} (hwf : InboundWf c d)
    (outboundLaneData : OutboundLaneData) : InboundWf c (receiveStateUpdate d outboundLaneData).1 := by
  have hdelivered := lastDeliveredNonce_receiveStateUpdate d outboundLaneData
  rcases receiveStateUpdate_cases d outboundLaneData with hd | ⟨hlo, hhi, hd⟩
  · rw [hd]
    exact hwf
  set n := outboundLaneData.latestReceivedNonce
  set rest := d.relayers.dropWhile fun entry => entry.messages.end ≤ n
  have hsuffix : rest <:+ d.relayers := List.dropWhile_suffix _
  have hhead : ∀ e ∈ rest.head?, e.messages.begin ≤ n + 1 ∧ n < e.messages.end := by
    apply head_dropWhile hwf.consecutive
    intro e he
    have := hwf.front e he
    omega
  rw [hd] at hdelivered ⊢
  refine ⟨?_, ?_, ?_, ?_, ?_⟩
  · -- the trimmed front entry still ends after `n`
    intro x hx
    cases hrest : rest with
    | nil => simp [hrest, trimFront] at hx
    | cons e tail =>
      have he := hhead e (by simp [hrest])
      simp only [hrest, trimFront] at hx
      split at hx
      · rcases List.mem_cons.mp hx with rfl | hx
        · simp only
          omega
        · exact hwf.nonempty x (hsuffix.subset (by simp [hrest, hx]))
      · exact hwf.nonempty x (hsuffix.subset (by simpa [hrest] using hx))
  · exact isChain_trimFront n (hwf.consecutive.suffix hsuffix)
  · -- the front entry starts right after `n`: trimmed to it, or already there
    intro x hx
    cases hrest : rest with
    | nil => simp [hrest, trimFront] at hx
    | cons e tail =>
      have he := hhead e (by simp [hrest])
      simp only [hrest, trimFront] at hx
      split at hx
      · simp only [List.head?_cons, Option.mem_def, Option.some.injEq] at hx
        subst hx
        rfl
      · simp only [List.head?_cons, Option.mem_def, Option.some.injEq] at hx
        subst hx
        show e.messages.begin = n + 1
        omega
  · simp only [length_trimFront]
    exact le_trans hsuffix.length_le hwf.entries
  · rw [hdelivered]
    have := hwf.unconfirmed
    show d.lastDeliveredNonce - n ≤ c.maxUnconfirmedMessages
    omega

/-! ## A dispatch -/

variable [DecidableEq R]

/-- The back entry grows, or a new entry for `relayer` starts at `nonce`. -/
theorem noteRelayer_cases (relayers : List (UnrewardedRelayer R)) (relayer : R) (nonce : Nat) :
    (∃ l' e, relayers = l' ++ [e] ∧
      noteRelayer relayers relayer nonce = l' ++ [{ e with messages := e.messages.noteDispatchedMessage }]) ∨
    noteRelayer relayers relayer nonce = relayers ++ [⟨relayer, .new nonce⟩] := by
  rcases List.eq_nil_or_concat relayers with rfl | ⟨l', e, rfl⟩
  · right
    rfl
  · rw [List.concat_eq_append]
    by_cases he : e.relayer = relayer
    · left
      exact ⟨l', e, rfl, by simp [noteRelayer, he]⟩
    · right
      simp [noteRelayer, he]

/-- `receive_message` dispatches exactly a message with the next nonce that fits both bounds, and then writes
the queue with the relayer noted; otherwise it changes nothing. -/
theorem receiveMessage_cases (c : InboundConfig) (d : InboundLaneData R) (relayer : R) (nonce : Nat) :
    ((receiveMessage c d relayer nonce).2 ≠ .dispatched ∧ (receiveMessage c d relayer nonce).1 = d) ∨
    ((receiveMessage c d relayer nonce).2 = .dispatched ∧ nonce = d.lastDeliveredNonce + 1 ∧
      d.relayers.length < c.maxUnrewardedRelayerEntries ∧ nonce - d.lastConfirmedNonce ≤ c.maxUnconfirmedMessages ∧
      (receiveMessage c d relayer nonce).1 = ⟨noteRelayer d.relayers relayer nonce, d.lastConfirmedNonce⟩) := by
  unfold receiveMessage
  split
  · exact .inl ⟨by simp, rfl⟩
  · split
    · exact .inl ⟨by simp, rfl⟩
    · split
      · exact .inl ⟨by simp, rfl⟩
      · right
        refine ⟨rfl, ?_, ?_, ?_, rfl⟩ <;> omega

theorem lastDeliveredNonce_noteRelayer {d : InboundLaneData R} (relayer : R) {nonce : Nat}
    (hnonce : nonce = d.lastDeliveredNonce + 1) :
    (⟨noteRelayer d.relayers relayer nonce, d.lastConfirmedNonce⟩ : InboundLaneData R).lastDeliveredNonce = nonce := by
  rcases noteRelayer_cases d.relayers relayer nonce with ⟨l', e, hl, hnote⟩ | hnote
  · have hd : d.lastDeliveredNonce = e.messages.end := by
      rw [show d = ⟨l' ++ [e], d.lastConfirmedNonce⟩ from by rw [← hl]]
      simp
    rw [hnote, InboundLaneData.lastDeliveredNonce_concat]
    simp [DeliveredMessages.noteDispatchedMessage, hnonce, hd]
  · rw [hnote, InboundLaneData.lastDeliveredNonce_concat]
    rfl

theorem InboundWf.receiveMessage {c : InboundConfig} {d : InboundLaneData R} (hwf : InboundWf c d) (relayer : R)
    (nonce : Nat) : InboundWf c (receiveMessage c d relayer nonce).1 := by
  rcases receiveMessage_cases c d relayer nonce with ⟨-, hd⟩ | ⟨-, hnonce, hlen, hunc, hd⟩
  · rw [hd]
    exact hwf
  rw [hd]
  have hlast := lastDeliveredNonce_noteRelayer relayer hnonce
  rcases noteRelayer_cases d.relayers relayer nonce with ⟨l', e, hl, hnote⟩ | hnote
  · -- the back entry `e` grows by one nonce
    have hchain : (l' ++ [e]).IsChain Follows := hl ▸ hwf.consecutive
    have hne : ∀ x ∈ l' ++ [e], x.messages.begin ≤ x.messages.end := hl ▸ hwf.nonempty
    have hfront : ∀ x ∈ (l' ++ [e]).head?, x.messages.begin = d.lastConfirmedNonce + 1 := hl ▸ hwf.front
    have hlen' : (l' ++ [e]).length ≤ c.maxUnrewardedRelayerEntries := hl ▸ hwf.entries
    rw [List.isChain_append] at hchain
    refine ⟨?_, ?_, ?_, ?_, ?_⟩
    · intro x hx
      rw [hnote] at hx
      rcases List.mem_append.mp hx with hx | hx
      · exact hne x (List.mem_append_left _ hx)
      · simp only [List.mem_singleton] at hx
        subst hx
        have := hne e (by simp)
        simp only [DeliveredMessages.noteDispatchedMessage]
        omega
    · rw [hnote, List.isChain_append]
      refine ⟨hchain.1, List.isChain_singleton _, ?_⟩
      intro x hx y hy
      simp only [List.head?_cons, Option.mem_def, Option.some.injEq] at hy
      subst hy
      exact hchain.2.2 x hx e rfl
    · intro x hx
      rw [hnote] at hx
      cases l' with
      | nil =>
        simp only [List.nil_append, List.head?_cons, Option.mem_def, Option.some.injEq] at hx
        subst hx
        exact hfront e (by simp)
      | cons a l' => exact hfront x (by simpa using hx)
    · simpa [hnote] using hlen'
    · rw [hlast]
      exact hunc
  · -- a new entry starts at `nonce`, right after the back entry
    refine ⟨?_, ?_, ?_, ?_, ?_⟩
    · intro x hx
      rw [hnote] at hx
      rcases List.mem_append.mp hx with hx | hx
      · exact hwf.nonempty x hx
      · simp only [List.mem_singleton] at hx
        subst hx
        exact le_refl _
    · rw [hnote, List.isChain_append]
      refine ⟨hwf.consecutive, List.isChain_singleton _, ?_⟩
      intro x hx y hy
      simp only [List.head?_cons, Option.mem_def, Option.some.injEq] at hy
      subst hy
      have hd : d.lastDeliveredNonce = x.messages.end := by
        simp [InboundLaneData.lastDeliveredNonce, Option.mem_def.mp hx]
      show nonce = x.messages.end + 1
      omega
    · intro x hx
      rw [hnote] at hx
      cases hrel : d.relayers with
      | nil =>
        rw [hrel] at hx
        simp only [List.nil_append, List.head?_cons, Option.mem_def, Option.some.injEq] at hx
        subst hx
        have hd : d.lastDeliveredNonce = d.lastConfirmedNonce := by
          simp [InboundLaneData.lastDeliveredNonce, hrel]
        show nonce = d.lastConfirmedNonce + 1
        omega
      | cons a l =>
        rw [hrel] at hx
        exact hwf.front x (by rw [hrel]; simpa using hx)
    · simp only [hnote, List.length_append, List.length_singleton]
      omega
    · rw [hlast]
      exact hunc

/-! ## A proof of messages -/

/-- What the message loop of a delivery does, from `d` to `d'` dispatching `ds`: the queue stays well formed, the
confirmed nonce stays, and `ds` are the nonces after the last delivered one, increasing, each carried by the proof. -/
structure Received (c : InboundConfig) (d d' : InboundLaneData R) (nonces ds : List Nat) : Prop where
  wf : InboundWf c d'
  confirmed : d'.lastConfirmedNonce = d.lastConfirmedNonce
  delivered : d'.lastDeliveredNonce = d.lastDeliveredNonce ∨ d'.lastDeliveredNonce ∈ ds
  increasing : ds.Pairwise (· < ·)
  next : ∀ n ∈ ds, d.lastDeliveredNonce < n ∧ n ≤ d'.lastDeliveredNonce ∧ n ∈ nonces

omit [DecidableEq R] in
theorem Received.delivered_le {c : InboundConfig} {d d' : InboundLaneData R} {nonces ds : List Nat}
    (h : Received c d d' nonces ds) : d.lastDeliveredNonce ≤ d'.lastDeliveredNonce := by
  rcases h.delivered with heq | hmem
  · rw [heq]
  · exact le_of_lt (h.next _ hmem).1

/-- The message loop, by induction over the carried nonces: a dispatched nonce is the next one, so it is below
every nonce dispatched after it. -/
theorem receiveMessages_spec (c : InboundConfig) (relayer : R) :
    ∀ (nonces : List Nat) {d : InboundLaneData R}, InboundWf c d →
      Received c d (receiveMessages c relayer d nonces).1 nonces (receiveMessages c relayer d nonces).2
  | [], d, hwf => ⟨hwf, rfl, .inl rfl, List.Pairwise.nil, by simp [receiveMessages]⟩
  | nonce :: nonces, d, hwf => by
    have ih := receiveMessages_spec c relayer nonces (hwf.receiveMessage relayer nonce)
    set d1 := (receiveMessage c d relayer nonce).1
    set d2 := (receiveMessages c relayer d1 nonces).1
    set ds := (receiveMessages c relayer d1 nonces).2
    have hstep : receiveMessages c relayer d (nonce :: nonces) =
        (d2, if (receiveMessage c d relayer nonce).2 = .dispatched then nonce :: ds else ds) := rfl
    rw [hstep]
    have hle := ih.delivered_le
    rcases receiveMessage_cases c d relayer nonce with ⟨hres, hd1⟩ | ⟨hres, hnonce, -, -, hd1⟩
    · -- rejected: the lane data is unchanged and nothing is dispatched
      rw [if_neg hres]
      have hd1' : d1 = d := hd1
      rw [hd1'] at ih
      exact ⟨ih.wf, ih.confirmed, ih.delivered, ih.increasing,
        fun n hn => ⟨(ih.next n hn).1, (ih.next n hn).2.1, List.mem_cons_of_mem _ (ih.next n hn).2.2⟩⟩
    · -- dispatched: `nonce` is the next one and becomes the last delivered nonce
      rw [if_pos hres]
      dsimp only
      have hd1' : d1.lastDeliveredNonce = nonce := by
        show (receiveMessage c d relayer nonce).1.lastDeliveredNonce = nonce
        rw [hd1]
        exact lastDeliveredNonce_noteRelayer relayer hnonce
      have hc1 : d1.lastConfirmedNonce = d.lastConfirmedNonce := by
        show (receiveMessage c d relayer nonce).1.lastConfirmedNonce = d.lastConfirmedNonce
        rw [hd1]
      refine ⟨ih.wf, ih.confirmed.trans hc1, ?_, ?_, ?_⟩
      · rcases ih.delivered with heq | hmem
        · exact .inr (by rw [heq, hd1']; exact List.mem_cons_self)
        · exact .inr (List.mem_cons_of_mem _ hmem)
      · refine List.Pairwise.cons ?_ ih.increasing
        intro n hn
        have := (ih.next n hn).1
        omega
      · intro n hn
        rcases List.mem_cons.mp hn with rfl | hn
        · refine ⟨by omega, by omega, List.mem_cons_self⟩
        · have := ih.next n hn
          refine ⟨by omega, this.2.1, List.mem_cons_of_mem _ this.2.2⟩

end CoreChain.Bridge

import CoreChain.Lib.SortedMap
import CoreChain.Lib.Word
import CoreChain.Lib.Machine
import Mathlib

/-!
# The bandwidth of the unincluded segment

`SegmentTracker` (`cumulus/pallets/parachain-system/src/unincluded_segment.rs`) keeps the bandwidth used by the
blocks of a parachain that the relay chain has not included yet: UMP messages and bytes and, for each HRMP channel,
its messages and bytes. `on_finalize` appends each new block under the limits of the relay chain, and
`on_initialize` subtracts the blocks the relay chain has included, oldest first. `Segment` is the tracker with the
ancestors it counts, and `Segment.call` one of the two calls.

Appending adds with `saturating_add` and checks the sums against the limits; subtracting takes off with `-=` and
drops the channels that come to nothing with `retain`. The tracker counts its live ancestors exactly
(`Segment.Exact`) when every append keeps its limits below `u32::MAX` and names only channels with an update, as
`on_finalize` builds them (`Ancestor.Fits`): each call keeps the count (`Segment.Exact.call`), so along a run no
subtraction underflows or misses its channel (`segment_tracks_exactly`).

Each of those conditions is needed (`segment_breaks_without_fit`): a sum that saturates under a limit of
`u32::MAX` is kept short, and a later subtraction underflows; a channel named with an empty update is dropped by
the `retain` of an older block's subtraction, and its own subtraction misses it; and the limits of an append are
checked on the channels it names only, so the channels of older blocks may exceed them.

The `expect` on the limits of a channel, a `-=` that underflows (a panic of a debug build), the `expect` on an
entry in `subtract` and its `assert_eq!` are `none`.
-/

namespace CoreChain.Parachain

open Word

/-- `u32`. -/
abbrev U32 := Fin (2 ^ 32)

/-- `relay_chain::BlockNumber`. -/
abbrev BlockNumber := Nat

/-- `relay_chain::UpgradeGoAhead`. -/
inductive UpgradeGoAhead where
  | abort
  | goAhead
  deriving DecidableEq, Repr

/-- `HrmpOutboundLimits`. -/
structure HrmpOutboundLimits where
  bytesRemaining : U32
  messagesRemaining : U32
  deriving DecidableEq, Repr

variable {P : Type} [LinearOrder P]

/-- `OutboundBandwidthLimits`, with recipients `P`. -/
structure OutboundBandwidthLimits (P : Type) [LinearOrder P] where
  umpMessagesRemaining : U32
  umpBytesRemaining : U32
  hrmpOutgoing : SortedMap P HrmpOutboundLimits

/-- `BandwidthUpdateError`. -/
inductive BandwidthUpdateError (P : Type) where
  | hrmpMessagesOverflow (recipient : P) (messagesRemaining messagesSubmitted : U32)
  | hrmpBytesOverflow (recipient : P) (bytesRemaining bytesSubmitted : U32)
  | umpMessagesOverflow (messagesRemaining messagesSubmitted : U32)
  | umpBytesOverflow (bytesRemaining bytesSubmitted : U32)
  | invalidHrmpWatermark (submitted latest : BlockNumber)
  | upgradeGoAheadAlreadyProcessed
  deriving DecidableEq, Repr

/-- `HrmpChannelUpdate`. -/
structure HrmpChannelUpdate where
  msgCount : U32 := 0
  totalBytes : U32 := 0
  deriving DecidableEq, Repr

namespace HrmpChannelUpdate

/-- `HrmpChannelUpdate::is_empty`. -/
def isEmpty (self : HrmpChannelUpdate) : Bool :=
  self.msgCount = 0 && self.totalBytes = 0

/-- `HrmpChannelUpdate::append`; `none` is the `expect` on the limits of the channel. -/
def append (self other : HrmpChannelUpdate) (recipient : P) (limits : OutboundBandwidthLimits P) :
    Option (Except (BandwidthUpdateError P) HrmpChannelUpdate) :=
  match limits.hrmpOutgoing.get? recipient with
  | none => none
  | some limits =>
    let msgCount := saturatingAdd self.msgCount other.msgCount
    if msgCount > limits.messagesRemaining then
      some (.error (.hrmpMessagesOverflow recipient limits.messagesRemaining msgCount))
    else
      let totalBytes := saturatingAdd self.totalBytes other.totalBytes
      if totalBytes > limits.bytesRemaining then
        some (.error (.hrmpBytesOverflow recipient limits.bytesRemaining totalBytes))
      else some (.ok { msgCount, totalBytes })

/-- `HrmpChannelUpdate::subtract`. -/
def subtract (self other : HrmpChannelUpdate) : Option HrmpChannelUpdate := do
  let msgCount ← checkedSub self.msgCount other.msgCount
  let totalBytes ← checkedSub self.totalBytes other.totalBytes
  pure { msgCount, totalBytes }

end HrmpChannelUpdate

/-- `UsedBandwidth`. -/
structure UsedBandwidth (P : Type) [LinearOrder P] where
  umpMsgCount : U32 := 0
  umpTotalBytes : U32 := 0
  hrmpOutgoing : SortedMap P HrmpChannelUpdate := .empty

namespace UsedBandwidth

/-- The loop of `UsedBandwidth::append` over the channels of `other`, in their order: the entry of each, or a
default one, takes its update, and the first error ends the loop. -/
def appendChannels (limits : OutboundBandwidthLimits P) :
    List (P × HrmpChannelUpdate) → SortedMap P HrmpChannelUpdate →
      Option (Except (BandwidthUpdateError P) (SortedMap P HrmpChannelUpdate))
  | [], hrmpOutgoing => some (.ok hrmpOutgoing)
  | (id, channel) :: rest, hrmpOutgoing =>
    let current := (hrmpOutgoing.get? id).getD {}
    match current.append channel id limits with
    | none => none
    | some (.error e) => some (.error e)
    | some (.ok current) => appendChannels limits rest (hrmpOutgoing.insert id current)

/-- `UsedBandwidth::append`. -/
def append (self other : UsedBandwidth P) (limits : OutboundBandwidthLimits P) :
    Option (Except (BandwidthUpdateError P) (UsedBandwidth P)) :=
  let umpMsgCount := saturatingAdd self.umpMsgCount other.umpMsgCount
  if umpMsgCount > limits.umpMessagesRemaining then
    some (.error (.umpMessagesOverflow limits.umpMessagesRemaining umpMsgCount))
  else
    let umpTotalBytes := saturatingAdd self.umpTotalBytes other.umpTotalBytes
    if umpTotalBytes > limits.umpBytesRemaining then
      some (.error (.umpBytesOverflow limits.umpBytesRemaining umpTotalBytes))
    else
      match appendChannels limits other.hrmpOutgoing.entries self.hrmpOutgoing with
      | none => none
      | some (.error e) => some (.error e)
      | some (.ok hrmpOutgoing) => some (.ok { umpMsgCount, umpTotalBytes, hrmpOutgoing })

/-- The loop of `UsedBandwidth::subtract` over the channels of `other`; `none` is its `expect` on the entry. -/
def subtractChannels :
    List (P × HrmpChannelUpdate) → SortedMap P HrmpChannelUpdate → Option (SortedMap P HrmpChannelUpdate)
  | [], hrmpOutgoing => some hrmpOutgoing
  | (id, channel) :: rest, hrmpOutgoing => do
    let entry ← hrmpOutgoing.get? id
    let entry ← entry.subtract channel
    subtractChannels rest (hrmpOutgoing.insert id entry)

/-- `UsedBandwidth::subtract`. -/
def subtract (self other : UsedBandwidth P) : Option (UsedBandwidth P) := do
  let umpMsgCount ← checkedSub self.umpMsgCount other.umpMsgCount
  let umpTotalBytes ← checkedSub self.umpTotalBytes other.umpTotalBytes
  let hrmpOutgoing ← subtractChannels other.hrmpOutgoing.entries self.hrmpOutgoing
  pure { umpMsgCount, umpTotalBytes, hrmpOutgoing := hrmpOutgoing.retain fun _ channel => !channel.isEmpty }

end UsedBandwidth

/-- `Ancestor`, without its `para_head_hash`, which neither call reads. -/
structure Ancestor (P : Type) [LinearOrder P] where
  usedBandwidth : UsedBandwidth P
  consumedGoAheadSignal : Option UpgradeGoAhead

/-- `HrmpWatermarkUpdate`. -/
inductive HrmpWatermarkUpdate where
  | head (watermark : BlockNumber)
  | trunk (watermark : BlockNumber)
  deriving DecidableEq, Repr

/-- The watermark of an update of either kind. -/
def HrmpWatermarkUpdate.value : HrmpWatermarkUpdate → BlockNumber
  | .head w => w
  | .trunk w => w

/-- `SegmentTracker`. -/
structure SegmentTracker (P : Type) [LinearOrder P] where
  usedBandwidth : UsedBandwidth P := {}
  hrmpWatermark : Option BlockNumber := none
  consumedGoAheadSignal : Option UpgradeGoAhead := none

namespace SegmentTracker

/-- The end of `SegmentTracker::append`, once the signal and the watermark are accepted: the bandwidth is written
only when it is appended without error. -/
def appendBandwidth (self : SegmentTracker P) (block : Ancestor P) (newWatermark : HrmpWatermarkUpdate)
    (limits : OutboundBandwidthLimits P) : Option (Except (BandwidthUpdateError P) Unit × SegmentTracker P) :=
  match self.usedBandwidth.append block.usedBandwidth limits with
  | none => none
  | some (.error e) => some (.error e, self)
  | some (.ok usedBandwidth) =>
    some (.ok (),
      { usedBandwidth
        consumedGoAheadSignal := block.consumedGoAheadSignal.or self.consumedGoAheadSignal
        hrmpWatermark := some newWatermark.value })

/-- `SegmentTracker::append`: its result, and the tracker it leaves. -/
def append (self : SegmentTracker P) (block : Ancestor P) (newWatermark : HrmpWatermarkUpdate)
    (limits : OutboundBandwidthLimits P) : Option (Except (BandwidthUpdateError P) Unit × SegmentTracker P) :=
  if self.consumedGoAheadSignal.isSome && block.consumedGoAheadSignal.isSome then
    some (.error .upgradeGoAheadAlreadyProcessed, self)
  else
    match self.hrmpWatermark, newWatermark with
    | some watermark, .trunk new =>
      if new ≤ watermark then some (.error (.invalidHrmpWatermark new watermark), self)
      else self.appendBandwidth block newWatermark limits
    | _, _ => self.appendBandwidth block newWatermark limits

/-- `SegmentTracker::subtract`. -/
def subtract (self : SegmentTracker P) (block : Ancestor P) : Option (SegmentTracker P) := do
  let usedBandwidth ← self.usedBandwidth.subtract block.usedBandwidth
  match block.consumedGoAheadSignal with
  | some consumed =>
    -- the signal taken from the tracker must be the block's
    if self.consumedGoAheadSignal = some consumed then
      some { self with usedBandwidth, consumedGoAheadSignal := none }
    else none
  | none => some { self with usedBandwidth }

end SegmentTracker

/-- A call on the segment: `on_finalize` appends a block; `on_initialize` subtracts the oldest one once the relay
chain has included it. -/
inductive SegmentCall (P : Type) [LinearOrder P] where
  | append (block : Ancestor P) (newWatermark : HrmpWatermarkUpdate) (limits : OutboundBandwidthLimits P)
  | subtract

/-- The tracker and the ancestors it counts, oldest first: `AggregatedUnincludedSegment` and
`UnincludedSegment`. -/
structure Segment (P : Type) [LinearOrder P] where
  tracker : SegmentTracker P
  ancestors : List (Ancestor P)

namespace Segment

/-- The segment before any block. -/
def empty : Segment P :=
  ⟨{}, []⟩

/-- One call; a block joins the ancestors when the tracker takes it. -/
def call (seg : Segment P) : SegmentCall P → Option (Segment P)
  | .append block newWatermark limits =>
    match seg.tracker.append block newWatermark limits with
    | none => none
    | some (.ok (), tracker) => some ⟨tracker, seg.ancestors ++ [block]⟩
    | some (.error _, tracker) => some ⟨tracker, seg.ancestors⟩
  | .subtract =>
    match seg.ancestors with
    | [] => some seg
    | oldest :: rest => (seg.tracker.subtract oldest).map fun tracker => ⟨tracker, rest⟩

/-- A run of calls from the empty segment; `none` where one panics. -/
def run (calls : List (SegmentCall P)) : Option (Segment P) :=
  calls.foldlM call empty

end Segment

/-! ## Appending -/

/-- A saturating sum within a limit below `MAX` is the exact sum. -/
theorem val_saturatingAdd_of_le {a b l : U32} (h : saturatingAdd a b ≤ l) (hl : l < Word.max 32) :
    (saturatingAdd a b).val = a.val + b.val := by
  have h₁ : (saturatingAdd a b).val ≤ l.val := h
  have h₂ : l.val < 2 ^ 32 - 1 := hl
  rw [val_saturatingAdd] at h₁ ⊢
  omega

/-- The update of channel `k` in a map of updates; empty where the map has none. -/
def counts (m : SortedMap P HrmpChannelUpdate) (k : P) : HrmpChannelUpdate :=
  (m.get? k).getD {}

namespace HrmpChannelUpdate

theorem append_eq_ok {c channel r : HrmpChannelUpdate} {id : P} {limits : OutboundBandwidthLimits P}
    (h : c.append channel id limits = some (.ok r)) :
    ∃ l, limits.hrmpOutgoing.get? id = some l ∧
      r = ⟨saturatingAdd c.msgCount channel.msgCount, saturatingAdd c.totalBytes channel.totalBytes⟩ ∧
      r.msgCount ≤ l.messagesRemaining ∧ r.totalBytes ≤ l.bytesRemaining := by
  unfold append at h
  cases hl : limits.hrmpOutgoing.get? id with
  | none => simp [hl] at h
  | some l =>
    simp only [hl] at h
    split_ifs at h with hmsg hbytes
    · cases h
    · cases h
    · cases h
      exact ⟨l, rfl, rfl, not_lt.mp hmsg, not_lt.mp hbytes⟩

theorem append_ne_none {c channel : HrmpChannelUpdate} {id : P} {limits : OutboundBandwidthLimits P}
    (h : (limits.hrmpOutgoing.get? id).isSome) : c.append channel id limits ≠ none := by
  obtain ⟨l, hl⟩ := Option.isSome_iff_exists.mp h
  unfold append
  simp only [hl]
  split_ifs <;> simp

end HrmpChannelUpdate

namespace UsedBandwidth

/-- The channel loop of an append that succeeds: a channel it names holds the update appended to what it held, any
other what it held. -/
theorem appendChannels_spec {limits : OutboundBandwidthLimits P} :
    ∀ {l : List (P × HrmpChannelUpdate)} {m m' : SortedMap P HrmpChannelUpdate}, KeysSorted l →
      appendChannels limits l m = some (.ok m') → ∀ k,
        (∀ channel, l.lookup k = some channel →
          ∃ r, (counts m k).append channel k limits = some (.ok r) ∧ m'.get? k = some r) ∧
        (l.lookup k = none → m'.get? k = m.get? k)
  | [], m, m', _, h, k => by
    cases h
    exact ⟨fun _ hk => (by simp at hk), fun _ => rfl⟩
  | (id, channel) :: rest, m, m', hl, h, k => by
    unfold appendChannels at h
    cases hc : (counts m id).append channel id limits with
    | none => simp only [counts] at hc; simp [hc] at h
    | some r =>
      cases r with
      | error e => simp only [counts] at hc; simp [hc] at h
      | ok r =>
        simp only [counts] at hc
        simp only [hc] at h
        have ih := appendChannels_spec hl.of_cons h
        by_cases hk : k = id
        · subst hk
          -- the key is not named again by the rest of the loop
          have hrest : rest.lookup k = none := lookup_eq_none_of_forall_lt fun p hp => hl.lt_of_mem hp
          refine ⟨fun channel' hch => ?_, fun hnone => by simp at hnone⟩
          rw [List.lookup_cons_self, Option.some.injEq] at hch
          subst hch
          refine ⟨r, by simpa [counts] using hc, ?_⟩
          rw [(ih k).2 hrest, SortedMap.get?_insert, if_pos rfl]
        · have hcounts : counts (m.insert id r) k = counts m k := by
            simp only [counts, SortedMap.get?_insert, if_neg hk]
          rw [lookup_cons_of_ne hk]
          refine ⟨fun channel' hch => ?_, fun hnone => ?_⟩
          · rw [← hcounts]
            exact (ih k).1 channel' hch
          · rw [(ih k).2 hnone, SortedMap.get?_insert, if_neg hk]

/-- The channel loop does not panic when the limits name every channel. -/
theorem appendChannels_ne_none {limits : OutboundBandwidthLimits P} :
    ∀ {l : List (P × HrmpChannelUpdate)} {m : SortedMap P HrmpChannelUpdate},
      (∀ p ∈ l, (limits.hrmpOutgoing.get? p.1).isSome) → appendChannels limits l m ≠ none
  | [], m, _ => by simp [appendChannels]
  | (id, channel) :: rest, m, hl => by
    have hne := @HrmpChannelUpdate.append_ne_none _ _ ((m.get? id).getD {}) channel id limits
      (hl (id, channel) List.mem_cons_self)
    unfold appendChannels
    dsimp only
    cases hc : ((m.get? id).getD {}).append channel id limits with
    | none => exact absurd hc hne
    | some r =>
      cases r with
      | error e => simp
      | ok r => exact appendChannels_ne_none fun p hp => hl p (List.mem_cons_of_mem _ hp)

theorem append_eq_ok {self other b : UsedBandwidth P} {limits : OutboundBandwidthLimits P}
    (h : self.append other limits = some (.ok b)) :
    b.umpMsgCount = saturatingAdd self.umpMsgCount other.umpMsgCount ∧
      b.umpMsgCount ≤ limits.umpMessagesRemaining ∧
      b.umpTotalBytes = saturatingAdd self.umpTotalBytes other.umpTotalBytes ∧
      b.umpTotalBytes ≤ limits.umpBytesRemaining ∧
      appendChannels limits other.hrmpOutgoing.entries self.hrmpOutgoing = some (.ok b.hrmpOutgoing) := by
  unfold append at h
  dsimp only at h
  split_ifs at h with hmsg hbytes
  · cases h
  · cases h
  · split at h
    · cases h
    · cases h
    · rename_i hrmpOutgoing hchannels
      cases h
      exact ⟨rfl, not_lt.mp hmsg, rfl, not_lt.mp hbytes, hchannels⟩

theorem append_ne_none {self other : UsedBandwidth P} {limits : OutboundBandwidthLimits P}
    (h : ∀ p ∈ other.hrmpOutgoing.entries, (limits.hrmpOutgoing.get? p.1).isSome) :
    self.append other limits ≠ none := by
  have hne := appendChannels_ne_none (m := self.hrmpOutgoing) h
  unfold append
  dsimp only
  split_ifs
  · simp
  · simp
  · split
    · contradiction
    · simp
    · simp

end UsedBandwidth

namespace SegmentTracker

theorem append_error {self self' : SegmentTracker P} {block : Ancestor P} {newWatermark : HrmpWatermarkUpdate}
    {limits : OutboundBandwidthLimits P} {e : BandwidthUpdateError P}
    (h : self.append block newWatermark limits = some (.error e, self')) : self' = self := by
  have hbandwidth : self.appendBandwidth block newWatermark limits = some (.error e, self') → self' = self := by
    unfold appendBandwidth
    split <;> simp_all
  unfold append at h
  split_ifs at h
  · cases h
    rfl
  · split at h
    · split_ifs at h
      · cases h
        rfl
      · exact hbandwidth h
    · exact hbandwidth h

/-- An append that succeeds has no second signal, and writes the appended bandwidth, the block's signal if it
has one, and the new watermark. -/
theorem append_eq_ok {self self' : SegmentTracker P} {block : Ancestor P} {newWatermark : HrmpWatermarkUpdate}
    {limits : OutboundBandwidthLimits P} (h : self.append block newWatermark limits = some (.ok (), self')) :
    (self.consumedGoAheadSignal.isSome && block.consumedGoAheadSignal.isSome) = false ∧
      self.usedBandwidth.append block.usedBandwidth limits = some (.ok self'.usedBandwidth) ∧
      self'.consumedGoAheadSignal = block.consumedGoAheadSignal.or self.consumedGoAheadSignal := by
  have hbandwidth : self.appendBandwidth block newWatermark limits = some (.ok (), self') →
      self.usedBandwidth.append block.usedBandwidth limits = some (.ok self'.usedBandwidth) ∧
        self'.consumedGoAheadSignal = block.consumedGoAheadSignal.or self.consumedGoAheadSignal := by
    unfold appendBandwidth
    split
    · simp
    · simp
    · rename_i usedBandwidth hused
      intro h'
      cases h'
      exact ⟨hused, rfl⟩
  unfold append at h
  split_ifs at h with hsignal
  · cases h
  · refine ⟨by simpa using hsignal, ?_⟩
    split at h
    · split_ifs at h
      · cases h
      · exact hbandwidth h
    · exact hbandwidth h

theorem append_ne_none {self : SegmentTracker P} {block : Ancestor P} {newWatermark : HrmpWatermarkUpdate}
    {limits : OutboundBandwidthLimits P}
    (h : ∀ p ∈ block.usedBandwidth.hrmpOutgoing.entries, (limits.hrmpOutgoing.get? p.1).isSome) :
    self.append block newWatermark limits ≠ none := by
  have hbandwidth : self.appendBandwidth block newWatermark limits ≠ none := by
    have hne := @UsedBandwidth.append_ne_none _ _ self.usedBandwidth block.usedBandwidth limits h
    unfold appendBandwidth
    split
    · contradiction
    · simp
    · simp
  unfold append
  split_ifs
  · simp
  · split
    · split_ifs
      · simp
      · exact hbandwidth
    · exact hbandwidth

end SegmentTracker

/-! ## Subtracting -/

namespace HrmpChannelUpdate

theorem subtract_of_le {e channel : HrmpChannelUpdate} (hmsg : channel.msgCount.val ≤ e.msgCount.val)
    (hbytes : channel.totalBytes.val ≤ e.totalBytes.val) :
    ∃ r, e.subtract channel = some r ∧ r.msgCount.val = e.msgCount.val - channel.msgCount.val ∧
      r.totalBytes.val = e.totalBytes.val - channel.totalBytes.val := by
  refine ⟨⟨⟨e.msgCount.val - channel.msgCount.val, by have := e.msgCount.isLt; omega⟩,
    ⟨e.totalBytes.val - channel.totalBytes.val, by have := e.totalBytes.isLt; omega⟩⟩, ?_, rfl, rfl⟩
  simp only [subtract, checkedSub_of_le hmsg, checkedSub_of_le hbytes]
  rfl

theorem isEmpty_eq_false_iff (c : HrmpChannelUpdate) :
    c.isEmpty = false ↔ c.msgCount.val ≠ 0 ∨ c.totalBytes.val ≠ 0 := by
  rw [isEmpty, Bool.and_eq_false_iff, decide_eq_false_iff_not, decide_eq_false_iff_not, Fin.ext_iff, Fin.ext_iff]
  rfl

end HrmpChannelUpdate

@[simp] theorem counts_empty (k : P) : counts (SortedMap.empty : SortedMap P HrmpChannelUpdate) k = {} :=
  rfl

/-- Dropping the empty updates keeps every count. -/
theorem counts_retain (m : SortedMap P HrmpChannelUpdate) (k : P) :
    (counts (m.retain fun _ channel => !channel.isEmpty) k).msgCount = (counts m k).msgCount ∧
      (counts (m.retain fun _ channel => !channel.isEmpty) k).totalBytes = (counts m k).totalBytes := by
  unfold counts
  rw [SortedMap.get?_retain]
  cases m.get? k with
  | none => exact ⟨rfl, rfl⟩
  | some c =>
    cases hc : c.isEmpty with
    | true =>
      simp only [HrmpChannelUpdate.isEmpty, Bool.and_eq_true, decide_eq_true_eq] at hc
      simp [Option.filter_some, hc.1, hc.2, HrmpChannelUpdate.isEmpty]
    | false => simp [Option.filter_some, hc]

/-- After the empty updates are dropped, a channel has an entry exactly when its counts are not both zero. -/
theorem isSome_get?_retain (m : SortedMap P HrmpChannelUpdate) (k : P) :
    ((m.retain fun _ channel => !channel.isEmpty).get? k).isSome = !(counts m k).isEmpty := by
  unfold counts
  rw [SortedMap.get?_retain]
  cases m.get? k with
  | none => rfl
  | some c => cases hc : c.isEmpty <;> simp [Option.filter_some, hc]

namespace UsedBandwidth

/-- The channel loop of a subtraction whose updates are each within what the map holds on its channel: it does not
panic, and takes each update off its channel. -/
theorem subtractChannels_spec :
    ∀ {l : List (P × HrmpChannelUpdate)} {m : SortedMap P HrmpChannelUpdate}, KeysSorted l →
      (∀ p ∈ l, (m.get? p.1).isSome ∧ p.2.msgCount.val ≤ (counts m p.1).msgCount.val ∧
        p.2.totalBytes.val ≤ (counts m p.1).totalBytes.val) →
      ∃ m', subtractChannels l m = some m' ∧ ∀ k,
        (counts m' k).msgCount.val = (counts m k).msgCount.val - ((l.lookup k).getD {}).msgCount.val ∧
        (counts m' k).totalBytes.val = (counts m k).totalBytes.val - ((l.lookup k).getD {}).totalBytes.val
  | [], m, _, _ => ⟨m, rfl, fun _ => by simp⟩
  | (id, channel) :: rest, m, hl, hle => by
    obtain ⟨hsome, hmsg, hbytes⟩ := hle (id, channel) List.mem_cons_self
    obtain ⟨e, he⟩ := Option.isSome_iff_exists.mp hsome
    have hcounts : counts m id = e := by simp [counts, he]
    rw [hcounts] at hmsg hbytes
    obtain ⟨r, hr, hrmsg, hrbytes⟩ := HrmpChannelUpdate.subtract_of_le hmsg hbytes
    -- the rest of the loop sees the map as it was on its own channels
    have hother : ∀ k, k ≠ id → (m.insert id r).get? k = m.get? k := fun k hk => by
      rw [SortedMap.get?_insert, if_neg hk]
    have hle' : ∀ p ∈ rest, ((m.insert id r).get? p.1).isSome ∧
        p.2.msgCount.val ≤ (counts (m.insert id r) p.1).msgCount.val ∧
        p.2.totalBytes.val ≤ (counts (m.insert id r) p.1).totalBytes.val := by
      intro p hp
      have hne : p.1 ≠ id := ne_of_gt (hl.lt_of_mem hp)
      simpa [counts, hother p.1 hne] using hle p (List.mem_cons_of_mem _ hp)
    obtain ⟨m', hrun, hm'⟩ := subtractChannels_spec hl.of_cons hle'
    refine ⟨m', by simp [subtractChannels, he, hr, hrun], fun k => ?_⟩
    by_cases hk : k = id
    · subst hk
      have hrest : rest.lookup k = none := lookup_eq_none_of_forall_lt fun p hp => hl.lt_of_mem hp
      have hk' : counts (m.insert k r) k = r := by simp [counts, SortedMap.get?_insert]
      rw [(hm' k).1, (hm' k).2, hrest, hk', List.lookup_cons_self, hcounts]
      simp [hrmsg, hrbytes]
    · have hk' : counts (m.insert id r) k = counts m k := by simp [counts, hother k hk]
      rw [(hm' k).1, (hm' k).2, hk', lookup_cons_of_ne hk]
      exact ⟨rfl, rfl⟩

end UsedBandwidth

/-! ## Counting the live ancestors -/

/-- A count of the ancestors, added up. -/
def total (f : Ancestor P → Nat) (ancestors : List (Ancestor P)) : Nat :=
  (ancestors.map f).sum

@[simp] theorem total_nil (f : Ancestor P → Nat) : total f [] = 0 :=
  rfl

@[simp] theorem total_cons (f : Ancestor P → Nat) (a : Ancestor P) (ancestors : List (Ancestor P)) :
    total f (a :: ancestors) = f a + total f ancestors :=
  List.sum_cons

@[simp] theorem total_append (f : Ancestor P → Nat) (ancestors ancestors' : List (Ancestor P)) :
    total f (ancestors ++ ancestors') = total f ancestors + total f ancestors' := by
  simp [total]

theorem total_eq_zero_iff (f : Ancestor P → Nat) (ancestors : List (Ancestor P)) :
    total f ancestors = 0 ↔ ∀ a ∈ ancestors, f a = 0 := by
  induction ancestors with
  | nil => simp
  | cons a ancestors ih => simp only [total_cons, Nat.add_eq_zero_iff, ih, List.forall_mem_cons]

/-- The go-ahead signals the ancestors consumed, oldest first. -/
def signals (ancestors : List (Ancestor P)) : List UpgradeGoAhead :=
  ancestors.filterMap (·.consumedGoAheadSignal)

/-- Whether a bandwidth names channel `k`. -/
def UsedBandwidth.uses (b : UsedBandwidth P) (k : P) : Bool :=
  (b.hrmpOutgoing.get? k).isSome

/-- Every channel a bandwidth names carries an update, as in those `on_finalize` builds, of one message each. -/
def UsedBandwidth.NoEmptyChannel (b : UsedBandwidth P) : Prop :=
  ∀ p ∈ b.hrmpOutgoing.entries, p.2.isEmpty = false

/-- A bandwidth counts the ancestors exactly: the UMP counts and, on every channel, the counts (zero where the
bandwidth has no entry) are the sums over the ancestors, and it has an entry for the channels the ancestors name
and no other. -/
structure UsedBandwidth.Counts (b : UsedBandwidth P) (ancestors : List (Ancestor P)) : Prop where
  umpMsgCount : b.umpMsgCount.val = total (·.usedBandwidth.umpMsgCount.val) ancestors
  umpTotalBytes : b.umpTotalBytes.val = total (·.usedBandwidth.umpTotalBytes.val) ancestors
  msgCount : ∀ k, (counts b.hrmpOutgoing k).msgCount.val =
    total (fun a => (counts a.usedBandwidth.hrmpOutgoing k).msgCount.val) ancestors
  totalBytes : ∀ k, (counts b.hrmpOutgoing k).totalBytes.val =
    total (fun a => (counts a.usedBandwidth.hrmpOutgoing k).totalBytes.val) ancestors
  uses : ∀ k, b.uses k = true ↔ ∃ a ∈ ancestors, a.usedBandwidth.uses k = true

/-- The tracker counts its ancestors exactly, no ancestor names an empty update, and at most one ancestor consumed
a go-ahead signal, the one the tracker holds. -/
structure Segment.Exact (seg : Segment P) : Prop where
  counts : seg.tracker.usedBandwidth.Counts seg.ancestors
  noEmptyChannel : ∀ a ∈ seg.ancestors, a.usedBandwidth.NoEmptyChannel
  oneSignal : (signals seg.ancestors).length ≤ 1
  signal : seg.tracker.consumedGoAheadSignal = (signals seg.ancestors).head?

/-- What an appended block must bring for the count to stay exact: UMP limits below `MAX`, and on every channel it
names an update, and limits below `MAX`. -/
def Ancestor.Fits (block : Ancestor P) (limits : OutboundBandwidthLimits P) : Prop :=
  limits.umpMessagesRemaining < Word.max 32 ∧ limits.umpBytesRemaining < Word.max 32 ∧
    ∀ p ∈ block.usedBandwidth.hrmpOutgoing.entries, p.2.isEmpty = false ∧
      (limits.hrmpOutgoing.get? p.1).any
        (fun l => decide (l.messagesRemaining < Word.max 32) && decide (l.bytesRemaining < Word.max 32)) = true

instance (block : Ancestor P) (limits : OutboundBandwidthLimits P) : Decidable (block.Fits limits) :=
  inferInstanceAs (Decidable (_ ∧ _ ∧ _))

/-- A call that `Ancestor.Fits`: every subtraction, and the appends of fitting blocks. -/
def SegmentCall.Fits : SegmentCall P → Prop
  | .append block _ limits => block.Fits limits
  | .subtract => True

instance : DecidablePred (SegmentCall.Fits (P := P)) := fun
  | .append block _ limits => inferInstanceAs (Decidable (block.Fits limits))
  | .subtract => inferInstanceAs (Decidable True)

/-- Ancestors with no empty update name a channel exactly when their counts on it do not add up to zero. -/
theorem exists_uses_iff {ancestors : List (Ancestor P)} (h : ∀ a ∈ ancestors, a.usedBandwidth.NoEmptyChannel)
    (k : P) :
    (∃ a ∈ ancestors, a.usedBandwidth.uses k = true) ↔
      total (fun a => (counts a.usedBandwidth.hrmpOutgoing k).msgCount.val) ancestors ≠ 0 ∨
        total (fun a => (counts a.usedBandwidth.hrmpOutgoing k).totalBytes.val) ancestors ≠ 0 := by
  simp only [ne_eq, total_eq_zero_iff, not_forall]
  constructor
  · rintro ⟨a, ha, huses⟩
    obtain ⟨c, hc⟩ := Option.isSome_iff_exists.mp huses
    have hcounts : counts a.usedBandwidth.hrmpOutgoing k = c := by simp [counts, hc]
    have hne := (HrmpChannelUpdate.isEmpty_eq_false_iff c).mp (h a ha (k, c) (lookup_mem hc))
    rcases hne with hne | hne
    · exact .inl ⟨a, ha, by rw [hcounts]; exact hne⟩
    · exact .inr ⟨a, ha, by rw [hcounts]; exact hne⟩
  · -- an ancestor with a count that is not zero has an entry for the channel
    have huses : ∀ a : Ancestor P, a.usedBandwidth.uses k = false → counts a.usedBandwidth.hrmpOutgoing k = {} := by
      intro a ha
      simp only [UsedBandwidth.uses, Option.isSome_eq_false_iff, Option.isNone_iff_eq_none] at ha
      simp [counts, ha]
    rintro (⟨a, ha, hne⟩ | ⟨a, ha, hne⟩)
    all_goals
      refine ⟨a, ha, ?_⟩
      cases hu : a.usedBandwidth.uses k
      · rw [huses a hu] at hne
        exact absurd rfl hne
      · rfl

theorem Segment.exact_empty : (Segment.empty : Segment P).Exact where
  counts := ⟨rfl, rfl, fun _ => rfl, fun _ => rfl, fun _ => by simp [Segment.empty, UsedBandwidth.uses]⟩
  noEmptyChannel _ ha := by cases ha
  oneSignal := by simp [Segment.empty, signals]
  signal := rfl

/-! ## Each call keeps the count -/

/-- The channels after an append of a fitting block that succeeds: each holds exactly what it held and the block's
update, and has an entry if it had one or the block names it. -/
theorem appendChannels_exact {limits : OutboundBandwidthLimits P} {block : Ancestor P}
    {m m' : SortedMap P HrmpChannelUpdate} (hfits : block.Fits limits)
    (h : UsedBandwidth.appendChannels limits block.usedBandwidth.hrmpOutgoing.entries m = some (.ok m')) (k : P) :
    (counts m' k).msgCount.val =
        (counts m k).msgCount.val + (counts block.usedBandwidth.hrmpOutgoing k).msgCount.val ∧
      (counts m' k).totalBytes.val =
        (counts m k).totalBytes.val + (counts block.usedBandwidth.hrmpOutgoing k).totalBytes.val ∧
      (m'.get? k).isSome = ((m.get? k).isSome || block.usedBandwidth.uses k) := by
  have hspec := UsedBandwidth.appendChannels_spec block.usedBandwidth.hrmpOutgoing.sorted h k
  cases hk : block.usedBandwidth.hrmpOutgoing.entries.lookup k with
  | none =>
    have hblock : block.usedBandwidth.hrmpOutgoing.get? k = none := hk
    simp [counts, hblock, UsedBandwidth.uses, hspec.2 hk]
  | some channel =>
    have hblock : block.usedBandwidth.hrmpOutgoing.get? k = some channel := hk
    obtain ⟨r, hr, hget⟩ := hspec.1 channel hk
    obtain ⟨l, hl, rfl, hrmsg, hrbytes⟩ := HrmpChannelUpdate.append_eq_ok hr
    -- the limits of the channel are below `MAX`, so neither sum saturated
    have hany := (hfits.2.2 (k, channel) (lookup_mem hk)).2
    simp only [hl, Option.any_some, Bool.and_eq_true, decide_eq_true_eq] at hany
    simp only [counts, hget, hblock, Option.getD_some, UsedBandwidth.uses, Option.isSome_some, Bool.or_true]
    exact ⟨val_saturatingAdd_of_le hrmsg hany.1, val_saturatingAdd_of_le hrbytes hany.2, trivial⟩

namespace UsedBandwidth.Counts

variable {b b' : UsedBandwidth P} {ancestors : List (Ancestor P)}

/-- A fitting block appended without error is counted with the others. -/
theorem append {block : Ancestor P} {limits : OutboundBandwidthLimits P} (h : b.Counts ancestors)
    (hfits : block.Fits limits) (hok : b.append block.usedBandwidth limits = some (.ok b')) :
    b'.Counts (ancestors ++ [block]) := by
  obtain ⟨hmsg, hmsgLe, hbytes, hbytesLe, hchannels⟩ := UsedBandwidth.append_eq_ok hok
  have hchannel := appendChannels_exact hfits hchannels
  rw [hmsg] at hmsgLe
  rw [hbytes] at hbytesLe
  constructor
  · -- the UMP sums did not saturate under limits below `MAX`
    rw [hmsg, val_saturatingAdd_of_le hmsgLe hfits.1, h.umpMsgCount]
    simp
  · rw [hbytes, val_saturatingAdd_of_le hbytesLe hfits.2.1, h.umpTotalBytes]
    simp
  · intro k
    rw [(hchannel k).1, h.msgCount k]
    simp
  · intro k
    rw [(hchannel k).2.1, h.totalBytes k]
    simp
  · intro k
    have huses : b'.uses k = (b.uses k || block.usedBandwidth.uses k) := (hchannel k).2.2
    rw [huses, Bool.or_eq_true, h.uses k]
    simp [or_and_right, exists_or]

/-- Taking off the oldest of ancestors that name no empty update does not panic, and counts the others. -/
theorem subtract {oldest : Ancestor P} (h : b.Counts (oldest :: ancestors))
    (hrest : ∀ a ∈ ancestors, a.usedBandwidth.NoEmptyChannel) :
    ∃ b', b.subtract oldest.usedBandwidth = some b' ∧ b'.Counts ancestors := by
  have hmsg : oldest.usedBandwidth.umpMsgCount.val ≤ b.umpMsgCount.val := by
    rw [h.umpMsgCount, total_cons]
    omega
  have hbytes : oldest.usedBandwidth.umpTotalBytes.val ≤ b.umpTotalBytes.val := by
    rw [h.umpTotalBytes, total_cons]
    omega
  -- every channel of the oldest block has an entry holding at least its update
  have hpre : ∀ p ∈ oldest.usedBandwidth.hrmpOutgoing.entries, (b.hrmpOutgoing.get? p.1).isSome ∧
      p.2.msgCount.val ≤ (counts b.hrmpOutgoing p.1).msgCount.val ∧
      p.2.totalBytes.val ≤ (counts b.hrmpOutgoing p.1).totalBytes.val := by
    intro p hp
    have hget := oldest.usedBandwidth.hrmpOutgoing.get?_of_mem hp
    have hcounts : counts oldest.usedBandwidth.hrmpOutgoing p.1 = p.2 := by simp [counts, hget]
    refine ⟨(h.uses p.1).mpr ⟨oldest, List.mem_cons_self, by simp [UsedBandwidth.uses, hget]⟩, ?_, ?_⟩
    · rw [h.msgCount p.1, total_cons, hcounts]
      omega
    · rw [h.totalBytes p.1, total_cons, hcounts]
      omega
  obtain ⟨m', hrun, hm'⟩ := subtractChannels_spec oldest.usedBandwidth.hrmpOutgoing.sorted hpre
  have hlookup : ∀ k, (oldest.usedBandwidth.hrmpOutgoing.entries.lookup k).getD {} =
      counts oldest.usedBandwidth.hrmpOutgoing k := fun _ => rfl
  -- what is left on a channel is the count of the other ancestors
  have hleft : ∀ k, (counts m' k).msgCount.val =
        total (fun a => (counts a.usedBandwidth.hrmpOutgoing k).msgCount.val) ancestors ∧
      (counts m' k).totalBytes.val =
        total (fun a => (counts a.usedBandwidth.hrmpOutgoing k).totalBytes.val) ancestors := by
    intro k
    rw [(hm' k).1, (hm' k).2, hlookup, h.msgCount k, h.totalBytes k, total_cons, total_cons]
    omega
  refine ⟨⟨⟨b.umpMsgCount.val - oldest.usedBandwidth.umpMsgCount.val, by omega⟩,
    ⟨b.umpTotalBytes.val - oldest.usedBandwidth.umpTotalBytes.val, by omega⟩,
    m'.retain fun _ channel => !channel.isEmpty⟩, ?_, ?_⟩
  · simp only [UsedBandwidth.subtract, checkedSub_of_le hmsg, checkedSub_of_le hbytes, hrun]
    rfl
  constructor
  · show b.umpMsgCount.val - oldest.usedBandwidth.umpMsgCount.val = _
    rw [h.umpMsgCount, total_cons]
    omega
  · show b.umpTotalBytes.val - oldest.usedBandwidth.umpTotalBytes.val = _
    rw [h.umpTotalBytes, total_cons]
    omega
  · intro k
    rw [(counts_retain m' k).1]
    exact (hleft k).1
  · intro k
    rw [(counts_retain m' k).2]
    exact (hleft k).2
  · -- the retain keeps a channel exactly when the other ancestors still count something on it
    intro k
    rw [UsedBandwidth.uses, isSome_get?_retain, exists_uses_iff hrest k, ← (hleft k).1, ← (hleft k).2,
      Bool.not_eq_true', HrmpChannelUpdate.isEmpty_eq_false_iff]

end UsedBandwidth.Counts

theorem signals_append (ancestors : List (Ancestor P)) (block : Ancestor P) :
    signals (ancestors ++ [block]) = signals ancestors ++ block.consumedGoAheadSignal.toList := by
  cases h : block.consumedGoAheadSignal <;> simp [signals, h]

namespace Segment.Exact

variable {seg : Segment P}

theorem append_ok {block : Ancestor P} {newWatermark : HrmpWatermarkUpdate} {limits : OutboundBandwidthLimits P}
    {tracker : SegmentTracker P} (h : seg.Exact) (hfits : block.Fits limits)
    (hok : seg.tracker.append block newWatermark limits = some (.ok (), tracker)) :
    (⟨tracker, seg.ancestors ++ [block]⟩ : Segment P).Exact := by
  obtain ⟨hsignal, hused, hconsumed⟩ := SegmentTracker.append_eq_ok hok
  have hone := h.oneSignal
  have hsig := h.signal
  refine ⟨h.counts.append hfits hused, ?_, ?_, ?_⟩
  · intro a ha
    rcases List.mem_append.mp ha with ha | ha
    · exact h.noEmptyChannel a ha
    · rw [List.mem_singleton] at ha
      subst ha
      exact fun p hp => (hfits.2.2 p hp).1
  all_goals
    dsimp only
    rw [signals_append]
  · cases hc : block.consumedGoAheadSignal with
    | none => simpa using hone
    | some c =>
      -- a block with a signal is taken only when the segment has none
      have hnone : seg.tracker.consumedGoAheadSignal = none := by simpa [hc] using hsignal
      rw [hsig, List.head?_eq_none_iff] at hnone
      simp [hnone]
  · rw [hconsumed]
    cases hc : block.consumedGoAheadSignal with
    | none => simpa using hsig
    | some c =>
      have hnone : seg.tracker.consumedGoAheadSignal = none := by simpa [hc] using hsignal
      rw [hsig, List.head?_eq_none_iff] at hnone
      simp [hnone]

/-- Subtracting the oldest ancestor does not panic and keeps the count exact. -/
theorem subtract {tracker : SegmentTracker P} {oldest : Ancestor P} {rest : List (Ancestor P)}
    (h : (⟨tracker, oldest :: rest⟩ : Segment P).Exact) :
    ∃ tracker', tracker.subtract oldest = some tracker' ∧ (⟨tracker', rest⟩ : Segment P).Exact := by
  have hrest : ∀ a ∈ rest, a.usedBandwidth.NoEmptyChannel := fun a ha =>
    h.noEmptyChannel a (List.mem_cons_of_mem _ ha)
  obtain ⟨b', hsub, hcounts⟩ := h.counts.subtract hrest
  have hone := h.oneSignal
  have hsig := h.signal
  dsimp only at hone hsig
  cases hc : oldest.consumedGoAheadSignal with
  | none =>
    -- the oldest block consumed no signal: the tracker keeps its own
    have hsignals : signals (oldest :: rest) = signals rest := by simp [signals, hc]
    rw [hsignals] at hone hsig
    refine ⟨{ tracker with usedBandwidth := b' }, by simp [SegmentTracker.subtract, hsub, hc], hcounts, hrest,
      hone, hsig⟩
  | some c =>
    -- the oldest block holds the only signal, which its subtraction takes from the tracker
    have hsignals : signals (oldest :: rest) = c :: signals rest := by simp [signals, hc]
    rw [hsignals] at hone hsig
    have hnil : signals rest = [] := List.eq_nil_of_length_eq_zero (by simpa using hone)
    refine ⟨{ tracker with usedBandwidth := b', consumedGoAheadSignal := none },
      by simp [SegmentTracker.subtract, hsub, hc, hsig], hcounts, hrest, by simp [hnil], by simp [hnil]⟩

/-- A fitting call keeps the count exact, and does not panic. -/
theorem call {c : SegmentCall P} (h : seg.Exact) (hfits : c.Fits) : ∃ seg', seg.call c = some seg' ∧ seg'.Exact := by
  cases c with
  | append block newWatermark limits =>
    have hne := @SegmentTracker.append_ne_none _ _ seg.tracker block newWatermark limits
      fun p hp => Option.isSome_of_any (hfits.2.2 p hp).2
    cases happend : seg.tracker.append block newWatermark limits with
    | none => exact absurd happend hne
    | some r =>
      obtain ⟨result, tracker⟩ := r
      cases result with
      | ok u =>
        exact ⟨_, by simp [Segment.call, happend], append_ok h hfits happend⟩
      | error e =>
        -- a failed append leaves the tracker as it was
        obtain rfl := SegmentTracker.append_error happend
        exact ⟨_, by simp [Segment.call, happend], h⟩
  | subtract =>
    obtain ⟨tracker, ancestors⟩ := seg
    cases ancestors with
    | nil => exact ⟨_, rfl, h⟩
    | cons oldest rest =>
      obtain ⟨tracker', hsub, h'⟩ := subtract h
      exact ⟨_, by simp [Segment.call, hsub], h'⟩

end Segment.Exact

/-- A successful append leaves the UMP counts, and the channels the block names, within the limits it was given;
it does not look at the other channels. -/
theorem SegmentTracker.append_within {self self' : SegmentTracker P} {block : Ancestor P}
    {newWatermark : HrmpWatermarkUpdate} {limits : OutboundBandwidthLimits P}
    (h : self.append block newWatermark limits = some (.ok (), self')) :
    self'.usedBandwidth.umpMsgCount ≤ limits.umpMessagesRemaining ∧
      self'.usedBandwidth.umpTotalBytes ≤ limits.umpBytesRemaining ∧
      ∀ p ∈ block.usedBandwidth.hrmpOutgoing.entries, ∃ l, limits.hrmpOutgoing.get? p.1 = some l ∧
        (counts self'.usedBandwidth.hrmpOutgoing p.1).msgCount ≤ l.messagesRemaining ∧
        (counts self'.usedBandwidth.hrmpOutgoing p.1).totalBytes ≤ l.bytesRemaining := by
  obtain ⟨-, hused, -⟩ := append_eq_ok h
  obtain ⟨-, hmsgLe, -, hbytesLe, hchannels⟩ := UsedBandwidth.append_eq_ok hused
  refine ⟨hmsgLe, hbytesLe, fun p hp => ?_⟩
  have hspec := UsedBandwidth.appendChannels_spec block.usedBandwidth.hrmpOutgoing.sorted hchannels p.1
  obtain ⟨r, hr, hget⟩ := hspec.1 p.2 (block.usedBandwidth.hrmpOutgoing.sorted.lookup_of_mem hp)
  obtain ⟨l, hl, -, hrmsg, hrbytes⟩ := HrmpChannelUpdate.append_eq_ok hr
  exact ⟨l, hl, by simpa [counts, hget] using hrmsg, by simpa [counts, hget] using hrbytes⟩

/-! ## Runs -/

theorem segment_tracks_exactly :
    (∀ (tracker tracker' : SegmentTracker P) (block : Ancestor P) (newWatermark : HrmpWatermarkUpdate)
        (limits : OutboundBandwidthLimits P) (e : BandwidthUpdateError P),
      tracker.append block newWatermark limits = some (.error e, tracker') → tracker' = tracker) ∧
    (∀ (tracker tracker' : SegmentTracker P) (block : Ancestor P) (newWatermark : HrmpWatermarkUpdate)
        (limits : OutboundBandwidthLimits P),
      tracker.append block newWatermark limits = some (.ok (), tracker') →
        tracker'.usedBandwidth.umpMsgCount ≤ limits.umpMessagesRemaining ∧
        tracker'.usedBandwidth.umpTotalBytes ≤ limits.umpBytesRemaining ∧
        ∀ p ∈ block.usedBandwidth.hrmpOutgoing.entries, ∃ l, limits.hrmpOutgoing.get? p.1 = some l ∧
          (counts tracker'.usedBandwidth.hrmpOutgoing p.1).msgCount ≤ l.messagesRemaining ∧
          (counts tracker'.usedBandwidth.hrmpOutgoing p.1).totalBytes ≤ l.bytesRemaining) ∧
    ∀ calls : List (SegmentCall P), (∀ c ∈ calls, c.Fits) →
      ∃ seg, Segment.run calls = some seg ∧ seg.Exact := by
  refine ⟨fun _ _ _ _ _ _ h => SegmentTracker.append_error h, fun _ _ _ _ _ h => SegmentTracker.append_within h,
    fun calls hfits => ?_⟩
  -- every call from an exact segment succeeds and keeps it exact
  exact foldlM_progress calls Segment.empty (fun seg c hc h => h.call (hfits c hc)) Segment.exact_empty

/-- Limits of ten messages and ten bytes, for UMP and on channel `0`. -/
def tenLimits : OutboundBandwidthLimits Nat :=
  ⟨10, 10, SortedMap.empty.insert 0 ⟨10, 10⟩⟩

/-- A block with a go-ahead signal and one message on channel `0` appended, then one without, and the first taken
off: the segment stays exact. -/
theorem segment_tracks_exactly_twoBlocks :
    let calls : List (SegmentCall Nat) :=
      [.append ⟨{ umpMsgCount := 1, umpTotalBytes := 2, hrmpOutgoing := SortedMap.empty.insert 0 ⟨1, 3⟩ },
          some .goAhead⟩ (.head 1) tenLimits,
        .append ⟨{ umpMsgCount := 2, umpTotalBytes := 2 }, none⟩ (.trunk 2) tenLimits,
        .subtract]
    (∀ c ∈ calls, c.Fits) ∧ ∃ seg, Segment.run calls = some seg ∧ seg.Exact :=
  ⟨by decide, segment_tracks_exactly.2.2 _ (by decide)⟩

/-- The limits `u32::MAX`, for UMP and on channel `0`. -/
def maxLimits : OutboundBandwidthLimits Nat :=
  ⟨Word.max 32, Word.max 32, SortedMap.empty.insert 0 ⟨Word.max 32, Word.max 32⟩⟩

/-- Without the fit, exact tracking fails three ways: under the limits `u32::MAX`, `u32::MAX` messages and one more
saturate and the second subtraction underflows; a block naming channel `0` with an empty update loses its entry to the
`retain` of the older block's subtraction, and its own misses it; and an append allowed one message on channel `0`
succeeds with five messages of an older block there. -/
theorem segment_breaks_without_fit :
    Segment.run [.append ⟨{ umpMsgCount := Word.max 32 }, none⟩ (.head 0) maxLimits,
        .append ⟨{ umpMsgCount := 1 }, none⟩ (.head 0) maxLimits, .subtract, .subtract] = none ∧
      Segment.run [.append ⟨{ hrmpOutgoing := SortedMap.empty.insert 0 ⟨1, 1⟩ }, none⟩ (.head 0) tenLimits,
        .append ⟨{ hrmpOutgoing := SortedMap.empty.insert 0 {} }, none⟩ (.head 0) tenLimits, .subtract,
        .subtract] = none ∧
      ∃ seg, Segment.run [.append ⟨{ hrmpOutgoing := SortedMap.empty.insert 0 ⟨5, 5⟩ }, none⟩ (.head 0) tenLimits,
          .append ⟨{}, none⟩ (.head 0) ⟨10, 10, SortedMap.empty.insert 0 ⟨1, 1⟩⟩] = some seg ∧
        (counts seg.tracker.usedBandwidth.hrmpOutgoing 0).msgCount = 5 :=
  ⟨rfl, rfl, _, rfl, rfl⟩

end CoreChain.Parachain

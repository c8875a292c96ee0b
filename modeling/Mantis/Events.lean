import Mantis.Types

/-!
# Mantis.Events

The hot event language (`crates/events`): a header with cross-cutting flags and a
payload of one of eight kinds. Padding fields are left out, and so are the payloads of the
execution events, which no function here reads.
-/

namespace Mantis

/-- `EventFlags`: cross-cutting metadata of an event. -/
structure EventFlags where
  raw : UInt16
  deriving DecidableEq, Repr

namespace EventFlags

/-- No flag set. -/
def empty : EventFlags := ⟨0⟩

/-- The event is part of a snapshot (full state replay), not a live delta. -/
def isSnapshot : EventFlags := ⟨(1 : UInt16) <<< 0⟩

/-- This is the last event in the current batch. -/
def lastInBatch : EventFlags := ⟨(1 : UInt16) <<< 1⟩

/-- All bits of `other` are set. -/
def contains (flags other : EventFlags) : Bool := flags.raw &&& other.raw == other.raw

/-- The `|` of the source. -/
def union (flags other : EventFlags) : EventFlags := ⟨flags.raw ||| other.raw⟩

end EventFlags

/-- The common header carried by every event. -/
structure EventHeader where
  recvTs : Timestamp
  seq : SeqNum
  instrumentId : InstrumentId
  sourceId : SourceId
  flags : EventFlags
  deriving DecidableEq, Repr

/-- What a delta does to its level. -/
inductive UpdateAction
  | new
  | change
  | delete
  deriving DecidableEq, Repr

/-- An incremental change of one book level. -/
structure BookDeltaPayload where
  price : Ticks
  qty : Lots
  side : Side
  action : UpdateAction
  depth : UInt8
  deriving DecidableEq, Repr

/-- A single matched trade. -/
structure TradePayload where
  price : Ticks
  qty : Lots
  aggressor : Side
  deriving DecidableEq, Repr

/-- A best-bid/offer snapshot. -/
structure TopOfBookPayload where
  bidPrice : Ticks
  bidQty : Lots
  askPrice : Ticks
  askQty : Lots
  deriving DecidableEq, Repr

/-- What a timer was set for. -/
inductive TimerKind
  | staleFeed
  | periodic
  | deadline
  deriving DecidableEq, Repr

/-- A timer expiry. -/
structure TimerPayload where
  timerId : UInt32
  kind : TimerKind
  deriving DecidableEq, Repr

/-- An internal liveness ping. -/
structure HeartbeatPayload where
  counter : UInt32
  deriving DecidableEq, Repr

/-- The eight kinds of events; of the execution events only the kind matters here. -/
inductive EventBody
  | bookDelta (payload : BookDeltaPayload)
  | trade (payload : TradePayload)
  | topOfBook (payload : TopOfBookPayload)
  | orderAck
  | fill
  | orderReject
  | timer (payload : TimerPayload)
  | heartbeat (payload : HeartbeatPayload)
  deriving DecidableEq, Repr

/-- The transport unit of the hot path. -/
structure HotEvent where
  header : EventHeader
  body : EventBody
  deriving DecidableEq, Repr

/-- `HotEvent::book_delta`. -/
def HotEvent.bookDelta (recvTs : Timestamp) (seq : SeqNum) (instrumentId : InstrumentId)
    (sourceId : SourceId) (flags : EventFlags) (payload : BookDeltaPayload) : HotEvent :=
  ⟨⟨recvTs, seq, instrumentId, sourceId, flags⟩, .bookDelta payload⟩

/-- `HotEvent::trade`. -/
def HotEvent.trade (recvTs : Timestamp) (seq : SeqNum) (instrumentId : InstrumentId)
    (sourceId : SourceId) (flags : EventFlags) (payload : TradePayload) : HotEvent :=
  ⟨⟨recvTs, seq, instrumentId, sourceId, flags⟩, .trade payload⟩

/-- `HotEvent::top_of_book`. -/
def HotEvent.topOfBook (recvTs : Timestamp) (seq : SeqNum) (instrumentId : InstrumentId)
    (sourceId : SourceId) (flags : EventFlags) (payload : TopOfBookPayload) : HotEvent :=
  ⟨⟨recvTs, seq, instrumentId, sourceId, flags⟩, .topOfBook payload⟩

/-- `HotEvent::timer`. -/
def HotEvent.timer (recvTs : Timestamp) (seq : SeqNum) (instrumentId : InstrumentId)
    (sourceId : SourceId) (flags : EventFlags) (payload : TimerPayload) : HotEvent :=
  ⟨⟨recvTs, seq, instrumentId, sourceId, flags⟩, .timer payload⟩

/-- `HotEvent::heartbeat`; it belongs to no instrument (`InstrumentId::NONE`). -/
def HotEvent.heartbeat (recvTs : Timestamp) (seq : SeqNum) (sourceId : SourceId)
    (flags : EventFlags) (payload : HeartbeatPayload) : HotEvent :=
  ⟨⟨recvTs, seq, 0, sourceId, flags⟩, .heartbeat payload⟩

end Mantis

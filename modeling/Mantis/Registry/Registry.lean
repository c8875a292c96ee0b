import Mantis.Types
import Mathlib.Data.List.AList

/-!
# Mantis.Registry.Registry

The instrument registry (`crates/registry`): stable internal ids for instruments
whose venue identifiers rotate.

The four `HashMap`s are association lists with unique keys. A mutator returns the
registry it leaves behind together with its result, because a failing mutator may
already have changed something: `insert` hands out an id before it looks at the
Binance symbol. `Err` texts are not modelled, the error constructors and the
values they carry are.
-/

namespace Mantis

/-! ### Domain types -/

/-- What kind of product an instrument is. -/
inductive InstrumentClass
  | spot
  | perp
  | predictionBinary
  | oracleReference
  deriving DecidableEq, Repr

/-- Base or quote asset. -/
inductive Asset
  | btc | eth | sol | xrp | doge | usdt | usdc | usd
  deriving DecidableEq, Repr

/-- Timeframe for recurring markets. -/
inductive Timeframe
  | m5 | m15 | m60 | h4
  deriving DecidableEq, Repr

/-- Outcome side for binary prediction markets. -/
inductive OutcomeSide
  | up | down | yes | no
  deriving DecidableEq, Repr

/-- Stable logical description of an instrument. -/
structure InstrumentKey where
  instrumentClass : InstrumentClass
  base : Asset
  quote : Option Asset
  timeframe : Option Timeframe
  outcome : Option OutcomeSide
  deriving DecidableEq, Repr

/-- A Polymarket binary prediction key. -/
def InstrumentKey.prediction (base : Asset) (timeframe : Timeframe) (outcome : OutcomeSide) :
    InstrumentKey := ⟨.predictionBinary, base, some .usdc, some timeframe, some outcome⟩

/-- Stable Binance binding. -/
structure BinanceBinding where
  symbol : String
  deriving DecidableEq, Repr

/-- One Polymarket market window. -/
structure PolymarketWindowBinding where
  /-- Token id for this outcome in this window (the WS subscription key). -/
  tokenId : String
  marketSlug : String
  windowStart : Timestamp
  windowEnd : Timestamp
  conditionId : Option String
  deriving DecidableEq, Repr

/-- Dynamic Polymarket binding, rotating with every market window. -/
structure PolymarketBinding where
  /-- Currently active window (being traded). -/
  current : Option PolymarketWindowBinding
  /-- Next upcoming window (pre-subscribed for seamless rollover). -/
  next : Option PolymarketWindowBinding
  deriving DecidableEq, Repr

/-- `PolymarketBinding::default()`: no window. -/
def PolymarketBinding.default : PolymarketBinding := ⟨none, none⟩

/-- A canonical instrument with its conversion metadata. -/
structure CanonicalInstrument (D : Nat) where
  instrumentId : InstrumentId
  key : InstrumentKey
  metadata : InstrumentMeta D
  deriving DecidableEq

/-- Canonical identity and venue bindings. -/
structure InstrumentRecord (D : Nat) where
  canonical : CanonicalInstrument D
  binance : Option BinanceBinding
  polymarket : Option PolymarketBinding
  deriving DecidableEq

/-- Errors from registry operations. -/
inductive RegistryError
  | duplicateInstrumentId (id : InstrumentId)
  | duplicateInstrumentKey
  | duplicateBinanceSymbol (symbol : String)
  | duplicatePolymarketTokenId (tokenId : String)
  | missingInstrument (id : InstrumentId)
  | missingPolymarketBinding (id : InstrumentId)
  | noNextWindow (id : InstrumentId)
  | idSpaceExhausted
  deriving DecidableEq, Repr

/-! ### The registry -/

/-- Venue ids to stable internal ids, with the records behind them. -/
structure InstrumentRegistry (D : Nat) where
  byId : AList fun _ : InstrumentId => InstrumentRecord D
  byKey : AList fun _ : InstrumentKey => InstrumentId
  byBinanceSymbol : AList fun _ : String => InstrumentId
  byPolymarketTokenId : AList fun _ : String => InstrumentId
  nextId : UInt32
  deriving DecidableEq

namespace InstrumentRegistry

variable {D : Nat}

/-- An empty registry; id `0` is reserved for `InstrumentId::NONE`. -/
def new : InstrumentRegistry D := ⟨∅, ∅, ∅, ∅, 1⟩

/-- Look up a full instrument record by id. -/
def get (reg : InstrumentRegistry D) (id : InstrumentId) : Option (InstrumentRecord D) :=
  reg.byId.lookup id

/-- Resolve a Polymarket token id: the getter `by_polymarket_token_id`. -/
def findByPolymarketTokenId (reg : InstrumentRegistry D) (tokenId : String) : Option InstrumentId :=
  reg.byPolymarketTokenId.lookup tokenId

/-- Resolve an instrument key: the getter `by_key`. -/
def findByKey (reg : InstrumentRegistry D) (key : InstrumentKey) : Option InstrumentId :=
  reg.byKey.lookup key

/-- Resolve a Binance symbol: the getter `by_binance_symbol`. -/
def findByBinanceSymbol (reg : InstrumentRegistry D) (symbol : String) : Option InstrumentId :=
  reg.byBinanceSymbol.lookup symbol

/-- All currently active Polymarket token ids (for WS subscription). -/
def activePolymarketTokenIds (reg : InstrumentRegistry D) : List String :=
  reg.byPolymarketTokenId.keys

/-- Allocate the next id. Ids are monotonic, never recycled. -/
def allocId (reg : InstrumentRegistry D) :
    InstrumentRegistry D × Except RegistryError InstrumentId :=
  -- the counter has wrapped around
  if reg.nextId = 0 then (reg, .error .idSpaceExhausted)
  else ({ reg with nextId := reg.nextId + 1 }, .ok reg.nextId)

/-- Index the Binance symbol of a new instrument, if it has one. -/
def indexBinance (index : AList fun _ : String => InstrumentId) (binance : Option BinanceBinding)
    (id : InstrumentId) : AList fun _ : String => InstrumentId :=
  match binance with
  | some bn => index.insert bn.symbol id
  | none => index

/-- Register a new instrument with its canonical identity and metadata. -/
def insert (reg : InstrumentRegistry D) (key : InstrumentKey) (metadata : InstrumentMeta D)
    (binance : Option BinanceBinding) (polymarket : Option PolymarketBinding) :
    InstrumentRegistry D × Except RegistryError InstrumentId :=
  if key ∈ reg.byKey then (reg, .error .duplicateInstrumentKey)
  else
    match reg.allocId with
    | (reg, .error e) => (reg, .error e)
    | (reg, .ok id) =>
        match binance.filter (fun bn => decide (bn.symbol ∈ reg.byBinanceSymbol)) with
        | some bn => (reg, .error (.duplicateBinanceSymbol bn.symbol))
        | none =>
            ({ reg with
                byBinanceSymbol := indexBinance reg.byBinanceSymbol binance id
                byKey := reg.byKey.insert key id
                byId := reg.byId.insert id ⟨⟨id, key, metadata⟩, binance, polymarket⟩ }, .ok id)

/-- Register an Up/Down prediction pair in one call. -/
def insertPredictionPair (reg : InstrumentRegistry D) (base : Asset) (timeframe : Timeframe)
    (metadata : InstrumentMeta D) (binanceSymbol : Option String) :
    InstrumentRegistry D × Except RegistryError (InstrumentId × InstrumentId) :=
  let upKey := InstrumentKey.prediction base timeframe .up
  let downKey := InstrumentKey.prediction base timeframe .down
  -- both keys are checked first, so that a pair is not half inserted
  if upKey ∈ reg.byKey ∨ downKey ∈ reg.byKey then (reg, .error .duplicateInstrumentKey)
  else
    match binanceSymbol.filter (fun sym => decide (sym ∈ reg.byBinanceSymbol)) with
    | some sym => (reg, .error (.duplicateBinanceSymbol sym))
    | none =>
        match reg.insert upKey metadata (binanceSymbol.map BinanceBinding.mk) (some .default) with
        | (reg, .error e) => (reg, .error e)
        | (reg, .ok upId) =>
            -- the Binance symbol is shared via the Up instrument
            match reg.insert downKey metadata none (some .default) with
            | (reg, .error e) => (reg, .error e)
            | (reg, .ok downId) => (reg, .ok (upId, downId))

/-- The record and the Polymarket binding a rotation works on. -/
def polymarketMut (reg : InstrumentRegistry D) (id : InstrumentId) :
    Except RegistryError (InstrumentRecord D × PolymarketBinding) :=
  match reg.byId.lookup id with
  | none => .error (.missingInstrument id)
  | some record =>
      match record.polymarket with
      | none => .error (.missingPolymarketBinding id)
      | some pm => .ok (record, pm)

/-- Remove a window's token from the reverse index. -/
def unindex (index : AList fun _ : String => InstrumentId)
    (window : Option PolymarketWindowBinding) : AList fun _ : String => InstrumentId :=
  match window with
  | some old => index.erase old.tokenId
  | none => index

/-- Write back the windows of a record together with the reverse index. -/
def setWindows (reg : InstrumentRegistry D) (id : InstrumentId) (record : InstrumentRecord D)
    (pm : PolymarketBinding) (index : AList fun _ : String => InstrumentId) :
    InstrumentRegistry D :=
  { reg with
    byId := reg.byId.insert id { record with polymarket := some pm }
    byPolymarketTokenId := index }

/-- Bind a Polymarket window as the current active window for an instrument. -/
def bindPolymarketCurrent (reg : InstrumentRegistry D) (id : InstrumentId)
    (binding : PolymarketWindowBinding) : InstrumentRegistry D × Except RegistryError Unit :=
  match reg.polymarketMut id with
  | .error e => (reg, .error e)
  | .ok (record, pm) =>
      let index := (unindex reg.byPolymarketTokenId pm.current).insert binding.tokenId id
      (reg.setWindows id record { pm with current := some binding } index, .ok ())

/-- Bind a Polymarket window as the next upcoming window (pre-subscribe). -/
def bindPolymarketNext (reg : InstrumentRegistry D) (id : InstrumentId)
    (binding : PolymarketWindowBinding) : InstrumentRegistry D × Except RegistryError Unit :=
  match reg.polymarketMut id with
  | .error e => (reg, .error e)
  | .ok (record, pm) =>
      let index := (unindex reg.byPolymarketTokenId pm.next).insert binding.tokenId id
      (reg.setWindows id record { pm with next := some binding } index, .ok ())

/-- Promote the next window to current; the old current window is unbound. -/
def promotePolymarketNext (reg : InstrumentRegistry D) (id : InstrumentId) :
    InstrumentRegistry D × Except RegistryError Unit :=
  match reg.polymarketMut id with
  | .error e => (reg, .error e)
  | .ok (record, pm) =>
      match pm.next with
      | none => (reg, .error (.noNextWindow id))
      | some next =>
          let index := unindex reg.byPolymarketTokenId pm.current
          (reg.setWindows id record ⟨some next, none⟩ index, .ok ())

/-- Unbind a Polymarket market entirely; the instrument id stays. -/
def unbindPolymarket (reg : InstrumentRegistry D) (id : InstrumentId) :
    InstrumentRegistry D × Except RegistryError Unit :=
  match reg.polymarketMut id with
  | .error e => (reg, .error e)
  | .ok (record, pm) =>
      let index := unindex (unindex reg.byPolymarketTokenId pm.current) pm.next
      (reg.setWindows id record ⟨none, none⟩ index, .ok ())

/-! ### Calls -/

/-- A mutator call. -/
inductive Call (D : Nat)
  | insert (key : InstrumentKey) (metadata : InstrumentMeta D) (binance : Option BinanceBinding)
      (polymarket : Option PolymarketBinding)
  | insertPredictionPair (base : Asset) (timeframe : Timeframe) (metadata : InstrumentMeta D)
      (binanceSymbol : Option String)
  | bindPolymarketCurrent (id : InstrumentId) (binding : PolymarketWindowBinding)
  | bindPolymarketNext (id : InstrumentId) (binding : PolymarketWindowBinding)
  | promotePolymarketNext (id : InstrumentId)
  | unbindPolymarket (id : InstrumentId)

/-- The registry after a call, whether it succeeded or not. -/
def step (reg : InstrumentRegistry D) : Call D → InstrumentRegistry D
  | .insert key metadata binance polymarket => (reg.insert key metadata binance polymarket).1
  | .insertPredictionPair base timeframe metadata sym =>
      (reg.insertPredictionPair base timeframe metadata sym).1
  | .bindPolymarketCurrent id binding => (reg.bindPolymarketCurrent id binding).1
  | .bindPolymarketNext id binding => (reg.bindPolymarketNext id binding).1
  | .promotePolymarketNext id => (reg.promotePolymarketNext id).1
  | .unbindPolymarket id => (reg.unbindPolymarket id).1

/-- What a call answers: the ids it assigned, or its error. -/
def answer (reg : InstrumentRegistry D) : Call D → Except RegistryError (List InstrumentId)
  | .insert key metadata binance polymarket =>
      (reg.insert key metadata binance polymarket).2.map fun id => [id]
  | .insertPredictionPair base timeframe metadata sym =>
      (reg.insertPredictionPair base timeframe metadata sym).2.map fun ids => [ids.1, ids.2]
  | .bindPolymarketCurrent id binding => (reg.bindPolymarketCurrent id binding).2.map fun _ => []
  | .bindPolymarketNext id binding => (reg.bindPolymarketNext id binding).2.map fun _ => []
  | .promotePolymarketNext id => (reg.promotePolymarketNext id).2.map fun _ => []
  | .unbindPolymarket id => (reg.unbindPolymarket id).2.map fun _ => []

end InstrumentRegistry

end Mantis

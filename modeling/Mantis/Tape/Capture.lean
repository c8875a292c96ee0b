import Mantis.Tape.Format

/-!
# What a capture session records

The telemetry thread numbers every event it takes from its queue and writes it to the input
tape; a change of the best prices that leaves a bid also goes to the state tape, under the
same number (`record`). The input tape is made for the whole session, the state tape is far
smaller, and a full tape drops what comes after.

`capture_joins` is what a reader of both files relies on: the input tape is numbered
without gaps, the state tape in ascending order, and a state record's number leads to the
input record of the same event.
-/

namespace Mantis

namespace Tape

/-! ### Events -/

/-- How far into the window an event falls. -/
inductive Phase
  | preOpen | open | mid | late | final | postClose
  deriving DecidableEq, Repr

/-- What a feed thread put into its queue; the tape holds its ordinal. -/
inductive EventKind
  | none | pmBookClear | pmDelta | pmTrade | bnBbo | bnTrade | bnDepth | shutdown
  deriving DecidableEq, Repr

/-- What the engine thread reports: an event it has seen, or a new best price. -/
inductive TelemetryKind
  | bookUpdate | trade | bnBbo | bnTrade | bnDepth | topOfBook
  deriving DecidableEq, Repr

/-- The byte on the tape: the ordinal. -/
def Phase.toUInt8 (phase : Phase) : UInt8 := UInt8.ofNat phase.ctorIdx

/-- The byte on the tape: the ordinal. -/
def EventKind.toUInt8 (kind : EventKind) : UInt8 := UInt8.ofNat kind.ctorIdx

/-- What the tapes use of an event. -/
structure TelemetryEvent where
  kind : TelemetryKind
  phase : Phase
  localNs : Int64
  localEpochMs : Int64
  bidPrice : Float64
  askPrice : Float64
  bidSize : Float64
  askSize : Float64
  spread : Float64
  weightedMid : Float64
  bidLevels : Int32
  askLevels : Int32
  btcMid : Float64
  btcBid : Float64
  btcAsk : Float64
  evKind : EventKind
  instId : UInt32
  tradePrice : Float64
  tradeSize : Float64
  tradeSide : UInt8
  flags : UInt8
  seqNo : UInt32
  bnEventTimeMs : Int64
  bnTradeTimeMs : Int64
  bnBidQty : Float64
  bnAskQty : Float64
  deriving DecidableEq

/-- The floating-point operations, on bits. -/
structure FloatOps where
  lt : Float64 → Float64 → Bool
  add : Float64 → Float64 → Float64
  sub : Float64 → Float64 → Float64
  mul : Float64 → Float64 → Float64
  div : Float64 → Float64 → Float64
  toFloat32 : Float64 → Float32
  toInt16 : Float64 → Int16

namespace FloatOps

variable (ops : FloatOps)

/-- `0.5`. -/
def half : Float64 := 0x3FE0000000000000

/-- `1`. -/
def one : Float64 := 0x3FF0000000000000

/-- `1000`. -/
def thousand : Float64 := 0x408F400000000000

/-- A share price in thousandths; anything that is not a share price has none. -/
def priceMilli (price : Float64) : Int16 :=
  if ops.lt 0 price && ops.lt price one then
    ops.toInt16 (ops.add (ops.mul price thousand) half)
  else 0

/-- From `-1`, nothing bid, to `1`, nothing asked; zero if both sides are empty. -/
def imbalance (bidSize askSize : Float64) : Float32 :=
  if ops.lt 0 (ops.add bidSize askSize) then
    ops.toFloat32 (ops.div (ops.sub bidSize askSize) (ops.add bidSize askSize))
  else 0

end FloatOps

/-! ### Records of an event -/

/-- Fields that are not set are zero. -/
def inputRecord (ops : FloatOps) (globalSeq : UInt64) (ev : TelemetryEvent) : InputRecord where
  kind := ev.evKind.toUInt8
  instrumentId := ev.instId.toUInt8
  side := ev.tradeSide
  flags := ev.flags
  seqNo := ev.seqNo
  wallNs := ev.localNs
  epochMs := ev.localEpochMs
  price := ev.tradePrice
  size := ev.tradeSize
  priceMilli := ops.priceMilli ev.tradePrice
  pad0 := Vector.replicate 6 0
  bnEventTimeMs := ev.bnEventTimeMs
  bnTradeTimeMs := ev.bnTradeTimeMs
  bnBid := ev.btcBid
  bnAsk := ev.btcAsk
  bnBidQty := ev.bnBidQty
  bnAskQty := ev.bnAskQty
  bnUpdateId := 0
  globalSeq := globalSeq
  pad1 := Vector.replicate 16 0

/-- As for the input record, fields that are not set are zero. -/
def stateRecord (ops : FloatOps) (globalSeq : UInt64) (ev : TelemetryEvent) : StateRecord where
  bidPrice := ev.bidPrice
  askPrice := ev.askPrice
  bidSize := ev.bidSize
  askSize := ev.askSize
  microPrice := ev.weightedMid
  spread := ev.spread
  instrumentId := ev.instId.toUInt8
  phase := ev.phase.toUInt8
  pad0 := Vector.replicate 2 0
  seqNo := ev.seqNo
  wallNs := ev.localNs
  epochMs := ev.localEpochMs
  imbalance5 := ops.imbalance ev.bidSize ev.askSize
  imbalance10 := 0
  bidDepth5 := 0
  askDepth5 := 0
  bidLevels := ev.bidLevels.toUInt32.toUInt16
  askLevels := ev.askLevels.toUInt32.toUInt16
  btcMid := ev.btcMid
  btcImbalance5 := 0
  pad1 := Vector.replicate 8 0
  globalSeq := globalSeq

/-- Whether the event goes to the state tape. -/
def FloatOps.changesTop (ops : FloatOps) (ev : TelemetryEvent) : Bool :=
  ev.kind = .topOfBook && ops.lt 0 ev.bidPrice

/-! ### The session -/

/-- 4 MiB. -/
def stateTapeSize : Nat := 4 * 1024 * 1024

/-- The header of either tape. -/
def sessionHeader (recordSize : Nat) (windowStart : UInt64) (instrumentCount : UInt32) :
    TapeHeader where
  magic := tapeMagic
  version := tapeVersion
  recordSize := UInt32.ofNat recordSize
  startTs := windowStart * 1000000000
  instrumentCount := instrumentCount
  flags := 0
  reserved := Vector.replicate 32 0

/-- The part of the telemetry thread that writes the tapes. -/
structure CaptureState where
  globalSeq : UInt64
  inputTape : MmapTapeWriter
  stateTape : MmapTapeWriter

/-- One event taken from the queue. -/
def record (ops : FloatOps) (s : CaptureState) (ev : TelemetryEvent) : CaptureState :=
  let globalSeq := s.globalSeq + 1
  { globalSeq
    inputTape := s.inputTape.appendInput (inputRecord ops globalSeq ev)
    stateTape :=
      if ops.changesTop ev then s.stateTape.appendState (stateRecord ops globalSeq ev)
      else s.stateTape }

/-- Both tapes are made before the first event. -/
def startCapture (inputCalls stateCalls : WriterCalls) (baseName : String)
    (windowStart : UInt64) (instrumentCount : UInt32) : Except String CaptureState := do
  let inputTape ← initMmapTapeWriter inputCalls (baseName ++ ".input.bin")
    (sessionHeader inputRecordSize windowStart instrumentCount) defaultTapeSize
    (by rw [headerSize_eq]; decide)
  let stateTape ← initMmapTapeWriter stateCalls (baseName ++ ".state.bin")
    (sessionHeader stateRecordSize windowStart instrumentCount) stateTapeSize
    (by rw [headerSize_eq]; decide)
  return { globalSeq := 0, inputTape, stateTape }

theorem startCapture_isOk (baseName : String) (windowStart : UInt64)
    (instrumentCount : UInt32) :
    ∃ s, startCapture ⟨true, true, true⟩ ⟨true, true, true⟩ baseName windowStart
      instrumentCount = .ok s :=
  ⟨_, rfl⟩

/-! ### What the tapes hold -/

/-- The events under their numbers, `k` of them being taken already. -/
def numbered : Nat → List TelemetryEvent → List (UInt64 × TelemetryEvent)
  | _, [] => []
  | k, ev :: events => (UInt64.ofNat (k + 1), ev) :: numbered (k + 1) events

@[simp] theorem length_numbered (k : Nat) (events : List TelemetryEvent) :
    (numbered k events).length = events.length := by
  induction events generalizing k with
  | nil => rfl
  | cons ev events ih => rw [numbered, List.length_cons, ih, List.length_cons]

theorem numbered_getElem? (k i : Nat) (events : List TelemetryEvent) :
    (numbered k events)[i]? = events[i]?.map fun ev => (UInt64.ofNat (k + i + 1), ev) := by
  induction events generalizing k i with
  | nil => rfl
  | cons ev events ih =>
      cases i with
      | zero => rfl
      | succ i =>
          rw [numbered, List.getElem?_cons_succ, List.getElem?_cons_succ, ih]
          rw [Nat.add_right_comm k 1 i, Nat.add_assoc k i 1]

/-- Numbers ascend as long as they do not wrap. -/
theorem numbered_ascend {k : Nat} {events : List TelemetryEvent}
    (hlt : k + events.length < 2 ^ 64) :
    (numbered k events).Pairwise fun p q => p.1 < q.1 := by
  rw [List.pairwise_iff_getElem]
  intro i j hi hj hij
  have hp := numbered_getElem? k i events
  have hq := numbered_getElem? k j events
  rw [length_numbered] at hi hj
  rw [List.getElem?_eq_getElem hi, List.getElem?_eq_getElem (by rwa [length_numbered])] at hp
  rw [List.getElem?_eq_getElem hj, List.getElem?_eq_getElem (by rwa [length_numbered])] at hq
  have hsize : UInt64.size = 2 ^ 64 := rfl
  rw [Option.some.inj hp, Option.some.inj hq, UInt64.lt_iff_toNat_lt,
    UInt64.toNat_ofNat_of_lt' (by omega), UInt64.toNat_ofNat_of_lt' (by omega)]
  omega

/-- What the input tape is offered in a session. -/
def inputRecords (ops : FloatOps) (events : List TelemetryEvent) : List InputRecord :=
  (numbered 0 events).map fun p => inputRecord ops p.1 p.2

/-- What the state tape is offered in a session. -/
def stateRecords (ops : FloatOps) (events : List TelemetryEvent) : List StateRecord :=
  ((numbered 0 events).filter fun p => ops.changesTop p.2).map fun p => stateRecord ops p.1 p.2

/-- **Run lemma.** Every event is offered to the input tape, and those that change the top to
the state tape, each under its number. -/
theorem foldl_record (ops : FloatOps) {s : CaptureState} {k : Nat}
    (hseq : s.globalSeq = UInt64.ofNat k) (events : List TelemetryEvent) :
    let done := events.foldl (record ops) s
    done.inputTape = ((numbered k events).map fun p => inputRecord ops p.1 p.2).foldl
        MmapTapeWriter.appendInput s.inputTape ∧
      done.stateTape = (((numbered k events).filter fun p => ops.changesTop p.2).map
        fun p => stateRecord ops p.1 p.2).foldl MmapTapeWriter.appendState s.stateTape := by
  induction events generalizing s k with
  | nil => exact ⟨rfl, rfl⟩
  | cons ev events ih =>
      have hnext : (record ops s ev).globalSeq = UInt64.ofNat (k + 1) := by
        show s.globalSeq + 1 = _
        rw [hseq, UInt64.ofNat_add]
        rfl
      obtain ⟨hinput, hstate⟩ := ih hnext
      have hnum : (record ops s ev).globalSeq = s.globalSeq + 1 := rfl
      rw [List.foldl_cons]
      refine ⟨?_, ?_⟩
      · rw [hinput, numbered, List.map_cons, List.foldl_cons, ← hnext]
        rfl
      · rw [hstate, numbered, ← hnext]
        by_cases htop : ops.changesTop ev = true
        · have hkept : (record ops s ev).stateTape = s.stateTape.appendState
              (stateRecord ops (record ops s ev).globalSeq ev) := if_pos htop
          rw [List.filter_cons_of_pos (by exact htop), List.map_cons, List.foldl_cons, hkept]
        · have hleft : (record ops s ev).stateTape = s.stateTape := if_neg htop
          rw [List.filter_cons_of_neg (by exact htop), hleft]

/-- Both tapes start empty. -/
theorem startCapture_ok {inputCalls stateCalls : WriterCalls} {baseName : String}
    {windowStart : UInt64} {instrumentCount : UInt32} {s : CaptureState}
    (h : startCapture inputCalls stateCalls baseName windowStart instrumentCount = .ok s) :
    s.globalSeq = 0 ∧
      (∃ hcap, initMmapTapeWriter inputCalls (baseName ++ ".input.bin")
        (sessionHeader inputRecordSize windowStart instrumentCount) defaultTapeSize hcap =
          .ok s.inputTape) ∧
      ∃ hcap, initMmapTapeWriter stateCalls (baseName ++ ".state.bin")
        (sessionHeader stateRecordSize windowStart instrumentCount) stateTapeSize hcap =
          .ok s.stateTape := by
  unfold startCapture at h
  cases hinput : initMmapTapeWriter inputCalls (baseName ++ ".input.bin")
      (sessionHeader inputRecordSize windowStart instrumentCount) defaultTapeSize
      (by rw [headerSize_eq]; decide) with
  | error e =>
      rw [hinput] at h
      cases h
  | ok inputTape =>
      rw [hinput] at h
      dsimp only [bind, Except.bind] at h
      cases hstate : initMmapTapeWriter stateCalls (baseName ++ ".state.bin")
          (sessionHeader stateRecordSize windowStart instrumentCount) stateTapeSize
          (by rw [headerSize_eq]; decide) with
      | error e =>
          rw [hstate] at h
          cases h
      | ok stateTape =>
          rw [hstate] at h
          obtain rfl := Except.ok.inj h
          exact ⟨rfl, ⟨_, hinput⟩, ⟨_, hstate⟩⟩

/-! ### Reading a session -/

theorem inputRecords_getElem? (ops : FloatOps) (events : List TelemetryEvent) (i : Nat) :
    (inputRecords ops events)[i]? =
      events[i]?.map fun ev => inputRecord ops (UInt64.ofNat (i + 1)) ev := by
  rw [inputRecords, List.getElem?_map, numbered_getElem?, Option.map_map, Nat.zero_add]
  rfl

/-- The input tape is numbered without gaps. -/
theorem inputRecords_numbers (ops : FloatOps) {events : List TelemetryEvent}
    (hlt : events.length < 2 ^ 64) :
    (inputRecords ops events).map (·.globalSeq.toNat) = List.range' 1 events.length := by
  apply List.ext_getElem?
  intro i
  rw [List.getElem?_map, inputRecords_getElem?, Option.map_map]
  by_cases hi : i < events.length
  · have hsize : UInt64.size = 2 ^ 64 := rfl
    rw [List.getElem?_eq_getElem hi, List.getElem?_range' hi, Option.map_some,
      Function.comp_apply]
    show some (UInt64.ofNat (i + 1)).toNat = _
    rw [UInt64.toNat_ofNat_of_lt' (by omega), Nat.one_mul, Nat.add_comm]
  · rw [List.getElem?_eq_none (not_lt.mp hi), Option.map_none, List.getElem?_eq_none]
    rw [List.length_range']
    exact not_lt.mp hi

/-- The state tape is numbered in ascending order. -/
theorem stateRecords_ascend (ops : FloatOps) {events : List TelemetryEvent}
    (hlt : events.length < 2 ^ 64) :
    (stateRecords ops events).Pairwise (·.globalSeq < ·.globalSeq) := by
  rw [stateRecords, List.pairwise_map]
  exact (numbered_ascend (by rwa [Nat.zero_add])).sublist List.filter_sublist

/-- A state record is of the event whose number it has. -/
theorem stateRecords_origin (ops : FloatOps) {events : List TelemetryEvent}
    (hlt : events.length < 2 ^ 64) {st : StateRecord} (hst : st ∈ stateRecords ops events) :
    ∃ i ev, events[i]? = some ev ∧ ops.changesTop ev = true ∧
      st = stateRecord ops (UInt64.ofNat (i + 1)) ev ∧ st.globalSeq.toNat = i + 1 := by
  obtain ⟨⟨num, ev⟩, hmem, rfl⟩ := List.mem_map.mp hst
  obtain ⟨hnum, htop⟩ := List.mem_filter.mp hmem
  obtain ⟨i, hi⟩ := List.mem_iff_getElem?.mp hnum
  rw [numbered_getElem?, Nat.zero_add] at hi
  obtain ⟨ev', hev, heq⟩ := Option.map_eq_some_iff.mp hi
  obtain ⟨rfl, rfl⟩ := Prod.mk.inj heq
  have hlen := (List.getElem?_eq_some_iff.mp hev).1
  have hsize : UInt64.size = 2 ^ 64 := rfl
  exact ⟨i, ev', hev, htop, rfl, UInt64.toNat_ofNat_of_lt' (by omega)⟩

theorem input_slots : RecordFormat.input.slots defaultTapeSize = 2097151 := by decide

theorem state_slots : RecordFormat.state.slots stateTapeSize = 32767 := by decide

/-- Both tapes, closed after any events, are read as the records that fit. -/
theorem tapes_read_back (ops : FloatOps) {inputCalls stateCalls : WriterCalls}
    {baseName : String} {windowStart : UInt64} {instrumentCount : UInt32} {s : CaptureState}
    (hstart : startCapture inputCalls stateCalls baseName windowStart instrumentCount = .ok s)
    (events : List TelemetryEvent) :
    (∃ tr, initMmapTapeReader ⟨true, true, true⟩ (baseName ++ ".input.bin")
        (events.foldl (record ops) s).inputTape.finalize = .ok tr ∧
      ∀ n, tr.readMany MmapTapeReader.readInput n =
        ((inputRecords ops events).take 2097151).take n) ∧
    ∃ tr, initMmapTapeReader ⟨true, true, true⟩ (baseName ++ ".state.bin")
        (events.foldl (record ops) s).stateTape.finalize = .ok tr ∧
      ∀ n, tr.readMany MmapTapeReader.readState n =
        ((stateRecords ops events).take 32767).take n := by
  obtain ⟨hseq, ⟨hcapI, hinput⟩, hcapS, hstate⟩ := startCapture_ok hstart
  obtain ⟨hdoneI, hdoneS⟩ := foldl_record ops (k := 0) hseq events
  constructor
  · obtain ⟨tr, hok, -, -, hread⟩ := closed_read_back .input rfl rfl hinput
      (inputRecords ops events)
    rw [input_slots] at hread
    refine ⟨tr, ?_, hread⟩
    rw [hdoneI]
    exact hok
  · obtain ⟨tr, hok, -, -, hread⟩ := closed_read_back .state rfl rfl hstate
      (stateRecords ops events)
    rw [state_slots] at hread
    refine ⟨tr, ?_, hread⟩
    rw [hdoneS]
    exact hok

/-- **The two tapes of a session join.** Closed and read again, the input tape has the first
2097151 events, numbered from 1 without gaps, and the state tape the first 32767 changes of
the top, in ascending order. A state record's number leads to the event it was made from,
and as far as the input tape goes to that event's input record. -/
theorem capture_joins (ops : FloatOps) (inputCalls stateCalls : WriterCalls)
    (baseName : String) (windowStart : UInt64) (instrumentCount : UInt32) (s : CaptureState)
    (hstart : startCapture inputCalls stateCalls baseName windowStart instrumentCount = .ok s)
    (events : List TelemetryEvent) (hlt : events.length < 2 ^ 64) :
    let done := events.foldl (record ops) s
    let inputs := (inputRecords ops events).take 2097151
    let states := (stateRecords ops events).take 32767
    (∃ tr, initMmapTapeReader ⟨true, true, true⟩ (baseName ++ ".input.bin")
        done.inputTape.finalize = .ok tr ∧
      ∀ n, tr.readMany MmapTapeReader.readInput n = inputs.take n) ∧
    (∃ tr, initMmapTapeReader ⟨true, true, true⟩ (baseName ++ ".state.bin")
        done.stateTape.finalize = .ok tr ∧
      ∀ n, tr.readMany MmapTapeReader.readState n = states.take n) ∧
    inputs.map (·.globalSeq.toNat) = List.range' 1 (min 2097151 events.length) ∧
    states.Pairwise (·.globalSeq < ·.globalSeq) ∧
    ∀ st ∈ states, ∃ ev, events[st.globalSeq.toNat - 1]? = some ev ∧
      ops.changesTop ev = true ∧ st = stateRecord ops st.globalSeq ev ∧
      (st.globalSeq.toNat ≤ 2097151 →
        inputs[st.globalSeq.toNat - 1]? = some (inputRecord ops st.globalSeq ev)) := by
  intro done inputs states
  obtain ⟨hinputs, hstates⟩ := tapes_read_back ops hstart events
  refine ⟨hinputs, hstates, ?_, ?_, ?_⟩
  · rw [List.map_take, inputRecords_numbers ops hlt]
    rcases le_total 2097151 events.length with hmany | hfew
    · rw [List.take_range'_of_length_ge hmany, Nat.min_eq_left hmany]
    · rw [List.take_range'_of_length_le hfew, Nat.min_eq_right hfew]
  · exact (stateRecords_ascend ops hlt).sublist (List.take_sublist ..)
  · intro st hst
    obtain ⟨i, ev, hev, htop, hrec, hnum⟩ :=
      stateRecords_origin ops hlt (List.mem_of_mem_take hst)
    have hseq' : st.globalSeq = UInt64.ofNat (i + 1) := by rw [hrec]; rfl
    rw [hnum, Nat.add_sub_cancel]
    refine ⟨ev, hev, htop, by rw [hseq']; exact hrec, fun hle => ?_⟩
    rw [List.getElem?_take_of_lt (by omega), inputRecords_getElem?, hev, hseq', Option.map_some]

/-- Doubles of one sign are ordered like their bits; zero plus zero is zero. -/
def bitOps : FloatOps where
  lt a b := a < b
  add a b := a + b
  sub a b := a - b
  mul a b := a * b
  div a b := a / b
  toFloat32 a := a.toUInt32
  toInt16 a := a.toInt64.toInt16

/-- A trade and a change of the top: the state record has the second number. -/
theorem capture_joins_two :
    let trade : TelemetryEvent :=
      ⟨.trade, .open, 5, 6, 0, 0, 0, 0, 0, 0, 0, 0, 0, 0, 0, .pmTrade, 1, 0, 0, 0, 0, 8, 0, 0, 0, 0⟩
    let top : TelemetryEvent :=
      ⟨.topOfBook, .open, 7, 8, FloatOps.half, 0, 0, 0, 0, 0, 1, 0, 0, 0, 0, .pmDelta, 1, 0, 0, 0,
        1, 9, 0, 0, 0, 0⟩
    ∃ s, startCapture ⟨true, true, true⟩ ⟨true, true, true⟩ "tape_btc" 1700000000 3 = .ok s ∧
      ∃ tr, initMmapTapeReader ⟨true, true, true⟩ "tape_btc.state.bin"
          ([trade, top].foldl (record bitOps) s).stateTape.finalize = .ok tr ∧
        tr.readMany MmapTapeReader.readState 3 = [stateRecord bitOps 2 top] := by
  intro trade top
  obtain ⟨s, hstart⟩ := startCapture_isOk "tape_btc" 1700000000 3
  obtain ⟨-, ⟨tr, hok, hread⟩, -⟩ := capture_joins bitOps ⟨true, true, true⟩ ⟨true, true, true⟩
    "tape_btc" 1700000000 3 s hstart [trade, top] (by decide)
  exact ⟨s, hstart, tr, hok, hread 3⟩

end Tape

end Mantis

import Mantis.MarketState.Engine

/-!
# Mantis.MarketState.Isolation

Instruments do not influence each other, although all of them announce their changes
through one `last_tob` slot.

`observe` is a machine for a single instrument that knows nothing of the engine: it
folds the effects of the events over one `InstrumentState` and lists what they
announce. `Feed.run_emittedFor` shows that a polled engine, seen from one instrument, **is**
that machine fed with the market events of the instrument. Two runs with the same
such events are therefore indistinguishable from there.
-/

namespace Mantis

variable {B : Type} [OrderBook B] {MAX : Nat}

/-- The event is one of the kinds the engine processes. -/
def HotEvent.isMarket (event : HotEvent) : Bool :=
  match event.body with
  | .bookDelta _ | .trade _ | .topOfBook _ => true
  | .orderAck | .fill | .orderReject | .timer _ | .heartbeat _ => false

/-- A market event of instrument `i`. -/
def HotEvent.isMarketFor (i : InstrumentId) (event : HotEvent) : Bool :=
  event.header.instrumentId == i && event.isMarket

theorem HotEvent.effect_of_not_isMarket {event : HotEvent} (h : event.isMarket = false)
    (st : InstrumentState B) : event.effect st = (st, none) := by
  simp only [HotEvent.effect, HotEvent.onInstrument]
  simp only [HotEvent.isMarket] at h
  split at h
  · cases h
  · cases h
  · cases h
  all_goals simp_all

namespace InstrumentState

/-- An announcement names the slot it was made for. -/
theorem checkBboPriceChange_instrumentId {st : InstrumentState B} {slot : Nat} {tob : TopOfBook}
    (h : (st.checkBboPriceChange slot).2 = some tob) :
    tob.instrumentId = UInt32.ofNat (slot + 1) := by
  simp only [checkBboPriceChange] at h
  split at h
  · cases h
  · split at h
    · cases h
      rfl
    · cases h

theorem checkBboPriceChange_microPrice {st : InstrumentState B} {slot : Nat} {tob : TopOfBook}
    (h : (st.checkBboPriceChange slot).2 = some tob) :
    tob.microPrice = microPriceOf tob.bidPrice tob.bidQty tob.askPrice tob.askQty := by
  simp only [checkBboPriceChange] at h
  split at h
  · cases h
  · split at h
    · cases h
      rfl
    · cases h

end InstrumentState

/-- An event announces only what a check of the best prices returns. -/
theorem HotEvent.effect_check {event : HotEvent} {st : InstrumentState B} {tob : TopOfBook}
    (h : (event.effect st).2 = some tob) :
    ∃ st' : InstrumentState B,
      (st'.checkBboPriceChange (event.header.instrumentId.toNat - 1)).2 = some tob := by
  simp only [HotEvent.effect, HotEvent.onInstrument] at h
  cases hbody : event.body with
  | bookDelta delta =>
      rw [hbody] at h
      simp only [InstrumentState.onBookDelta] at h
      split at h
      · split at h
        · exact ⟨_, h⟩
        · cases h
      · cases h
  | topOfBook payload =>
      rw [hbody] at h
      exact ⟨_, h⟩
  | _ =>
      rw [hbody] at h
      cases h

/-- An announcement names the instrument of the event that caused it. -/
theorem HotEvent.effect_instrumentId {event : HotEvent} (hid : event.header.instrumentId.toNat ≠ 0)
    {st : InstrumentState B} {tob : TopOfBook} (h : (event.effect st).2 = some tob) :
    tob.instrumentId = event.header.instrumentId := by
  obtain ⟨st', hcheck⟩ := HotEvent.effect_check h
  rw [InstrumentState.checkBboPriceChange_instrumentId hcheck,
    Nat.sub_add_cancel (Nat.pos_of_ne_zero hid)]
  exact UInt32.ofNat_toNat

/-- An announcement carries the micro price of the prices it carries. -/
theorem HotEvent.effect_microPrice {event : HotEvent} {st : InstrumentState B} {tob : TopOfBook}
    (h : (event.effect st).2 = some tob) :
    tob.microPrice =
      InstrumentState.microPriceOf tob.bidPrice tob.bidQty tob.askPrice tob.askQty := by
  obtain ⟨st', hcheck⟩ := HotEvent.effect_check h
  exact InstrumentState.checkBboPriceChange_microPrice hcheck

namespace MarketStateEngine

open Runs

/-- One instrument on its own: the state it ends in and what it announces on the way. -/
def observe (st : Option (InstrumentState B)) :
    List HotEvent → Option (InstrumentState B) × List TopOfBook
  | [] => (st, [])
  | event :: events =>
      let rest := observe (st.map fun st => (event.effect st).1) events
      (rest.1, (st.bind fun st => (event.effect st).2).toList ++ rest.2)

/-- Plain processing projects to `observe`. -/
theorem run_process_observe (e : MarketStateEngine B MAX) (events : List HotEvent)
    (i : InstrumentId) :
    (run process e events).state? i =
      (observe (e.state? i) (events.filter (HotEvent.isMarketFor i))).1 := by
  induction events generalizing e with
  | nil => rfl
  | cons event events ih =>
      rw [run_cons, ih, process_state?, List.filter_cons]
      by_cases hfor : event.isMarketFor i = true
      · have hid : event.header.instrumentId = i := by
          simpa using (Bool.and_eq_true_iff.mp hfor).1
        rw [if_pos hfor, if_pos hid]
        rfl
      · rw [if_neg hfor]
        split
        · next hid =>
            -- an event of this instrument that the engine does not process
            have hkind : event.isMarket = false := by simpa [HotEvent.isMarketFor, hid] using hfor
            simp [HotEvent.effect_of_not_isMarket hkind]
        · rfl

/-- What is emitted for `i` by one polled event. -/
theorem Feed.step_emittedFor {f : Feed B MAX} (h : f.engine.tobChanged = false)
    (event : HotEvent) (i : InstrumentId) :
    (f.step event).emittedFor i = f.emittedFor i ++
      if event.header.instrumentId = i then
        ((f.engine.state? i).bind fun st => (event.effect st).2).toList
      else [] := by
  simp only [Feed.emittedFor]
  rw [Feed.step_emitted h, List.filter_append]
  congr 1
  -- an announcement exists only for a valid instrument, and names it
  have hname : ∀ tob, ((f.engine.state? event.header.instrumentId).bind
      fun st => (event.effect st).2) = some tob → tob.instrumentId = event.header.instrumentId := by
    intro tob htob
    obtain ⟨st, hst, heffect⟩ := Option.bind_eq_some_iff.mp htob
    obtain ⟨slot, hslot, -⟩ := Option.map_eq_some_iff.mp hst
    exact HotEvent.effect_instrumentId (slot?_eq_some hslot).2 heffect
  split
  · next hid =>
      rw [hid] at hname ⊢
      cases hout : (f.engine.state? i).bind fun st => (event.effect st).2 with
      | none => rfl
      | some tob => simp [hname tob hout]
  · next hid =>
      cases hout : (f.engine.state? event.header.instrumentId).bind
          fun st => (event.effect st).2 with
      | none => rfl
      | some tob => simp [hname tob hout, hid]

/-- Polling changes no instrument. -/
theorem Feed.run_state? (f : Feed B MAX) (events : List HotEvent) (i : InstrumentId) :
    (run Feed.step f events).engine.state? i = (run process f.engine events).state? i := by
  induction events generalizing f with
  | nil => rfl
  | cons event events ih =>
      rw [run_cons, ih, run_cons, run_process_observe, run_process_observe, Feed.step_state?]

/-- **Projection.** Seen from instrument `i`, a polled engine is `observe` on the market
events of `i`. -/
theorem Feed.run_emittedFor (f : Feed B MAX) (h : f.engine.tobChanged = false)
    (events : List HotEvent) (i : InstrumentId) :
    (run Feed.step f events).emittedFor i =
      f.emittedFor i ++
        (observe (f.engine.state? i) (events.filter (HotEvent.isMarketFor i))).2 := by
  induction events generalizing f with
  | nil => exact (List.append_nil _).symm
  | cons event events ih =>
      rw [run_cons, ih _ (f.step_tobChanged event), Feed.step_emittedFor h, Feed.step_state?,
        process_state?, List.filter_cons, List.append_assoc]
      by_cases hfor : event.isMarketFor i = true
      · have hid : event.header.instrumentId = i := by
          simpa using (Bool.and_eq_true_iff.mp hfor).1
        rw [if_pos hfor, if_pos hid, if_pos hid]
        rfl
      · rw [if_neg hfor]
        split
        · next hid =>
            have hkind : event.isMarket = false := by simpa [HotEvent.isMarketFor, hid] using hfor
            simp [HotEvent.effect_of_not_isMarket hkind]
        · rfl

/-- **Per-instrument isolation.** From any engine with nothing pending, a new one in
particular: two event sequences with the same market events for `i`, however other
events are interleaved, leave the same state for `i`, and a consumer that polls after
every event receives the same tops of book for `i`. -/
theorem instrument_isolated (e : MarketStateEngine B MAX) (hpending : e.tobChanged = false)
    (i : InstrumentId) (events₁ events₂ : List HotEvent)
    (hsame : events₁.filter (HotEvent.isMarketFor i) = events₂.filter (HotEvent.isMarketFor i)) :
    (run process e events₁).state? i = (run process e events₂).state? i ∧
    (run Feed.step (.start e) events₁).engine.state? i =
      (run Feed.step (.start e) events₂).engine.state? i ∧
    (run Feed.step (.start e) events₁).emittedFor i =
      (run Feed.step (.start e) events₂).emittedFor i := by
  refine ⟨?_, ?_, ?_⟩
  · rw [run_process_observe, run_process_observe, hsame]
  · rw [Feed.run_state?, Feed.run_state?, run_process_observe, run_process_observe, hsame]
  · rw [Feed.run_emittedFor _ hpending, Feed.run_emittedFor _ hpending, hsame]

/-- A one-sided delta on a book of four levels. -/
def sampleDelta (inst : InstrumentId) (price : Ticks) (side : Side) (flags : EventFlags) :
    HotEvent := .bookDelta 1000 1 inst 1 flags ⟨price, 100, side, .new, 0⟩

/-- A batch for instrument 1, alone and interleaved with a batch for instrument 2, an
event for an invalid id and a heartbeat. -/
theorem instrument_isolated_interleaved :
    (run Feed.step (.start (new 2 0 (by decide) : MarketStateEngine (ArrayBook 4) 2))
        [sampleDelta 1 1 .bid .isSnapshot, sampleDelta 1 2 .ask .lastInBatch]).emittedFor 1 =
      (run Feed.step (.start (new 2 0 (by decide) : MarketStateEngine (ArrayBook 4) 2))
        [sampleDelta 2 0 .bid .isSnapshot, sampleDelta 1 1 .bid .isSnapshot,
          ⟨⟨1000, 1, 1, 1, .empty⟩, .heartbeat ⟨7⟩⟩, sampleDelta 2 3 .ask .lastInBatch,
          sampleDelta 1 2 .ask .lastInBatch, sampleDelta 9 1 .bid .lastInBatch]).emittedFor 1 :=
  (instrument_isolated (new 2 0 (by decide)) rfl 1 _ _ (by decide)).2.2

end MarketStateEngine

end Mantis

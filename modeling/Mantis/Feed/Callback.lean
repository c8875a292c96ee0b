import Mantis.Events
import Mantis.Lib.Runs

/-!
# Mantis.Feed.Callback

What the Binance and the Polymarket feed share: the output buffer of 64 events a decoder
writes to, and the transport callback (`build_callback` in the two `spawn.rs`) that
decodes a frame and pushes the events of the buffer one by one.

A decoder is any function that takes a frame and the buffer and returns the buffer with
the number of events written. `CallSpec` is what the callback relies on: the events
carry the next sequence numbers, and nothing else changes. The run lemmas then account
for every event of a whole stream of frames: it was accepted by `push`, or it was
counted as dropped.
-/

namespace Mantis

open Runs

/-! ### The output buffer -/

/-- The size of the output buffer. -/
def outCapacity : Nat := 64

theorem outCapacity_pos : 0 < outCapacity := by decide

/-- `[HotEvent; 64]`. -/
abbrev OutBuffer := Vector HotEvent outCapacity

/-- `make_out`: the buffer before the first call. -/
def makeOut : OutBuffer := Vector.replicate outCapacity (HotEvent.heartbeat 0 0 0 .empty ⟨0⟩)

/-- The buffer in the middle of a call: the first `count` slots have been written. -/
structure Out where
  slots : OutBuffer
  count : Nat
  count_le : count ≤ outCapacity

namespace Out

/-- Nothing written yet. -/
def start (slots : OutBuffer) : Out := ⟨slots, 0, Nat.zero_le _⟩

/-- `out[count] = event; count += 1`. -/
def push (out : Out) (event : HotEvent) (h : out.count < outCapacity) : Out :=
  ⟨out.slots.set out.count event h, out.count + 1, h⟩

/-- The events written so far. -/
def written (out : Out) : List HotEvent := out.slots.toList.take out.count

/-- The slots the call has not written are those of `slots`. -/
def Untouched (out : Out) (slots : OutBuffer) : Prop :=
  out.slots.toList.drop out.count = slots.toList.drop out.count

@[simp] theorem written_start (slots : OutBuffer) : (start slots).written = [] := List.take_zero

@[simp] theorem length_written (out : Out) : out.written.length = out.count := by
  have hle := out.count_le
  simp [written, hle]

@[simp] theorem written_push (out : Out) (event : HotEvent) (h : out.count < outCapacity) :
    (out.push event h).written = out.written ++ [event] := by
  have hlen : out.count < out.slots.toList.length := by
    rw [Vector.length_toList]
    exact h
  simp only [written, push, Vector.toList_set]
  rw [List.take_add_one, List.take_set_of_le (Nat.le_refl _),
    List.getElem?_set_self hlen]
  rfl

theorem Untouched.push {out : Out} {slots : OutBuffer} (huntouched : out.Untouched slots)
    (event : HotEvent) (h : out.count < outCapacity) : (out.push event h).Untouched slots := by
  simp only [Untouched, Out.push, Vector.toList_set] at huntouched ⊢
  rw [List.drop_set_of_lt (Nat.lt_add_one _), ← List.drop_drop, ← List.drop_drop, huntouched]

end Out

/-! ### Frames and decode calls -/

/-- A message from the transport and the time it was received. -/
structure Frame where
  buf : List UInt8
  recvTs : Timestamp

/-- The events a call announces: `out.iter().take(count)`. -/
def announced {δ : Type} (r : δ × OutBuffer × Nat) : List HotEvent := r.2.1.toList.take r.2.2

/-- What a decode call may do: write its events to the first slots, numbered on from the
counter, and count them. -/
structure CallSpec {δ : Type} (seqOf : δ → SeqNum) (dec : δ) (out : OutBuffer)
    (r : δ × OutBuffer × Nat) : Prop where
  count_le : r.2.2 ≤ outCapacity
  untouched : r.2.1.toList.drop r.2.2 = out.toList.drop r.2.2
  numbered : (announced r).map (·.header.seq) =
    (List.range r.2.2).map fun k => seqOf dec + UInt64.ofNat (k + 1)
  seq_eq : seqOf r.1 = seqOf dec + UInt64.ofNat r.2.2
  unchanged : r.2.2 = 0 → r.1 = dec

theorem CallSpec.length_announced {δ : Type} {seqOf : δ → SeqNum} {dec : δ} {out : OutBuffer}
    {r : δ × OutBuffer × Nat} (h : CallSpec seqOf dec out r) : (announced r).length = r.2.2 := by
  have hle := h.count_le
  simp [announced, hle]

/-- The same in the middle of a call that started from `dec` and `slots`. -/
structure Numbering {δ : Type} (seqOf : δ → SeqNum) (dec : δ) (slots : OutBuffer) (dec' : δ)
    (out : Out) : Prop where
  untouched : out.Untouched slots
  numbered : out.written.map (·.header.seq) =
    (List.range out.count).map fun k => seqOf dec + UInt64.ofNat (k + 1)
  seq_eq : seqOf dec' = seqOf dec + UInt64.ofNat out.count
  unchanged : out.count = 0 → dec' = dec

section Numbering

variable {δ : Type} {seqOf : δ → SeqNum} {dec dec' dec'' : δ} {slots : OutBuffer} {out : Out}

theorem Numbering.start (seqOf : δ → SeqNum) (dec : δ) (slots : OutBuffer) :
    Numbering seqOf dec slots dec (.start slots) := by
  refine ⟨rfl, ?_, ?_, fun _ => rfl⟩
  · rw [Out.written_start]
    rfl
  · exact (UInt64.add_zero _).symm

/-- Bump the counter and write an event with the new number. -/
theorem Numbering.push (h : Numbering seqOf dec slots dec' out) {event : HotEvent}
    (hbump : seqOf dec'' = seqOf dec' + 1) (hevent : event.header.seq = seqOf dec'')
    (hroom : out.count < outCapacity) :
    Numbering seqOf dec slots dec'' (out.push event hroom) := by
  have hnext : seqOf dec'' = seqOf dec + UInt64.ofNat (out.count + 1) := by
    rw [hbump, h.seq_eq, UInt64.ofNat_add, UInt64.add_assoc]
    rfl
  refine ⟨h.untouched.push event hroom, ?_, hnext, fun h0 => absurd h0 (Nat.succ_ne_zero _)⟩
  show _ = (List.range (out.count + 1)).map fun k => seqOf dec + UInt64.ofNat (k + 1)
  rw [Out.written_push, List.map_append, h.numbered, List.range_succ, List.map_append,
    List.map_singleton, List.map_singleton, hevent, hnext]

theorem Numbering.callSpec (h : Numbering seqOf dec slots dec' out) :
    CallSpec seqOf dec slots (dec', out.slots, out.count) :=
  ⟨out.count_le, h.untouched, h.numbered, h.seq_eq, h.unchanged⟩

/-- A call that writes nothing. -/
theorem CallSpec.zero (seqOf : δ → SeqNum) (dec : δ) (slots : OutBuffer) :
    CallSpec seqOf dec slots (dec, slots, 0) :=
  (Numbering.start seqOf dec slots).callSpec

/-- A call that writes one event to the first slot. -/
theorem CallSpec.one (slots : OutBuffer) {event : HotEvent} (hbump : seqOf dec' = seqOf dec + 1)
    (hevent : event.header.seq = seqOf dec') (h : 0 < outCapacity) :
    CallSpec seqOf dec slots (dec', slots.set 0 event h, 1) :=
  ((Numbering.start seqOf dec slots).push hbump hevent h).callSpec

end Numbering

section Stream

variable {δ : Type} (decode : δ → Frame → OutBuffer → δ × OutBuffer × Nat)

/-- The events written over all decode calls of a stream. -/
def decoded : δ → OutBuffer → List Frame → List HotEvent
  | _, _, [] => []
  | dec, out, frame :: frames =>
      announced (decode dec frame out) ++
        decoded (decode dec frame out).1 (decode dec frame out).2.1 frames

/-- Numbers that follow one another stay so when streams are joined. -/
theorem numbers_append (s : SeqNum) (m n : Nat) :
    ((List.range m).map fun k => s + UInt64.ofNat (k + 1)) ++
        ((List.range n).map fun k => s + UInt64.ofNat m + UInt64.ofNat (k + 1)) =
      (List.range (m + n)).map fun k => s + UInt64.ofNat (k + 1) := by
  rw [List.range_add, List.map_append, List.map_map]
  refine congrArg₂ (· ++ ·) rfl (List.map_congr_left fun k _ => ?_)
  show s + UInt64.ofNat m + UInt64.ofNat (k + 1) = s + UInt64.ofNat (m + k + 1)
  rw [UInt64.add_assoc, ← UInt64.ofNat_add, Nat.add_assoc]

variable {decode} {seqOf : δ → SeqNum}

/-- Over a whole stream the numbers go up by one from event to event. -/
theorem decoded_seq (hcall : ∀ dec frame out, CallSpec seqOf dec out (decode dec frame out))
    (dec : δ) (out : OutBuffer) (frames : List Frame) :
    (decoded decode dec out frames).map (·.header.seq) =
      (List.range (decoded decode dec out frames).length).map
        fun k => seqOf dec + UInt64.ofNat (k + 1) := by
  induction frames generalizing dec out with
  | nil => rfl
  | cons frame frames ih =>
      have hspec := hcall dec frame out
      simp only [decoded, List.map_append, List.length_append]
      rw [ih, hspec.numbered, hspec.seq_eq, hspec.length_announced, numbers_append]

end Stream

/-! ### The callback -/

/-- The state of the callback closure: the decoder, the buffer, whatever `push` captures,
and the two counters. The accepted events are recorded for the statements below. -/
structure FeedCallback (δ σ : Type) where
  decoder : δ
  out : OutBuffer
  sink : σ
  eventCount : UInt64
  dropCount : UInt64
  accepted : List HotEvent

namespace FeedCallback

variable {δ σ : Type}

/-- `build_callback`: both counters start at zero. -/
def build (decoder : δ) (sink : σ) : FeedCallback δ σ := ⟨decoder, makeOut, sink, 0, 0, []⟩

variable (decode : δ → Frame → OutBuffer → δ × OutBuffer × Nat) (push : σ → HotEvent → σ × Bool)

/-- Push one event; a refused event is counted and dropped. -/
def offer (cb : FeedCallback δ σ) (event : HotEvent) : FeedCallback δ σ :=
  match push cb.sink event with
  | (sink, true) => { cb with sink := sink, accepted := cb.accepted ++ [event] }
  | (sink, false) => { cb with sink := sink, dropCount := cb.dropCount + 1 }

/-- One invocation of the callback. -/
def onFrame (cb : FeedCallback δ σ) (frame : Frame) : FeedCallback δ σ :=
  let (decoder, out, count) := decode cb.decoder frame cb.out
  let cb := { cb with eventCount := cb.eventCount + 1, decoder := decoder, out := out }
  (out.toList.take count).foldl (offer push) cb

variable {decode} {push}

/-- Of `events`, offered one after the other between `cb` and `cb'`, some were accepted,
in order, and the others counted as dropped. -/
def Offers (cb cb' : FeedCallback δ σ) (events : List HotEvent) : Prop :=
  ∃ taken drops, cb'.accepted = cb.accepted ++ taken ∧ taken.Sublist events ∧
    cb'.dropCount = cb.dropCount + UInt64.ofNat drops ∧ taken.length + drops = events.length

theorem Offers.nil {cb cb' : FeedCallback δ σ} (haccepted : cb'.accepted = cb.accepted)
    (hdrop : cb'.dropCount = cb.dropCount) : Offers cb cb' [] := by
  refine ⟨[], 0, ?_, .slnil, ?_, rfl⟩
  · rw [haccepted, List.append_nil]
  · rw [hdrop]
    exact (UInt64.add_zero _).symm

theorem Offers.append {a b c : FeedCallback δ σ} {events events' : List HotEvent}
    (hab : Offers a b events) (hbc : Offers b c events') : Offers a c (events ++ events') := by
  obtain ⟨taken, drops, haccepted, hsub, hdrop, hlen⟩ := hab
  obtain ⟨taken', drops', haccepted', hsub', hdrop', hlen'⟩ := hbc
  refine ⟨taken ++ taken', drops + drops', ?_, hsub.append hsub', ?_, ?_⟩
  · rw [haccepted', haccepted, List.append_assoc]
  · rw [hdrop', hdrop, UInt64.ofNat_add, UInt64.add_assoc]
  · rw [List.length_append, List.length_append]
    omega

theorem offers_offer (cb : FeedCallback δ σ) (event : HotEvent) :
    Offers cb (cb.offer push event) [event] := by
  rcases hpush : push cb.sink event with ⟨sink, accepted⟩
  cases accepted with
  | true =>
      refine ⟨[event], 0, ?_, List.Sublist.refl _, ?_, rfl⟩
      · simp only [offer, hpush]
      · simp only [offer, hpush]
        exact (UInt64.add_zero _).symm
  | false =>
      refine ⟨[], 1, ?_, List.nil_sublist _, ?_, rfl⟩
      · simp only [offer, hpush, List.append_nil]
      · simp only [offer, hpush]
        rfl

theorem offer_decoder (push : σ → HotEvent → σ × Bool) (cb : FeedCallback δ σ) (event : HotEvent) :
    (cb.offer push event).decoder = cb.decoder ∧ (cb.offer push event).out = cb.out := by
  simp only [offer]
  split <;> exact ⟨rfl, rfl⟩

/-- The loop of the callback: decoder and buffer stay, every event is accounted for. -/
theorem offers_foldl (cb : FeedCallback δ σ) (events : List HotEvent) :
    Offers cb (events.foldl (offer push) cb) events ∧
      (events.foldl (offer push) cb).decoder = cb.decoder ∧
      (events.foldl (offer push) cb).out = cb.out := by
  induction events generalizing cb with
  | nil => exact ⟨.nil rfl rfl, rfl, rfl⟩
  | cons event events ih =>
      obtain ⟨hrest, hdec, hout⟩ := ih (cb.offer push event)
      obtain ⟨hdec', hout'⟩ := offer_decoder push cb event
      exact ⟨(offers_offer cb event).append hrest, hdec.trans hdec', hout.trans hout'⟩

theorem offers_onFrame (decode : δ → Frame → OutBuffer → δ × OutBuffer × Nat)
    (push : σ → HotEvent → σ × Bool) (cb : FeedCallback δ σ) (frame : Frame) :
    Offers cb (cb.onFrame decode push frame) (announced (decode cb.decoder frame cb.out)) ∧
      (cb.onFrame decode push frame).decoder = (decode cb.decoder frame cb.out).1 ∧
      (cb.onFrame decode push frame).out = (decode cb.decoder frame cb.out).2.1 :=
  offers_foldl _ _

/-- **Accounting.** Every event written over a stream was accepted or counted as dropped. -/
theorem offers_run (decode : δ → Frame → OutBuffer → δ × OutBuffer × Nat)
    (push : σ → HotEvent → σ × Bool) (cb : FeedCallback δ σ) (frames : List Frame) :
    Offers cb (run (onFrame decode push) cb frames) (decoded decode cb.decoder cb.out frames) := by
  induction frames generalizing cb with
  | nil => exact .nil rfl rfl
  | cons frame frames ih =>
      obtain ⟨hfirst, hdec, hout⟩ := offers_onFrame decode push cb frame
      have hrest := ih (cb.onFrame decode push frame)
      rw [hdec, hout] at hrest
      exact hfirst.append hrest

/-- The same from a new callback, whose counters are zero. -/
theorem build_offers (decode : δ → Frame → OutBuffer → δ × OutBuffer × Nat)
    (push : σ → HotEvent → σ × Bool) (dec : δ) (sink : σ) (frames : List Frame) :
    (run (onFrame decode push) (.build dec sink) frames).accepted.Sublist
        (decoded decode dec makeOut frames) ∧
      ∃ drops, (run (onFrame decode push) (.build dec sink) frames).dropCount =
          UInt64.ofNat drops ∧
        (run (onFrame decode push) (.build dec sink) frames).accepted.length + drops =
          (decoded decode dec makeOut frames).length := by
  obtain ⟨taken, drops, haccepted, hsub, hdrop, hlen⟩ :=
    offers_run decode push (.build dec sink) frames
  have htaken : (run (onFrame decode push) (.build dec sink) frames).accepted = taken := haccepted
  rw [htaken]
  exact ⟨hsub, drops, hdrop.trans (UInt64.zero_add _), hlen⟩

variable {seqOf : δ → SeqNum}

/-- The counter of the decoder has moved by the number of events written. -/
theorem run_seq (hcall : ∀ dec frame out, CallSpec seqOf dec out (decode dec frame out))
    (push : σ → HotEvent → σ × Bool) (cb : FeedCallback δ σ) (frames : List Frame) :
    seqOf (run (onFrame decode push) cb frames).decoder =
      seqOf cb.decoder + UInt64.ofNat (decoded decode cb.decoder cb.out frames).length := by
  induction frames generalizing cb with
  | nil => exact (UInt64.add_zero _).symm
  | cons frame frames ih =>
      obtain ⟨-, hdec, hout⟩ := offers_onFrame decode push cb frame
      have hspec := hcall cb.decoder frame cb.out
      rw [run_cons, ih, hdec, hout, hspec.seq_eq]
      simp only [decoded, List.length_append]
      rw [hspec.length_announced, UInt64.ofNat_add, UInt64.add_assoc]

end FeedCallback

/-! ### The log of a stream -/

/-- The events `push` took. -/
def acceptedOf (entries : List (HotEvent × Bool)) : List HotEvent :=
  (entries.filter fun entry => entry.2).map fun entry => entry.1

@[simp] theorem acceptedOf_append (entries entries' : List (HotEvent × Bool)) :
    acceptedOf (entries ++ entries') = acceptedOf entries ++ acceptedOf entries' := by
  simp [acceptedOf]

theorem mem_acceptedOf {entries : List (HotEvent × Bool)} {event : HotEvent} :
    event ∈ acceptedOf entries ↔ (event, true) ∈ entries := by
  simp [acceptedOf]

/-- An accepted event stands in the log. -/
theorem acceptedOf_eq_append_cons {entries : List (HotEvent × Bool)} {pre post : List HotEvent}
    {event : HotEvent} (h : acceptedOf entries = pre ++ event :: post) :
    ∃ entries₁ entries₂, entries = entries₁ ++ (event, true) :: entries₂ ∧
      acceptedOf entries₁ = pre ∧ acceptedOf entries₂ = post := by
  obtain ⟨taken₁, taken₂, hfilter, hpre, hrest⟩ := List.map_eq_append_iff.mp h
  obtain ⟨entry, taken₃, rfl, rfl, hpost⟩ := List.map_eq_cons_iff.mp hrest
  obtain ⟨entries₁, rest, rfl, hfilter₁, hfilter₂⟩ := List.filter_eq_append_iff.mp hfilter
  obtain ⟨skipped, entries₂, rfl, hskipped, hentry, hfilter₃⟩ :=
    List.filter_eq_cons_iff.mp hfilter₂
  have hnone : acceptedOf skipped = [] := by
    simp only [acceptedOf]
    rw [List.filter_eq_nil_iff.mpr hskipped]
    rfl
  refine ⟨entries₁ ++ skipped, entries₂, ?_, ?_, ?_⟩
  · rw [List.append_assoc, show (entry.1, true) = entry from Prod.ext rfl hentry.symm]
  · rw [acceptedOf_append, hnone, List.append_nil, ← hpre, ← hfilter₁]
    rfl
  · rw [← hpost, ← hfilter₃]
    rfl

section Log

variable {δ σ : Type} (decode : δ → Frame → OutBuffer → δ × OutBuffer × Nat)
  (push : σ → HotEvent → σ × Bool)

/-- What `push` answers to events offered one after the other. -/
def answers : σ → List HotEvent → σ × List (HotEvent × Bool)
  | sink, [] => (sink, [])
  | sink, event :: events =>
      ((answers (push sink event).1 events).1,
        (event, (push sink event).2) :: (answers (push sink event).1 events).2)

/-- The batch of every frame of a stream, with the answers of `push`. -/
def eventLog : δ → OutBuffer → σ → List Frame → List (List (HotEvent × Bool))
  | _, _, _, [] => []
  | dec, out, sink, frame :: frames =>
      (answers push sink (announced (decode dec frame out))).2 ::
        eventLog (decode dec frame out).1 (decode dec frame out).2.1
          (answers push sink (announced (decode dec frame out))).1 frames

theorem answers_fst (sink : σ) (events : List HotEvent) :
    (answers push sink events).2.map (·.1) = events := by
  induction events generalizing sink with
  | nil => rfl
  | cons event events ih =>
      simp only [answers, List.map_cons]
      rw [ih]

/-- The loop of the callback goes by the same answers. -/
theorem foldl_offer (cb : FeedCallback δ σ) (events : List HotEvent) :
    (events.foldl (FeedCallback.offer push) cb).sink = (answers push cb.sink events).1 ∧
      (events.foldl (FeedCallback.offer push) cb).accepted =
        cb.accepted ++ acceptedOf (answers push cb.sink events).2 := by
  induction events generalizing cb with
  | nil => exact ⟨rfl, (List.append_nil _).symm⟩
  | cons event events ih =>
      obtain ⟨hsink, haccepted⟩ := ih (cb.offer push event)
      rw [List.foldl_cons, hsink, haccepted]
      rcases hpush : push cb.sink event with ⟨sink, ok⟩
      cases ok with
      | true =>
          simp only [FeedCallback.offer, answers, hpush]
          exact ⟨trivial, by simp [acceptedOf]⟩
      | false =>
          simp only [FeedCallback.offer, answers, hpush]
          exact ⟨trivial, by simp [acceptedOf]⟩

/-- The events accepted over a stream are those the log marks so, in order. -/
theorem accepted_run (cb : FeedCallback δ σ) (frames : List Frame) :
    (run (FeedCallback.onFrame decode push) cb frames).accepted = cb.accepted ++
      acceptedOf (eventLog decode push cb.decoder cb.out cb.sink frames).flatten := by
  induction frames generalizing cb with
  | nil => exact (List.append_nil _).symm
  | cons frame frames ih =>
      obtain ⟨-, hdec, hout⟩ := FeedCallback.offers_onFrame decode push cb frame
      obtain ⟨hsink, haccepted⟩ : (cb.onFrame decode push frame).sink =
          (answers push cb.sink (announced (decode cb.decoder frame cb.out))).1 ∧
          (cb.onFrame decode push frame).accepted = cb.accepted ++
            acceptedOf (answers push cb.sink (announced (decode cb.decoder frame cb.out))).2 :=
        foldl_offer push _ _
      rw [run_cons, ih, hdec, hout, hsink, haccepted]
      simp only [eventLog, List.flatten_cons, acceptedOf_append, List.append_assoc]

variable {decode}

/-- What holds of the batch of every decode call holds of every batch of the log. -/
theorem eventLog_forall {P : List HotEvent → Prop}
    (hcall : ∀ dec frame out, P (announced (decode dec frame out))) (dec : δ) (out : OutBuffer)
    (sink : σ) (frames : List Frame) :
    ∀ batch ∈ eventLog decode push dec out sink frames, P (batch.map (·.1)) := by
  induction frames generalizing dec out sink with
  | nil => simp [eventLog]
  | cons frame frames ih =>
      intro batch hbatch
      rcases List.mem_cons.mp hbatch with rfl | hbatch
      · rw [answers_fst]
        exact hcall dec frame out
      · exact ih _ _ _ batch hbatch

end Log

end Mantis

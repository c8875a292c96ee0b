import Mantis.Tape.EngineThread
import Mathlib.Data.List.Chain

/-!
# What the engine thread says

`replay` is the telemetry of the engine thread as a function of the events it has taken,
newest first: no cached best price, no book, no last state. `engine_replays` says that the
thread computes it, however its two rings are filled, so every number it says can be checked
against the events alone.

`tops_alternate` is what makes the state tape worth having: between two entries of a share
its best bid or ask has changed, and none of them is crossed.
-/

namespace Mantis

namespace Tape

/-- An event taken from one of the rings. -/
inductive Popped
  | pm (ev : FeedEvent)
  | ref (ev : FeedEvent)

/-! ### The state from the events, newest first

Each function reads back to the last events that matter to it, those of one share or one
reference, and keeps nothing in between. -/

/-- The sizes of one side of a share. -/
def sizesAt (isBid : Bool) (i : Nat) : List Popped → Sizes
  | [] => fun _ => 0
  | .ref _ :: older => sizesAt isBid i older
  | .pm ev :: older =>
      if ev.instrumentId.toNat = i then
        match ev.kind with
        | .pmBookClear => fun _ => 0
        | .pmDelta =>
            if (ev.side == sideBuy) = isBid then
              EngineBook.write (sizesAt isBid i older) ev.priceMilli ev.size
            else sizesAt isBid i older
        | _ => sizesAt isBid i older
      else sizesAt isBid i older

/-- The time of the clear a share is still being refilled after, else zero. -/
def snapshotAt (i : Nat) : List Popped → Int64
  | [] => 0
  | .ref _ :: older => snapshotAt i older
  | .pm ev :: older =>
      if ev.instrumentId.toNat = i then
        match ev.kind with
        | .pmBookClear => ev.localNs
        | .pmDelta => if ev.localNs = snapshotAt i older then snapshotAt i older else 0
        | _ => snapshotAt i older
      else snapshotAt i older

/-- The levels of one side of a reference since it was cleared, twenty at most. -/
def levelsAt (isBid : Bool) (i : Nat) : List Popped → List BnBookLevel
  | [] => []
  | .pm _ :: older => levelsAt isBid i older
  | .ref ev :: older =>
      if ev.instrumentId.toNat % 16 = i then
        match ev.kind with
        | .pmBookClear => []
        | .bnDepth =>
            if ev.side = (if isBid then sideBuy else sideSell) then
              (levelsAt isBid i older ++ [(⟨ev.price, ev.size⟩ : BnBookLevel)]).take 20
            else levelsAt isBid i older
        | _ => levelsAt isBid i older
      else levelsAt isBid i older

variable (ops : EngineOps) (cfg : EngineConfig)

/-- The last best prices of the reference that were both there. -/
def btcAt : List Popped → Btc
  | [] => ⟨0, 0, 0⟩
  | .pm _ :: older => btcAt older
  | .ref ev :: older =>
      if ev.kind = .bnBbo ∧ ops.lt 0 ev.bnBid && ops.lt 0 ev.bnAsk then
        ⟨ops.div (ops.add ev.bnBid ev.bnAsk) EngineOps.two, ev.bnBid, ev.bnAsk⟩
      else btcAt older

def bboAt (i : Nat) (events : List Popped) : Float64 × Float64 :=
  (((sizesAt true i events).top ops true).1, ((sizesAt false i events).top ops false).1)

/-- A delta that ends outside a snapshot: the prices are looked at. -/
def looksAt (i : Nat) : List Popped → Bool
  | .pm ev :: older =>
      ev.instrumentId.toNat = i && ev.kind = .pmDelta && snapshotAt i (.pm ev :: older) = 0 &&
        validBbo ops (bboAt ops i (.pm ev :: older))
  | _ => false

/-- The best prices when they were last looked at. -/
def lastBboAt (i : Nat) : List Popped → Float64 × Float64
  | [] => (0, 0)
  | p :: older => if looksAt ops i (p :: older) then bboAt ops i (p :: older) else lastBboAt i older

/-! ### The telemetry from the events

What is said of an event is a function of the event and of the state it leaves; whether it is
said at all depends on the snapshot of its share, and for the best prices on the last ones. -/

/-- The book an event is shown with. -/
def viewAt (ev : FeedEvent) (events : List Popped) : View :=
  if cfg.isRef ev.instrumentId.toNat then
    BnBook.viewOf ops (levelsAt true (bookIdx ev) events) (levelsAt false (bookIdx ev) events)
  else EngineBook.viewOf ops (sizesAt true (bookIdx ev) events) (sizesAt false (bookIdx ev) events)

/-- What is said of an event, the books being those of `events`. -/
def said (ev : FeedEvent) (telKind : TelemetryKind) (events : List Popped) : TelemetryEvent :=
  telemetryEvent ops cfg ev telKind (viewAt ops cfg ev events) (btcAt ops events)

/-- The best prices of a share are looked at and are not those of the last time. -/
def changesAt (i : Nat) (p : Popped) (older : List Popped) : Bool :=
  looksAt ops i (p :: older) && changedBbo ops (lastBboAt ops i older) (bboAt ops i (p :: older))

/-- The telemetry of one event. -/
def telemetryAt (p : Popped) (older : List Popped) : List TelemetryEvent :=
  match p with
  | .pm ev =>
      if ev.instrumentId.toNat < 16 then
        match ev.kind with
        | .pmDelta =>
            if snapshotAt ev.instrumentId.toNat (p :: older) ≠ 0 then []
            else
              (if changesAt ops ev.instrumentId.toNat p older then
                [said ops cfg ev .topOfBook (p :: older)]
              else []) ++ [said ops cfg ev .bookUpdate (p :: older)]
        | .pmTrade => [said ops cfg ev .trade (p :: older)]
        | _ => []
      else []
  | .ref ev =>
      match ev.kind with
      | .bnBbo => [said ops cfg ev .bnBbo (p :: older)]
      | .bnTrade => [said ops cfg ev .bnTrade (p :: older)]
      | .pmBookClear | .bnDepth => [said ops cfg ev .bnDepth (p :: older)]
      | _ => []

/-- The telemetry of a run. -/
def replay : List Popped → List TelemetryEvent
  | [] => []
  | p :: older => replay older ++ telemetryAt ops cfg p older

/-! ### One step of the thread

`Mirrors` is all that telemetry reads: the books and the last price of the reference. The
books may be refreshed while it is written, so it is stated by what they show. `Follows`
adds what decides whether there is telemetry at all. Each handler of the source has one
lemma that says where it leaves both and what it has said. -/

theorem get_set {α : Type} (v : Vector α 16) (i j : Fin 16) (x : α) :
    (v.set i x i.isLt).get j = if i = j then x else v.get j := by
  refine (Vector.getElem_set i.isLt j.isLt).trans (if_congr ?_ rfl rfl)
  exact Fin.ext_iff.symm

namespace EngineState

/-- The books are those of the events. -/
structure Mirrors (s : EngineState) (events : List Popped) : Prop where
  books : ∀ i : Fin 16,
    (s.books.get i).Shows ops (sizesAt true i events) (sizesAt false i events)
  refBooks : ∀ i : Fin 16,
    (s.refBooks.get i).Shows (levelsAt true i events) (levelsAt false i events)
  btc : s.btc = btcAt ops events

/-- So is what is remembered of them. -/
structure Follows (s : EngineState) (events : List Popped) : Prop extends
    s.Mirrors ops events where
  snapshotNs : ∀ i : Fin 16, s.snapshotNs.get i = snapshotAt i events
  lastBbo : ∀ i : Fin 16, s.lastBbo.get i = lastBboAt ops i events

variable {s : EngineState} {events : List Popped}

section

variable {ops}

/-- Putting a book back. -/
theorem Mirrors.set_book (h : s.Mirrors ops events) {i : Fin 16} {book : EngineBook}
    (hbook : book.Shows ops (sizesAt true i events) (sizesAt false i events)) :
    ({ s with books := s.books.set i book i.isLt } : EngineState).Mirrors ops events := by
  refine ⟨fun j => ?_, h.refBooks, h.btc⟩
  show ((s.books.set i book).get j).Shows ops _ _
  rw [get_set]
  split
  · next hij => exact hij ▸ hbook
  · exact h.books j

end

/-- Telemetry only refreshes a book. -/
theorem emitTelemetry_keeps (s : EngineState) (ev : FeedEvent) (telKind : TelemetryKind) :
    (s.emitTelemetry ops cfg ev telKind).snapshotNs = s.snapshotNs ∧
      (s.emitTelemetry ops cfg ev telKind).lastBbo = s.lastBbo := by
  simp only [emitTelemetry]
  split <;> exact ⟨rfl, rfl⟩

variable {ops}

/-- Telemetry shows the book of the event as the events give it, and refreshes its cache: the
book that is put back stands for the same sizes. -/
theorem Mirrors.emitTelemetry (hops : ops.Ordered) (h : s.Mirrors ops events) (ev : FeedEvent)
    (telKind : TelemetryKind) :
    (s.emitTelemetry ops cfg ev telKind).Mirrors ops events ∧
      (s.emitTelemetry ops cfg ev telKind).emitted =
        s.emitted ++ [said ops cfg ev telKind events] := by
  simp only [EngineState.emitTelemetry, said, viewAt]
  split
  · refine ⟨⟨h.books, h.refBooks, h.btc⟩, ?_⟩
    show s.emitted ++ [_] = _
    rw [(h.refBooks (bookIdx ev)).view, h.btc]
  · obtain ⟨hview, hshows⟩ := (h.books (bookIdx ev)).view hops
    obtain ⟨hbooks, hrefs, hbtc⟩ := h.set_book hshows
    refine ⟨⟨hbooks, hrefs, hbtc⟩, ?_⟩
    show s.emitted ++ [_] = _
    rw [hview, h.btc]

/-- Counting a change touches neither the books nor what is remembered of them. -/
theorem Mirrors.countChange (h : s.Mirrors ops events) (i : Fin 16) (bp ap : Float64) :
    (s.countChange ops i bp ap).Mirrors ops events := ⟨h.books, h.refBooks, h.btc⟩

/-- Best prices are announced if they differ from the last ones, and only then. -/
theorem Mirrors.announce (hops : ops.Ordered) (h : s.Mirrors ops events) (i : Fin 16)
    (ev : FeedEvent) (bbo : Float64 × Float64) :
    (s.announce ops cfg i ev bbo).Mirrors ops events ∧
      (s.announce ops cfg i ev bbo).snapshotNs = s.snapshotNs ∧
      (s.announce ops cfg i ev bbo).lastBbo = s.lastBbo ∧
      (s.announce ops cfg i ev bbo).emitted = s.emitted ++
        (if changedBbo ops (s.lastBbo.get i) bbo then [said ops cfg ev .topOfBook events]
        else []) := by
  rw [EngineState.announce]
  split
  · obtain ⟨hmirrors, hemitted⟩ :=
      (h.countChange i bbo.1 bbo.2).emitTelemetry cfg hops ev .topOfBook
    obtain ⟨hsnap, hlast⟩ :=
      emitTelemetry_keeps ops cfg (s.countChange ops i bbo.1 bbo.2) ev .topOfBook
    exact ⟨hmirrors, hsnap, hlast, hemitted⟩
  · exact ⟨h, rfl, rfl, (List.append_nil _).symm⟩

/-- Valid best prices are remembered whether they are announced or not; the others leave no
mark. -/
theorem Mirrors.observe (hops : ops.Ordered) (h : s.Mirrors ops events) (i : Fin 16)
    (ev : FeedEvent) (bbo : Float64 × Float64) :
    (s.observe ops cfg i ev bbo).Mirrors ops events ∧
      (s.observe ops cfg i ev bbo).snapshotNs = s.snapshotNs ∧
      (∀ j, (s.observe ops cfg i ev bbo).lastBbo.get j =
        if i = j ∧ validBbo ops bbo then bbo else s.lastBbo.get j) ∧
      (s.observe ops cfg i ev bbo).emitted = s.emitted ++
        (if validBbo ops bbo && changedBbo ops (s.lastBbo.get i) bbo then
          [said ops cfg ev .topOfBook events]
        else []) := by
  rw [EngineState.observe]
  cases hvalid : validBbo ops bbo with
  | false =>
      refine ⟨h, rfl, fun j => ?_, (List.append_nil _).symm⟩
      exact (if_neg (by simp)).symm
  | true =>
      obtain ⟨hmirrors, hsnap, hlast, hemitted⟩ := h.announce cfg hops i ev bbo
      refine ⟨⟨hmirrors.books, hmirrors.refBooks, hmirrors.btc⟩, hsnap, fun j => ?_, hemitted⟩
      refine (get_set _ i j bbo).trans ?_
      rw [hlast]
      exact if_congr (by simp) rfl rfl

/-- **Looking at the best prices** after a delta outside a snapshot. -/
theorem trackBbo_spec (hops : ops.Ordered) {ev : FeedEvent} {i : Fin 16}
    (h : s.Mirrors ops (.pm ev :: events))
    (hlast : ∀ j : Fin 16, s.lastBbo.get j = lastBboAt ops j events)
    (hid : ev.instrumentId.toNat = i) (hkind : ev.kind = .pmDelta)
    (hsnap : snapshotAt i (.pm ev :: events) = 0) :
    (s.trackBbo ops cfg i ev).Mirrors ops (.pm ev :: events) ∧
      (s.trackBbo ops cfg i ev).snapshotNs = s.snapshotNs ∧
      (∀ j : Fin 16, (s.trackBbo ops cfg i ev).lastBbo.get j =
        lastBboAt ops j (.pm ev :: events)) ∧
      (s.trackBbo ops cfg i ev).emitted = s.emitted ++
        (if changesAt ops i (.pm ev) events then
          [said ops cfg ev .topOfBook (.pm ev :: events)]
        else []) := by
  obtain ⟨htops, hshows⟩ := (h.books i).bestPrices hops
  -- the cached best prices are those of the sizes
  have hbbo : ((((s.books.get i).bestPrices ops).2.1.1, ((s.books.get i).bestPrices ops).2.2.1) :
      Float64 × Float64) = bboAt ops i (.pm ev :: events) := by
    rw [htops]
    rfl
  -- the event is looked at for its own share only
  have hlooks : ∀ j : Fin 16, looksAt ops j (.pm ev :: events) =
      (decide (i = j) && validBbo ops (bboAt ops i (.pm ev :: events))) := fun j => by
    by_cases hij : i = j
    · subst hij
      simp [looksAt, hid, hkind, hsnap]
    · have hne : ev.instrumentId.toNat ≠ j.val := fun h => hij (Fin.ext (hid.symm.trans h))
      simp [looksAt, hne, hij]
  obtain ⟨hmirrors, hsnapKept, hbboKept, hemitted⟩ :=
    (h.set_book hshows).observe cfg hops i ev (bboAt ops i (.pm ev :: events))
  rw [trackBbo, hbbo]
  refine ⟨hmirrors, hsnapKept, fun j => (hbboKept j).trans ?_, hemitted.trans ?_⟩
  · rw [lastBboAt, hlooks]
    by_cases hij : i = j
    · subst hij
      simp [hlast]
    · simp [hij, hlast]
  · simp [changesAt, hlooks, hlast]

/-- A delta of another time than the clear ends the snapshot of its share, and nothing else. -/
theorem leaveSnapshot_spec (s : EngineState) (i : Fin 16) (ev : FeedEvent) :
    (s.leaveSnapshot i ev).books = s.books ∧ (s.leaveSnapshot i ev).refBooks = s.refBooks ∧
      (s.leaveSnapshot i ev).btc = s.btc ∧ (s.leaveSnapshot i ev).lastBbo = s.lastBbo ∧
      (s.leaveSnapshot i ev).emitted = s.emitted ∧
      ∀ j, (s.leaveSnapshot i ev).snapshotNs.get j =
        if i = j ∧ ev.localNs ≠ s.snapshotNs.get i then 0 else s.snapshotNs.get j := by
  simp only [leaveSnapshot]
  split
  · next hleaves =>
      refine ⟨rfl, rfl, rfl, rfl, rfl, fun j => (get_set _ i j 0).trans (if_congr ?_ rfl rfl)⟩
      exact ⟨fun hij => ⟨hij, hleaves.2⟩, fun hij => hij.1⟩
  · next hstays =>
      refine ⟨rfl, rfl, rfl, rfl, rfl, fun j => ?_⟩
      split
      · next hother =>
          obtain ⟨rfl, hne⟩ := hother
          by_contra hzero
          exact hstays ⟨hzero, hne⟩
      · rfl

/-- The books with a delta. -/
theorem Mirrors.applyDelta (h : s.Mirrors ops events) {ev : FeedEvent} {i : Fin 16}
    (hid : ev.instrumentId.toNat = i) (hkind : ev.kind = .pmDelta) :
    ({ s with
      books := s.books.set i
        ((s.books.get i).applyLevel (ev.side == sideBuy) ev.priceMilli ev.size) i.isLt } :
        EngineState).Mirrors ops (.pm ev :: events) := by
  refine ⟨fun j => ?_, h.refBooks, h.btc⟩
  show ((s.books.set i _ i.isLt).get j).Shows ops _ _
  rw [get_set]
  by_cases hij : i = j
  · subst hij
    have hshows := (h.books i).applyLevel (ev.side == sideBuy) ev.priceMilli ev.size
    rw [if_pos rfl]
    cases hside : ev.side == sideBuy <;> simpa [sizesAt, hid, hkind, hside] using hshows
  · have hne : ev.instrumentId.toNat ≠ j.val := fun h => hij (Fin.ext (hid.symm.trans h))
    rw [if_neg hij]
    simpa [sizesAt, hne] using h.books j

/-- The snapshots after a delta. -/
theorem leaveSnapshot_snapshotAt {ev : FeedEvent} {i : Fin 16}
    (h : ∀ j : Fin 16, s.snapshotNs.get j = snapshotAt j events)
    (hid : ev.instrumentId.toNat = i) (hkind : ev.kind = .pmDelta) (j : Fin 16) :
    (s.leaveSnapshot i ev).snapshotNs.get j = snapshotAt j (.pm ev :: events) := by
  obtain ⟨-, -, -, -, -, hsnap⟩ := leaveSnapshot_spec s i ev
  rw [hsnap]
  by_cases hij : i = j
  · subst hij
    simp only [snapshotAt, hid, hkind, if_true, h, true_and]
    by_cases hsame : ev.localNs = snapshotAt i events <;> simp [hsame]
  · have hne : ev.instrumentId.toNat ≠ j.val := fun h => hij (Fin.ext (hid.symm.trans h))
    simp [snapshotAt, hne, hij, h]

/-- A delta of a snapshot does not look at the prices. -/
theorem lastBboAt_snapshot {ev : FeedEvent} {i : Fin 16} (hid : ev.instrumentId.toNat = i)
    (hopen : snapshotAt i (.pm ev :: events) ≠ 0) (j : Fin 16) :
    lastBboAt ops j (.pm ev :: events) = lastBboAt ops j events := by
  have hnot : looksAt ops j (.pm ev :: events) = false := by
    by_cases hij : i = j
    · subst hij
      simp [looksAt, hopen]
    · have hne : ev.instrumentId.toNat ≠ j.val := fun h => hij (Fin.ext (hid.symm.trans h))
      simp [looksAt, hne]
  rw [lastBboAt, hnot]
  rfl

/-- **A delta of a share.** -/
theorem Follows.onDelta (hops : ops.Ordered) (h : s.Follows ops events) {ev : FeedEvent}
    {i : Fin 16} (hid : ev.instrumentId.toNat = i) (hkind : ev.kind = .pmDelta) :
    (s.onDelta ops cfg i ev).Follows ops (.pm ev :: events) ∧
      (s.onDelta ops cfg i ev).emitted = s.emitted ++ telemetryAt ops cfg (.pm ev) events := by
  have hdelta := h.toMirrors.applyDelta hid hkind
  simp only [EngineState.onDelta]
  generalize hbook : (s.books.get i).applyLevel (ev.side == sideBuy) ev.priceMilli ev.size =
    book at hdelta
  -- the snapshot it may end
  have hsnap := leaveSnapshot_snapshotAt (s := { s with books := s.books.set i book i.isLt })
    h.snapshotNs hid hkind
  obtain ⟨hb, hr, hc, hl, he, -⟩ :=
    leaveSnapshot_spec { s with books := s.books.set i book i.isLt } i ev
  generalize ({ s with books := s.books.set i book i.isLt } : EngineState).leaveSnapshot i ev =
    s' at *
  have hmirrors : s'.Mirrors ops (.pm ev :: events) := by
    refine ⟨fun j => ?_, fun j => ?_, ?_⟩
    · rw [hb]
      exact hdelta.books j
    · rw [hr]
      exact hdelta.refBooks j
    · rw [hc]
      exact hdelta.btc
  have hlast : ∀ j : Fin 16, s'.lastBbo.get j = lastBboAt ops j events := fun j => by
    rw [hl]
    exact h.lastBbo j
  rw [hsnap]
  by_cases hopen : snapshotAt i (.pm ev :: events) = 0
  · -- the best prices first, if they are new, and then the delta
    rw [if_neg (not_not.mpr hopen)]
    obtain ⟨htracked, hsnapKept, hlastNow, hemitted⟩ :=
      trackBbo_spec cfg hops hmirrors hlast hid hkind hopen
    obtain ⟨hdone, htold⟩ := htracked.emitTelemetry cfg hops ev .bookUpdate
    obtain ⟨hsnapLast, hlastLast⟩ :=
      emitTelemetry_keeps ops cfg (s'.trackBbo ops cfg i ev) ev .bookUpdate
    refine ⟨⟨hdone, fun j => ?_, fun j => ?_⟩, ?_⟩
    · rw [hsnapLast, hsnapKept]
      exact hsnap j
    · rw [hlastLast]
      exact hlastNow j
    · rw [htold, hemitted, he, List.append_assoc]
      simp [telemetryAt, hid, hkind, hopen]
  · -- the book is still being refilled: nothing is said and nothing remembered
    rw [if_pos hopen]
    refine ⟨⟨hmirrors, hsnap, fun j => ?_⟩, ?_⟩
    · rw [hlast, lastBboAt_snapshot hid hopen]
    · rw [he]
      simp [telemetryAt, hid, hkind, hopen]

/-- Telemetry of an event that has been accounted for. -/
theorem Follows.emitTelemetry (hops : ops.Ordered) (h : s.Follows ops events) (ev : FeedEvent)
    (telKind : TelemetryKind) :
    (s.emitTelemetry ops cfg ev telKind).Follows ops events ∧
      (s.emitTelemetry ops cfg ev telKind).emitted =
        s.emitted ++ [said ops cfg ev telKind events] := by
  obtain ⟨hmirrors, hemitted⟩ := h.toMirrors.emitTelemetry cfg hops ev telKind
  obtain ⟨hsnap, hlast⟩ := emitTelemetry_keeps ops cfg s ev telKind
  refine ⟨⟨hmirrors, fun j => ?_, fun j => ?_⟩, hemitted⟩
  · rw [hsnap]
    exact h.snapshotNs j
  · rw [hlast]
    exact h.lastBbo j

/-- Only clears and deltas of a share that has a book change the state of a share. -/
theorem Follows.skip (h : s.Follows ops events) {ev : FeedEvent}
    (hskip : ∀ j : Fin 16, ev.instrumentId.toNat = j →
      ev.kind ≠ .pmBookClear ∧ ev.kind ≠ .pmDelta) : s.Follows ops (.pm ev :: events) := by
  -- the event either is of no share or of a kind that the replay skips too
  have hsizes : ∀ isBid, ∀ j : Fin 16, sizesAt isBid j (.pm ev :: events) =
      sizesAt isBid j events := fun isBid j => by
    by_cases hid : ev.instrumentId.toNat = j
    · obtain ⟨hclear, hdelta⟩ := hskip j hid
      cases hkind : ev.kind <;> simp_all [sizesAt]
    · simp [sizesAt, hid]
  have hlooks : ∀ j : Fin 16, looksAt ops j (.pm ev :: events) = false := fun j => by
    by_cases hid : ev.instrumentId.toNat = j
    · simp [looksAt, (hskip j hid).2]
    · simp [looksAt, hid]
  refine ⟨⟨fun j => ?_, h.refBooks, h.btc⟩, fun j => ?_, fun j => ?_⟩
  · rw [hsizes, hsizes]
    exact h.books j
  · rw [h.snapshotNs]
    by_cases hid : ev.instrumentId.toNat = j
    · obtain ⟨hclear, hdelta⟩ := hskip j hid
      cases hkind : ev.kind <;> simp_all [snapshotAt]
    · simp [snapshotAt, hid]
  · rw [lastBboAt, hlooks]
    exact h.lastBbo j

/-- **A clear of a share.** -/
theorem Follows.clear (h : s.Follows ops events) {ev : FeedEvent} {i : Fin 16}
    (hid : ev.instrumentId.toNat = i) (hkind : ev.kind = .pmBookClear) :
    ({ s with
      books := s.books.set i (s.books.get i).clear
      snapshotNs := s.snapshotNs.set i ev.localNs } : EngineState).Follows ops
        (.pm ev :: events) := by
  have hother : ∀ j : Fin 16, i ≠ j → ev.instrumentId.toNat ≠ j.val := fun j hij h =>
    hij (Fin.ext (hid.symm.trans h))
  refine ⟨⟨fun j => ?_, h.refBooks, h.btc⟩, fun j => ?_, fun j => ?_⟩
  · rw [get_set]
    by_cases hij : i = j
    · subst hij
      simpa [sizesAt, hid, hkind] using (h.books i).clear
    · simpa [sizesAt, hother j hij, hij] using h.books j
  · rw [get_set]
    by_cases hij : i = j
    · subst hij
      simp [snapshotAt, hid, hkind]
    · simp [snapshotAt, hother j hij, hij, h.snapshotNs]
  · have hnot : looksAt ops j (.pm ev :: events) = false := by simp [looksAt, hkind]
    rw [lastBboAt, hnot]
    exact h.lastBbo j

/-- **One event of the share ring.** -/
theorem Follows.onPm (hops : ops.Ordered) (h : s.Follows ops events) (ev : FeedEvent) :
    (s.onPm ops cfg ev).Follows ops (.pm ev :: events) ∧
      (s.onPm ops cfg ev).emitted = s.emitted ++ telemetryAt ops cfg (.pm ev) events := by
  rw [EngineState.onPm]
  split
  · next hid =>
      have hothers : ev.kind ≠ .pmBookClear → ev.kind ≠ .pmDelta →
          s.Follows ops (.pm ev :: events) := fun hclear hdelta =>
        h.skip fun _ _ => ⟨hclear, hdelta⟩
      cases hkind : ev.kind with
      | pmBookClear =>
          refine ⟨h.clear rfl hkind, ?_⟩
          simp [telemetryAt, hid, hkind]
      | pmDelta => exact h.onDelta cfg hops rfl hkind
      | pmTrade =>
          obtain ⟨hfollows, hemitted⟩ :=
            (hothers (by simp [hkind]) (by simp [hkind])).emitTelemetry cfg hops ev .trade
          refine ⟨hfollows, hemitted.trans ?_⟩
          simp [telemetryAt, hid, hkind]
      | none | bnBbo | bnTrade | bnDepth | shutdown =>
          refine ⟨hothers (by simp [hkind]) (by simp [hkind]), ?_⟩
          simp [telemetryAt, hid, hkind]
  · next hid =>
      refine ⟨h.skip fun j hj => absurd (hj ▸ j.isLt) hid, ?_⟩
      simp [telemetryAt, hid]

/-- The reference ring does not touch the shares. -/
theorem Follows.ref (h : s.Follows ops events) {ev : FeedEvent} {s' : EngineState}
    (hbooks : s'.books = s.books) (hsnap : s'.snapshotNs = s.snapshotNs)
    (hlast : s'.lastBbo = s.lastBbo)
    (hrefs : ∀ i : Fin 16, (s'.refBooks.get i).Shows (levelsAt true i (.ref ev :: events))
      (levelsAt false i (.ref ev :: events)))
    (hbtc : s'.btc = btcAt ops (.ref ev :: events)) : s'.Follows ops (.ref ev :: events) := by
  refine ⟨⟨fun j => ?_, hrefs, hbtc⟩, fun j => ?_, fun j => ?_⟩
  · rw [hbooks]
    exact h.books j
  · rw [hsnap]
    exact h.snapshotNs j
  · rw [hlast]
    exact h.lastBbo j

/-- The check of the reference book against its best prices only counts. -/
theorem crossCheck_keeps (ops : EngineOps) (s : EngineState) (i : Fin 16) :
    (s.crossCheck ops i).books = s.books ∧ (s.crossCheck ops i).refBooks = s.refBooks ∧
      (s.crossCheck ops i).btc = s.btc ∧ (s.crossCheck ops i).snapshotNs = s.snapshotNs ∧
      (s.crossCheck ops i).lastBbo = s.lastBbo ∧ (s.crossCheck ops i).emitted = s.emitted := by
  simp only [crossCheck]
  split
  · split <;> exact ⟨rfl, rfl, rfl, rfl, rfl, rfl⟩
  · exact ⟨rfl, rfl, rfl, rfl, rfl, rfl⟩

/-- Only clears and levels of a reference change its book. -/
theorem levelsAt_skip {ev : FeedEvent} (hclear : ev.kind ≠ .pmBookClear)
    (hdepth : ev.kind ≠ .bnDepth) (isBid : Bool) (j : Nat) (events : List Popped) :
    levelsAt isBid j (.ref ev :: events) = levelsAt isBid j events := by
  by_cases hid : ev.instrumentId.toNat % 16 = j
  · cases hkind : ev.kind <;> simp_all [levelsAt]
  · simp [levelsAt, hid]

/-- Only best prices of a reference are remembered as such. -/
theorem btcAt_skip {ev : FeedEvent} (hbbo : ev.kind ≠ .bnBbo) (events : List Popped) :
    btcAt ops (.ref ev :: events) = btcAt ops events := by
  simp [btcAt, hbbo]

/-- Best prices of a reference are remembered if both are there. -/
theorem Follows.learnBbo (h : s.Follows ops events) {ev : FeedEvent} (hkind : ev.kind = .bnBbo) :
    (s.learnBbo ops ev).Follows ops (.ref ev :: events) ∧
      (s.learnBbo ops ev).emitted = s.emitted := by
  have hrefs : ∀ j : Fin 16, (s.refBooks.get j).Shows (levelsAt true j (.ref ev :: events))
      (levelsAt false j (.ref ev :: events)) := fun j => by
    rw [levelsAt_skip (by simp [hkind]) (by simp [hkind]),
      levelsAt_skip (by simp [hkind]) (by simp [hkind])]
    exact h.refBooks j
  rw [EngineState.learnBbo]
  split
  · next hboth =>
      refine ⟨h.ref rfl rfl rfl hrefs ?_, rfl⟩
      simp [btcAt, hkind, hboth]
  · next hmissing =>
      refine ⟨h.ref rfl rfl rfl hrefs ?_, rfl⟩
      simp [btcAt, hkind, hmissing, h.btc]

/-- A clear of a reference. -/
theorem Follows.clearRef (h : s.Follows ops events) {ev : FeedEvent}
    (hkind : ev.kind = .pmBookClear) :
    ({ s with
      refBooks := s.refBooks.set (refIdx ev) (s.refBooks.get (refIdx ev)).clear (refIdx ev).isLt } :
        EngineState).Follows ops (.ref ev :: events) := by
  refine h.ref rfl rfl rfl (fun j => ?_) ?_
  · rw [get_set]
    by_cases hij : refIdx ev = j
    · subst hij
      have hmod : ev.instrumentId.toNat % 16 = (refIdx ev).val := rfl
      simpa [levelsAt, hmod, hkind] using (h.refBooks (refIdx ev)).clear
    · have hne : ¬ ev.instrumentId.toNat % 16 = j.val := fun h => hij (Fin.ext h)
      simpa [levelsAt, hne, hij] using h.refBooks j
  · rw [btcAt_skip (by simp [hkind])]
    exact h.btc

/-- A level goes to the end of its side. -/
theorem Follows.addDepth (h : s.Follows ops events) {ev : FeedEvent} (hkind : ev.kind = .bnDepth) :
    (s.addDepth ops ev).Follows ops (.ref ev :: events) ∧
      (s.addDepth ops ev).emitted = s.emitted := by
  have hbtc : s.btc = btcAt ops (.ref ev :: events) := by
    rw [btcAt_skip (by simp [hkind])]
    exact h.btc
  simp only [EngineState.addDepth]
  generalize hbook : (if ev.side = sideBuy then
      (s.refBooks.get (refIdx ev)).append true ⟨ev.price, ev.size⟩
    else if ev.side = sideSell then
      (s.refBooks.get (refIdx ev)).append false ⟨ev.price, ev.size⟩
    else s.refBooks.get (refIdx ev)) = book
  have hrefs : ∀ j : Fin 16, ((s.refBooks.set (refIdx ev) book).get j).Shows
      (levelsAt true j (.ref ev :: events)) (levelsAt false j (.ref ev :: events)) := fun j => by
    rw [get_set]
    by_cases hij : refIdx ev = j
    · subst hij
      have hmod : ev.instrumentId.toNat % 16 = (refIdx ev).val := rfl
      have hshows := h.refBooks (refIdx ev)
      rw [if_pos rfl, ← hbook]
      simp only [levelsAt, hmod, if_true, hkind, Bool.false_eq_true, if_false]
      -- a side that is neither of the two adds no level
      by_cases hbuy : ev.side = sideBuy
      · have hsell : ¬ ev.side = sideSell := by rw [hbuy]; decide
        rw [if_pos hbuy, if_pos hbuy, if_neg hsell]
        exact hshows.append true ⟨ev.price, ev.size⟩
      · rw [if_neg hbuy, if_neg hbuy]
        split
        · exact hshows.append false ⟨ev.price, ev.size⟩
        · exact hshows
    · have hne : ¬ ev.instrumentId.toNat % 16 = j.val := fun h => hij (Fin.ext h)
      rw [if_neg hij]
      simpa [levelsAt, hne] using h.refBooks j
  split
  · obtain ⟨hb, hr, hc, hs, hl, he⟩ :=
      crossCheck_keeps ops { s with refBooks := s.refBooks.set (refIdx ev) book } (refIdx ev)
    refine ⟨h.ref hb hs hl (fun j => ?_) (hc.trans hbtc), he⟩
    rw [hr]
    exact hrefs j
  · exact ⟨h.ref rfl rfl rfl hrefs hbtc, rfl⟩

/-- **One event of the reference ring.** -/
theorem Follows.onRef (hops : ops.Ordered) (h : s.Follows ops events) (ev : FeedEvent) :
    (s.onRef ops cfg ev).Follows ops (.ref ev :: events) ∧
      (s.onRef ops cfg ev).emitted = s.emitted ++ telemetryAt ops cfg (.ref ev) events := by
  have hsame : ev.kind ≠ .pmBookClear → ev.kind ≠ .bnDepth → ev.kind ≠ .bnBbo →
      s.Follows ops (.ref ev :: events) := fun hclear hdepth hbbo => by
    refine h.ref rfl rfl rfl (fun j => ?_) ?_
    · rw [levelsAt_skip hclear hdepth, levelsAt_skip hclear hdepth]
      exact h.refBooks j
    · rw [btcAt_skip hbbo]
      exact h.btc
  rw [EngineState.onRef]
  cases hkind : ev.kind with
  | bnBbo =>
      obtain ⟨hlearnt, hquiet⟩ := h.learnBbo hkind
      obtain ⟨hfollows, hemitted⟩ := hlearnt.emitTelemetry cfg hops ev .bnBbo
      refine ⟨hfollows, ?_⟩
      simp [hemitted, hquiet, telemetryAt, hkind]
  | bnTrade =>
      obtain ⟨hfollows, hemitted⟩ :=
        (hsame (by simp [hkind]) (by simp [hkind]) (by simp [hkind])).emitTelemetry cfg hops ev
          .bnTrade
      refine ⟨hfollows, hemitted.trans ?_⟩
      simp [telemetryAt, hkind]
  | pmBookClear =>
      obtain ⟨hfollows, hemitted⟩ := (h.clearRef hkind).emitTelemetry cfg hops ev .bnDepth
      refine ⟨hfollows, hemitted.trans ?_⟩
      simp [telemetryAt, hkind]
  | bnDepth =>
      obtain ⟨hadded, hquiet⟩ := h.addDepth hkind
      obtain ⟨hfollows, hemitted⟩ := hadded.emitTelemetry cfg hops ev .bnDepth
      refine ⟨hfollows, ?_⟩
      simp [hemitted, hquiet, telemetryAt, hkind]
  | none | pmDelta | pmTrade | shutdown =>
      refine ⟨hsame (by simp [hkind]) (by simp [hkind]) (by simp [hkind]), ?_⟩
      simp [telemetryAt, hkind]

/-! ### Whole runs

A round drains the share ring first and the reference ring after it. Only a shutdown in the
share ring stops the thread, and no handler restarts it. -/

@[simp] theorem emitTelemetry_running (s : EngineState) (ev : FeedEvent) (k : TelemetryKind) :
    (s.emitTelemetry ops cfg ev k).running = s.running := by
  simp only [EngineState.emitTelemetry]
  split <;> rfl

@[simp] theorem trackBbo_running (s : EngineState) (i : Fin 16) (ev : FeedEvent) :
    (s.trackBbo ops cfg i ev).running = s.running := by
  simp only [trackBbo, EngineState.observe, EngineState.announce]
  split
  · split
    · exact emitTelemetry_running cfg _ ev .topOfBook
    · rfl
  · rfl

@[simp] theorem onPm_running (s : EngineState) (ev : FeedEvent) :
    (s.onPm ops cfg ev).running = s.running := by
  simp only [EngineState.onPm]
  split
  · cases ev.kind with
    | pmDelta =>
        simp only [EngineState.onDelta, leaveSnapshot]
        split <;> split <;> simp
    | pmTrade => simp
    | _ => rfl
  · rfl

theorem crossCheck_running (s : EngineState) (i : Fin 16) :
    (s.crossCheck ops i).running = s.running := by
  simp only [crossCheck]
  split
  · split <;> rfl
  · rfl

@[simp] theorem onRef_running (s : EngineState) (ev : FeedEvent) :
    (s.onRef ops cfg ev).running = s.running := by
  simp only [EngineState.onRef]
  cases ev.kind with
  | bnBbo =>
      simp only [EngineState.learnBbo, emitTelemetry_running]
      split <;> rfl
  | bnDepth =>
      rw [emitTelemetry_running, EngineState.addDepth]
      split
      · exact crossCheck_running _ (refIdx ev)
      · rfl
  | bnTrade | pmBookClear => simp
  | _ => rfl

variable (ops) in
/-- The thread stands where the events have led it, and has said what they ask for. -/
structure Replays (s : EngineState) (events : List Popped) : Prop extends
    s.Follows ops events where
  emitted : s.emitted = replay ops cfg events

end EngineState

/-- The events of a batch up to a shutdown. -/
def upToShutdown (evs : List FeedEvent) : List FeedEvent :=
  evs.takeWhile fun ev => ev.kind ≠ .shutdown

/-- The events the rounds of the thread have handled, oldest first. -/
def handled : List (List FeedEvent × List FeedEvent) → List Popped
  | [] => []
  | (pm, ref) :: batches =>
      (upToShutdown pm).map .pm ++ ref.map .ref ++
        (if pm.any fun ev => ev.kind = .shutdown then [] else handled batches)

namespace EngineState

variable {ops cfg} {s : EngineState} {events : List Popped}

/-- Before the first event all books are empty and nothing has been said. -/
theorem replays_init : initEngine.Replays ops cfg [] := by
  refine ⟨⟨⟨fun j => ?_, fun j => ?_, rfl⟩, fun j => ?_, fun j => ?_⟩, rfl⟩
  · have hget : initEngine.books.get j = initEngineBook := Vector.getElem_replicate ..
    rw [hget]
    exact EngineBook.shows_init
  · have hget : initEngine.refBooks.get j = initBnBook := Vector.getElem_replicate ..
    rw [hget]
    exact BnBook.shows_init
  · exact Vector.getElem_replicate ..
  · exact Vector.getElem_replicate ..

/-- The share ring is drained up to a shutdown, which stops the thread; the events behind it
are never looked at. -/
theorem Replays.drainPm (hops : ops.Ordered) (evs : List FeedEvent)
    (h : s.Replays ops cfg events) :
    (s.drainPm ops cfg evs).Replays ops cfg (((upToShutdown evs).map .pm).reverse ++ events) ∧
      (s.drainPm ops cfg evs).running =
        (s.running && !evs.any fun ev => ev.kind = .shutdown) := by
  induction evs generalizing s events with
  | nil => exact ⟨h, (Bool.and_true _).symm⟩
  | cons ev evs ih =>
      rw [EngineState.drainPm]
      split
      · -- the flag goes down, the state stays
        next hdown =>
          refine ⟨?_, ?_⟩
          · rw [upToShutdown, List.takeWhile_cons_of_neg (by simpa using hdown)]
            exact ⟨⟨⟨h.books, h.refBooks, h.btc⟩, h.snapshotNs, h.lastBbo⟩, h.emitted⟩
          · simp [hdown]
      · next hgoes =>
          obtain ⟨hfollows, hemitted⟩ := h.toFollows.onPm cfg hops ev
          have hnext : (s.onPm ops cfg ev).Replays ops cfg (.pm ev :: events) := by
            refine ⟨hfollows, ?_⟩
            rw [hemitted, h.emitted]
            rfl
          obtain ⟨hrest, hrunning⟩ := ih hnext
          rw [upToShutdown, List.takeWhile_cons_of_pos (by simpa using hgoes), List.map_cons,
            List.reverse_cons, List.append_assoc]
          refine ⟨hrest, ?_⟩
          rw [hrunning, onPm_running]
          simp [hgoes]

/-- The reference ring is drained to its end, after a shutdown as well. -/
theorem Replays.drainRef (hops : ops.Ordered) (evs : List FeedEvent)
    (h : s.Replays ops cfg events) :
    (evs.foldl (EngineState.onRef ops cfg) s).Replays ops cfg ((evs.map .ref).reverse ++ events) ∧
      (evs.foldl (EngineState.onRef ops cfg) s).running = s.running := by
  induction evs generalizing s events with
  | nil => exact ⟨h, rfl⟩
  | cons ev evs ih =>
      obtain ⟨hfollows, hemitted⟩ := h.toFollows.onRef cfg hops ev
      have hnext : (s.onRef ops cfg ev).Replays ops cfg (.ref ev :: events) := by
        refine ⟨hfollows, ?_⟩
        rw [hemitted, h.emitted]
        rfl
      obtain ⟨hrest, hrunning⟩ := ih hnext
      rw [List.map_cons, List.reverse_cons, List.append_assoc, List.foldl_cons]
      exact ⟨hrest, hrunning.trans (onRef_running cfg s ev)⟩

/-- Nothing happens after a shutdown. -/
theorem run_stopped (h : s.running = false) (batches : List (List FeedEvent × List FeedEvent)) :
    Runs.run (round ops cfg) s batches = s := by
  have hstays : ∀ batch, round ops cfg s batch = s := fun batch => by
    rw [round, h]
    rfl
  induction batches with
  | nil => rfl
  | cons batch batches ih => rw [Runs.run_cons, hstays, ih]

/-- **Run lemma.** -/
theorem Replays.run (hops : ops.Ordered) (batches : List (List FeedEvent × List FeedEvent))
    (h : s.Replays ops cfg events) (hrunning : s.running = true) :
    (Runs.run (round ops cfg) s batches).Replays ops cfg ((handled batches).reverse ++ events) := by
  induction batches generalizing s events with
  | nil => exact h
  | cons batch batches ih =>
      obtain ⟨pm, ref⟩ := batch
      obtain ⟨hpm, hpmRunning⟩ := h.drainPm hops pm
      obtain ⟨href, hrefRunning⟩ := hpm.drainRef hops ref
      have hround : round ops cfg s (pm, ref) =
          ref.foldl (EngineState.onRef ops cfg) (s.drainPm ops cfg pm) := if_pos hrunning
      rw [Runs.run_cons, hround]
      rw [hpmRunning, hrunning, Bool.true_and] at hrefRunning
      cases hdown : pm.any fun ev => ev.kind = .shutdown with
      | false =>
          rw [hdown] at hrefRunning
          have hrest := ih href hrefRunning
          simpa [handled, hdown] using hrest
      | true =>
          -- the round is finished, and no other begins
          rw [hdown] at hrefRunning
          rw [run_stopped hrefRunning]
          simpa [handled, hdown] using href

/-- **Every run of the thread.** -/
theorem run_replays (hops : ops.Ordered) (batches : List (List FeedEvent × List FeedEvent)) :
    (Runs.run (round ops cfg) initEngine batches).Replays ops cfg (handled batches).reverse := by
  have hstart : initEngine.Replays ops cfg [] := replays_init
  have hrun := hstart.run hops batches rfl
  rwa [List.append_nil] at hrun

end EngineState

/-- **The engine thread computes the replay.** However its rings are filled, what it passes on
is the telemetry of the events it has handled, from the first on: the best prices and sizes
it says are those of the sizes last written to the levels of the share since its last clear,
nothing is said of the deltas that refill a share, and best prices are announced when they
differ from those that were looked at last. -/
theorem engine_replays (ops : EngineOps) (hops : ops.Ordered) (cfg : EngineConfig)
    (batches : List (List FeedEvent × List FeedEvent)) :
    (Runs.run (EngineState.round ops cfg) initEngine batches).emitted =
      replay ops cfg (handled batches).reverse :=
  (EngineState.run_replays hops batches).emitted

/-- The double nearest to a positive fraction of normal size, ties to even. -/
def nearestDouble (num den : Nat) : Float64 :=
  if num = 0 then 0
  else
    let guess : Int := num.log2 - den.log2
    let e := if num * 2 ^ (-guess).toNat < den * 2 ^ guess.toNat then guess - 1 else guess
    let n := num * 2 ^ (52 - e).toNat
    let d := den * 2 ^ (e - 52).toNat
    let m := n / d
    let r := n % d
    let m := if d < 2 * r ∨ d = 2 * r ∧ m % 2 = 1 then m + 1 else m
    UInt64.ofNat ((e + 1023).toNat * 2 ^ 52 + (m - 2 ^ 52))

/-- A double of normal size as a fraction. -/
def fraction (x : Float64) : Nat × Nat :=
  if x = 0 then (0, 1)
  else
    let e : Int := (x.toNat / 2 ^ 52 : Nat) - 1075
    ((2 ^ 52 + x.toNat % 2 ^ 52) * 2 ^ e.toNat, 2 ^ (-e).toNat)

/-- The operations on zero and the positive doubles of normal size. -/
def positiveOps : EngineOps where
  lt a b := a < b
  le a b := a ≤ b
  eq a b := a = b
  abs a := a
  ofInt n := nearestDouble n.toNat 1
  add a b := nearestDouble ((fraction a).1 * (fraction b).2 + (fraction b).1 * (fraction a).2)
    ((fraction a).2 * (fraction b).2)
  sub a b := nearestDouble ((fraction a).1 * (fraction b).2 - (fraction b).1 * (fraction a).2)
    ((fraction a).2 * (fraction b).2)
  mul a b := nearestDouble ((fraction a).1 * (fraction b).1) ((fraction a).2 * (fraction b).2)
  div a b := nearestDouble ((fraction a).1 * (fraction b).2) ((fraction a).2 * (fraction b).1)
  toFloat32 a := a.toUInt32
  toInt16 a := a.toInt64.toInt16

/-- The thousandths as doubles, compared once for all proofs below. -/
theorem price_ascends :
    ((List.range 1001).map fun p => (positiveOps.price p).toNat).IsChain (· < ·) := by
  decide +kernel

/-- The thousandths are ordered as doubles. -/
theorem positiveOps_ordered : positiveOps.Ordered := by
  have hmono : StrictMono fun p : Fin 1001 => (positiveOps.price p).toNat := by
    refine Fin.strictMono_iff_lt_succ.mpr fun p => ?_
    have hlt : p.val + 1 < ((List.range 1001).map fun p => (positiveOps.price p).toNat).length := by
      rw [List.length_map, List.length_range]
      omega
    have hnext := List.isChain_iff_getElem.mp price_ascends p hlt
    rw [List.getElem_map, List.getElem_map, List.getElem_range, List.getElem_range] at hnext
    simp only [Fin.val_castSucc, Fin.val_succ]
    exact hnext
  -- both comparisons are those of the bits, and these ascend with the levels
  refine ⟨by decide +kernel, fun p q => ?_, fun p q => ?_⟩
  · refine decide_eq_decide.mpr ?_
    rw [UInt64.lt_iff_toNat_lt]
    exact hmono.lt_iff_lt
  · refine decide_eq_decide.mpr ?_
    rw [← UInt64.toNat_inj]
    exact hmono.injective.eq_iff

/-- One share over five minutes. -/
def oneShare : EngineConfig := ⟨[.pmUpDown], by decide, 1700000000, 300⟩

def shareClear (ns : Int64) : FeedEvent :=
  ⟨.pmBookClear, 0, ns, 1700000001000, 0, 0, 0, 0, 0, 0, 0, 0, 0, 0, 0, 0⟩

/-- One unit at a level. -/
def shareDelta (ns : Int64) (side : UInt8) (pm : PriceMilli) : FeedEvent :=
  ⟨.pmDelta, 0, ns, 1700000001000, 0, FloatOps.one, side, 1, pm, 0, 0, 0, 0, 0, 0, 0⟩

/-- A book cleared and refilled, and two more bids. -/
def refilled : List (List FeedEvent × List FeedEvent) :=
  [([shareClear 5, shareDelta 5 sideBuy 500, shareDelta 5 sideSell 520, shareDelta 6 sideBuy 510,
    shareDelta 7 sideBuy 515], [])]

/-- The refill goes unsaid, and only the last bid is announced. -/
theorem engine_replays_refilled :
    (Runs.run (EngineState.round positiveOps oneShare) initEngine refilled).emitted.map
        (fun t => (t.kind, t.bidPrice)) =
      [(.bookUpdate, positiveOps.price 510), (.topOfBook, positiveOps.price 515),
        (.bookUpdate, positiveOps.price 515)] := by
  rw [engine_replays positiveOps positiveOps_ordered oneShare refilled]
  decide +kernel

/-! ### The tops of a share

With the replay for the thread, two announcements in a row are compared through
`lastBboAt`: the first says what was looked at last, and the second is made because that
has changed. -/

/-- The changes of the best prices that were announced for a share. -/
def topsOf (i : Nat) (told : List TelemetryEvent) : List TelemetryEvent :=
  told.filter fun t => t.kind = .topOfBook && t.instId.toNat = i

/-- Two levels of a share that do not cross, with something on both. -/
def IsTop (t : TelemetryEvent) : Prop :=
  ∃ p q : Fin 1001, 0 < p ∧ p < q ∧ t.bidPrice = ops.price p ∧ t.askPrice = ops.price q ∧
    ops.lt 0 t.bidSize = true ∧ ops.lt 0 t.askSize = true

variable {ops cfg}

variable (ops) in
/-- The top of a side is a level with something on it, or zero. -/
theorem Sizes.top_eq (sizes : Sizes) (isBid : Bool) :
    sizes.top ops isBid = (0, 0) ∨ ∃ p : Fin 1001, sizes.top ops isBid = (ops.price p, sizes p) ∧
      ops.lt 0 (sizes p) = true := by
  cases hbest : sizes.best? ops isBid with
  | none => exact Or.inl (Sizes.top_of_none hbest)
  | some p =>
      refine Or.inr ⟨p, Sizes.top_of_some hbest, ?_⟩
      have hquoted : p ∈ sizes.quoted ops := Sizes.best?_mem hbest
      simpa [Sizes.quoted] using hquoted

/-- Valid best prices are two levels. -/
theorem exists_levels (hops : ops.Ordered) {i : Nat} {events : List Popped}
    (h : validBbo ops (bboAt ops i events) = true) :
    ∃ p q : Fin 1001, 0 < p ∧ p < q ∧ bboAt ops i events = (ops.price p, ops.price q) ∧
      (sizesAt true i events).top ops true = (ops.price p, sizesAt true i events p) ∧
      (sizesAt false i events).top ops false = (ops.price q, sizesAt false i events q) ∧
      ops.lt 0 (sizesAt true i events p) = true ∧ ops.lt 0 (sizesAt false i events q) = true := by
  simp only [validBbo, bboAt, Bool.and_eq_true] at h
  obtain ⟨⟨hbid, hask⟩, hcross⟩ := h
  rcases Sizes.top_eq ops (sizesAt true i events) true with hzero | ⟨p, htop, hpos⟩
  · rw [hzero, hops.not_pos_zero] at hbid
    cases hbid
  · rcases Sizes.top_eq ops (sizesAt false i events) false with hzero | ⟨q, htop', hpos'⟩
    · rw [hzero, hops.not_pos_zero] at hask
      cases hask
    · rw [htop] at hbid hcross
      rw [htop'] at hcross
      rw [hops.lt_price] at hcross
      rw [hops.price_pos] at hbid
      have hbbo : bboAt ops i events = (ops.price p, ops.price q) := by
        rw [bboAt, htop, htop']
      exact ⟨p, q, of_decide_eq_true hbid, of_decide_eq_true hcross, hbbo, htop, htop', hpos,
        hpos'⟩

/-- What one event adds to the tops of a share. -/
theorem topsOf_telemetryAt {i : Nat} (hi : i < 16) (p : Popped) (older : List Popped) :
    topsOf i (telemetryAt ops cfg p older) =
      match p with
      | .pm ev =>
          if ev.instrumentId.toNat = i ∧ changesAt ops i p older then
            [said ops cfg ev .topOfBook (p :: older)]
          else []
      | .ref _ => [] := by
  cases p with
  | ref ev =>
      simp only [telemetryAt]
      cases ev.kind <;> rfl
  | pm ev =>
      simp only [telemetryAt]
      by_cases hid : ev.instrumentId.toNat = i
      · -- of all kinds only a delta outside a snapshot can announce a top
        subst hid
        simp only [hi, if_true, true_and]
        cases hkind : ev.kind with
        | pmDelta =>
            by_cases hopen : snapshotAt ev.instrumentId.toNat (.pm ev :: older) = 0
            · simp only [hopen, ne_eq, not_true, if_false, topsOf, List.filter_append]
              split <;> simp [said, telemetryEvent]
            · simp [hopen, topsOf, changesAt, looksAt]
        | _ => simp [topsOf, changesAt, looksAt, hkind, said, telemetryEvent]
      · have hnone : ∀ k, topsOf i [said ops cfg ev k (.pm ev :: older)] = [] := fun k => by
          simp [topsOf, said, telemetryEvent, hid]
        simp only [hid, false_and, if_false]
        split
        · cases ev.kind with
          | pmDelta =>
              simp only [topsOf] at hnone ⊢
              split
              · rfl
              · rw [List.filter_append, hnone, List.append_nil]
                split
                · exact hnone _
                · rfl
          | pmTrade => exact hnone _
          | _ => rfl
        · rfl

/-- Two announcements of different best prices. -/
def Differ (t t' : TelemetryEvent) : Prop := t.bidPrice ≠ t'.bidPrice ∨ t.askPrice ≠ t'.askPrice

/-- The last announcement of a share says what was last looked at. -/
structure Alternates (ops : EngineOps) (cfg : EngineConfig) (i : Nat) (events : List Popped) :
    Prop where
  chain : (topsOf i (replay ops cfg events)).IsChain Differ
  top : ∀ t ∈ topsOf i (replay ops cfg events), IsTop ops t
  last : ∀ t ∈ (topsOf i (replay ops cfg events)).getLast?,
    (t.bidPrice, t.askPrice) = lastBboAt ops i events

/-- Between two pairs of levels, a change of the best prices is a change of the levels. -/
theorem changedBbo_levels (hops : ops.Ordered) {p q p' q' : Fin 1001} (hpos : 0 < p) :
    changedBbo ops (ops.price p, ops.price q) (ops.price p', ops.price q') =
      !(decide (p' = p) && decide (q' = q)) := by
  rw [changedBbo, hops.price_pos, decide_eq_true hpos, hops.eq_price, hops.eq_price,
    Bool.true_and, Bool.not_and]

/-- Where the prices of a share are looked at. -/
theorem looksAt_inv {i : Nat} {p : Popped} {older : List Popped}
    (h : looksAt ops i (p :: older) = true) :
    ∃ ev, p = .pm ev ∧ ev.instrumentId.toNat = i ∧
      validBbo ops (bboAt ops i (p :: older)) = true := by
  cases p with
  | ref ev => simp [looksAt] at h
  | pm ev =>
      simp only [looksAt, Bool.and_eq_true, decide_eq_true_eq] at h
      exact ⟨ev, rfl, h.1.1.1, h.2⟩

variable (ops) in
/-- An announcement of a share says its best prices and their sizes. -/
theorem said_top {ev : FeedEvent} (hi : ev.instrumentId.toNat < 16)
    (href : cfg.isRef ev.instrumentId.toNat = false) (events : List Popped) :
    let t := said ops cfg ev .topOfBook events
    (t.bidPrice, t.bidSize) = (sizesAt true ev.instrumentId.toNat events).top ops true ∧
      (t.askPrice, t.askSize) = (sizesAt false ev.instrumentId.toNat events).top ops false := by
  have hidx : (bookIdx ev).val = ev.instrumentId.toNat := by rw [bookIdx, dif_pos hi]
  simp only [said, telemetryEvent, viewAt, href, Bool.false_eq_true, if_false, hidx]
  exact ⟨rfl, rfl⟩

/-- A new announcement of a share: its best prices, two levels, are not those of the last. -/
theorem Alternates.changes (hops : ops.Ordered) {ev : FeedEvent}
    (hi : ev.instrumentId.toNat < 16) (href : cfg.isRef ev.instrumentId.toNat = false)
    {older : List Popped} (h : Alternates ops cfg ev.instrumentId.toNat older)
    (hchange : changesAt ops ev.instrumentId.toNat (.pm ev) older = true) :
    Alternates ops cfg ev.instrumentId.toNat (.pm ev :: older) := by
  obtain ⟨hlooks, hchanged⟩ := Bool.and_eq_true_iff.mp hchange
  obtain ⟨-, -, -, hvalid⟩ := looksAt_inv hlooks
  obtain ⟨b, a, hpos, hlt, hbbo, hbid, hask, hbidSize, haskSize⟩ := exists_levels hops hvalid
  obtain ⟨hsaidBid, hsaidAsk⟩ := said_top ops hi href (.pm ev :: older)
  have hreplay : topsOf ev.instrumentId.toNat (replay ops cfg (.pm ev :: older)) =
      topsOf ev.instrumentId.toNat (replay ops cfg older) ++
        [said ops cfg ev .topOfBook (.pm ev :: older)] := by
    refine (List.filter_append ..).trans (congrArg _ ?_)
    exact (topsOf_telemetryAt hi (.pm ev) older).trans (if_pos ⟨rfl, hchange⟩)
  generalize said ops cfg ev .topOfBook (.pm ev :: older) = t at *
  rw [hbid] at hsaidBid
  rw [hask] at hsaidAsk
  obtain ⟨hbidPrice, hbidQty⟩ := Prod.mk.inj hsaidBid
  obtain ⟨haskPrice, haskQty⟩ := Prod.mk.inj hsaidAsk
  have htop : IsTop ops t :=
    ⟨b, a, hpos, hlt, hbidPrice, haskPrice, hbidQty ▸ hbidSize, haskQty ▸ haskSize⟩
  rw [hbbo] at hchanged
  refine ⟨?_, ?_, ?_⟩
  · rw [hreplay, List.isChain_append]
    -- the last announcement says what was last looked at, and that has changed
    refine ⟨h.chain, List.isChain_singleton t, fun t' ht' t'' ht'' => ?_⟩
    obtain rfl : t = t'' := Option.some.inj ht''
    by_contra hsame
    simp only [Differ, not_or, not_not] at hsame
    have hlast := h.last t' ht'
    rw [hsame.1, hsame.2, hbidPrice, haskPrice] at hlast
    rw [← hlast, changedBbo_levels hops hpos] at hchanged
    simp at hchanged
  · rw [hreplay]
    intro t' ht'
    rcases List.mem_append.mp ht' with hold | hlast
    · exact h.top t' hold
    · exact List.mem_singleton.mp hlast ▸ htop
  · rw [hreplay, List.getLast?_append]
    intro t' ht'
    obtain rfl : t = t' := by simpa using ht'
    rw [lastBboAt, if_pos hlooks, hbbo, hbidPrice, haskPrice]

/-- No announcement of a share: if its best prices are looked at, they are those of the last. -/
theorem Alternates.stays (hops : ops.Ordered) {i : Nat} (hi : i < 16) {older : List Popped}
    (h : Alternates ops cfg i older) {p : Popped} (hstays : ¬ changesAt ops i p older = true) :
    Alternates ops cfg i (p :: older) := by
  have hreplay : topsOf i (replay ops cfg (p :: older)) = topsOf i (replay ops cfg older) := by
    have hquiet : topsOf i (telemetryAt ops cfg p older) = [] := by
      rw [topsOf_telemetryAt hi]
      cases p <;> simp [hstays]
    refine (List.filter_append ..).trans ?_
    exact (congrArg (topsOf i (replay ops cfg older) ++ ·) hquiet).trans (List.append_nil _)
  refine ⟨?_, ?_, ?_⟩
  · rw [hreplay]
    exact h.chain
  · rw [hreplay]
    exact h.top
  · rw [hreplay]
    intro t ht
    have hlast := h.last t ht
    rw [lastBboAt]
    split
    · -- looked at and not announced: the prices are those of the last announcement
      next hlooks =>
        obtain ⟨-, -, -, hvalid⟩ := looksAt_inv hlooks
        obtain ⟨b, a, -, -, hbbo, -⟩ := exists_levels hops hvalid
        obtain ⟨b', a', hpos, -, hbidPrice, haskPrice, -⟩ := h.top t (List.mem_of_getLast? ht)
        rw [changesAt, hlooks, Bool.true_and, ← hlast, hbidPrice, haskPrice, hbbo,
          changedBbo_levels hops hpos] at hstays
        obtain ⟨rfl, rfl⟩ : b = b' ∧ a = a' := by simpa using hstays
        rw [hbidPrice, haskPrice, hbbo]
    · exact hlast

/-- **One event.** -/
theorem Alternates.step (hops : ops.Ordered) {i : Nat} (hi : i < 16) (href : cfg.isRef i = false)
    {older : List Popped} (h : Alternates ops cfg i older) (p : Popped) :
    Alternates ops cfg i (p :: older) := by
  by_cases hchange : changesAt ops i p older = true
  · obtain ⟨ev, rfl, rfl, -⟩ := looksAt_inv (Bool.and_eq_true_iff.mp hchange).1
    exact h.changes hops hi href hchange
  · exact h.stays hops hi hchange

/-- **The state tape moves.** Between two announcements of a share its best bid or ask has
changed, and each announcement is of two levels that do not cross, with something on both
sides; so the telemetry thread writes them all to the state tape. -/
theorem tops_alternate (ops : EngineOps) (hops : ops.Ordered) (cfg : EngineConfig)
    (batches : List (List FeedEvent × List FeedEvent)) (i : Nat) (hi : i < 16)
    (href : cfg.isRef i = false) :
    let tops := topsOf i (Runs.run (EngineState.round ops cfg) initEngine batches).emitted
    tops.IsChain Differ ∧ (∀ t ∈ tops, IsTop ops t) ∧ ∀ t ∈ tops, ops.changesTop t = true := by
  intro tops
  have halternates : ∀ events, Alternates ops cfg i events := fun events => by
    induction events with
    | nil => exact ⟨.nil, fun _ h => (List.not_mem_nil h).elim, fun _ h => by cases h⟩
    | cons p older ih => exact ih.step hops hi href p
  have htops : tops = topsOf i (replay ops cfg (handled batches).reverse) :=
    congrArg (topsOf i) (EngineState.run_replays hops batches).emitted
  rw [htops]
  refine ⟨(halternates _).chain, (halternates _).top, fun t ht => ?_⟩
  obtain ⟨p, q, hpos, -, hbid, -⟩ := (halternates _).top t ht
  have hkind : t.kind = .topOfBook := by
    have hmem := (List.mem_filter.mp ht).2
    simp only [Bool.and_eq_true, decide_eq_true_eq] at hmem
    exact hmem.1
  rw [FloatOps.changesTop, hkind, hbid, hops.price_pos]
  simpa using hpos

/-- A bid and an offer, a better bid, and then a better offer. -/
def requoted : List (List FeedEvent × List FeedEvent) :=
  [([shareDelta 5 sideBuy 510, shareDelta 5 sideSell 520, shareDelta 6 sideBuy 515,
    shareDelta 7 sideSell 518], [])]

theorem tops_alternate_requoted :
    let tops := topsOf 0 (Runs.run (EngineState.round positiveOps oneShare) initEngine
      requoted).emitted
    tops.map (fun t => (t.bidPrice, t.askPrice)) =
        [(positiveOps.price 515, positiveOps.price 520),
          (positiveOps.price 515, positiveOps.price 518)] ∧
      tops.IsChain Differ ∧ ∀ t ∈ tops, IsTop positiveOps t := by
  intro tops
  obtain ⟨hchain, htop, -⟩ :=
    tops_alternate positiveOps positiveOps_ordered oneShare requoted 0 (by decide) (by decide)
  refine ⟨?_, hchain, htop⟩
  have htops : tops = topsOf 0 (replay positiveOps oneShare (handled requoted).reverse) :=
    congrArg (topsOf 0) (EngineState.run_replays positiveOps_ordered requoted).emitted
  rw [htops]
  decide +kernel

end Tape

end Mantis

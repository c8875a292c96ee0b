import Mantis.Types
import Mantis.Lib.Runs

/-!
# Mantis.Transport.Monitor

The feed liveness monitor (`crates/transport/src/monitor.rs`). It holds the event counters of
at most eight feeds and compares each with its value at the check before.

The abstract side is the history of a feed: every value its counter had at a check. What the
monitor holds of a feed is a function of that history (`FeedHistory.state`), after any run of
registrations and checks.
-/

namespace Mantis

open Runs

/-! ### The monitor -/

/-- Maximum number of feeds that can be monitored. -/
def maxFeeds : Nat := 8

structure FeedState where
  /-- Which of the shared counters is the feed's. -/
  eventCount : Nat
  lastSeen : UInt64
  sourceId : SourceId
  stale : Bool
  firstCheck : Bool
  deriving DecidableEq, Repr

/-- Information about a stale feed. -/
structure StaleFeedInfo where
  sourceId : SourceId
  /-- Last observed event count. -/
  lastEventCount : UInt64
  deriving DecidableEq, Repr

/-- The registered slots. -/
structure FeedMonitor where
  feeds : List FeedState
  feeds_le : feeds.length ≤ maxFeeds

/-- Error when registering more feeds than `maxFeeds`. -/
inductive MonitorFullError
  | full
  deriving DecidableEq, Repr

/-- The counters at the moment they are loaded. -/
abbrev Counters := Nat → UInt64

namespace FeedMonitor

def new : FeedMonitor := ⟨[], Nat.zero_le _⟩

/-- Registers a feed for monitoring. -/
def register (m : FeedMonitor) (sourceId : SourceId) (eventCount : Nat) (counters : Counters) :
    Except MonitorFullError FeedMonitor :=
  if h : m.feeds.length < maxFeeds then
    .ok ⟨m.feeds ++ [⟨eventCount, counters eventCount, sourceId, false, true⟩], by
      rw [List.length_append]
      exact h⟩
  else .error .full

/-- One slot of `check_all`, and whether it counts. -/
def checkFeed (counters : Counters) (feed : FeedState) : FeedState × Bool :=
  let current := counters feed.eventCount
  -- the first check sets the baseline, whatever the counter does
  if feed.firstCheck then ({ feed with firstCheck := false, lastSeen := current }, false)
  else if current = feed.lastSeen then ({ feed with stale := true, lastSeen := current }, true)
  else ({ feed with stale := false, lastSeen := current }, false)

/-- Checks all registered feeds for staleness. -/
def checkAll (m : FeedMonitor) (counters : Counters) : FeedMonitor × Nat :=
  let checked := m.feeds.map (checkFeed counters)
  (⟨checked.map (·.1), by
    rw [List.length_map, List.length_map]
    exact m.feeds_le⟩, checked.countP (·.2))

def staleFeeds (m : FeedMonitor) : List StaleFeedInfo :=
  (m.feeds.filter (·.stale)).map fun feed => ⟨feed.sourceId, feed.lastSeen⟩

/-- Checks whether a specific feed is currently marked stale. -/
def isStale (m : FeedMonitor) (sourceId : SourceId) : Bool :=
  m.feeds.any fun feed => feed.sourceId == sourceId && feed.stale

end FeedMonitor

/-- What the engine asks of its monitor. -/
inductive MonitorOp
  | register (sourceId : SourceId) (eventCount : Nat) (counters : Counters)
  | check (counters : Counters)

/-- A refused registration changes nothing. -/
def FeedMonitor.step (m : FeedMonitor) : MonitorOp → FeedMonitor
  | .register sourceId eventCount counters =>
      match m.register sourceId eventCount counters with
      | .ok m' => m'
      | .error _ => m
  | .check counters => (m.checkAll counters).1

/-! ### Histories -/

/-- A registered feed with the value of its counter when it was registered and at every check
since, newest first. -/
structure FeedHistory where
  sourceId : SourceId
  eventCount : Nat
  baseline : UInt64
  readings : List UInt64

/-- The counter has not moved since the check before the last. -/
def unmoved : List UInt64 → Bool
  | current :: previous :: _ => current == previous
  | _ => false

namespace FeedHistory

def silent (h : FeedHistory) : Bool := unmoved h.readings

/-- What the monitor holds of the feed. -/
def state (h : FeedHistory) : FeedState :=
  ⟨h.eventCount, h.readings.headD h.baseline, h.sourceId, h.silent, h.readings.isEmpty⟩

def read (counters : Counters) (h : FeedHistory) : FeedHistory :=
  { h with readings := counters h.eventCount :: h.readings }

end FeedHistory

/-- The first eight feeds registered, and every check. -/
def recordOp (hs : List FeedHistory) : MonitorOp → List FeedHistory
  | .register sourceId eventCount counters =>
      if hs.length < maxFeeds then hs ++ [⟨sourceId, eventCount, counters eventCount, []⟩] else hs
  | .check counters => hs.map (FeedHistory.read counters)

/-- A check takes the state of a history to that of the longer one, and counts if it is
silent. -/
theorem checkFeed_state (counters : Counters) (h : FeedHistory) :
    FeedMonitor.checkFeed counters h.state =
      ((h.read counters).state, (h.read counters).silent) := by
  -- without a reading the check is the first, which compares nothing
  rcases h with ⟨sourceId, eventCount, baseline, _ | ⟨previous, earlier⟩⟩
  · rfl
  · by_cases hsame : counters eventCount = previous
    · simp [FeedMonitor.checkFeed, FeedHistory.state, FeedHistory.read, FeedHistory.silent,
        unmoved, hsame]
    · simp [FeedMonitor.checkFeed, FeedHistory.state, FeedHistory.read, FeedHistory.silent,
        unmoved, hsame]

theorem checkAll_states {m : FeedMonitor} {hs : List FeedHistory}
    (h : m.feeds = hs.map FeedHistory.state) (counters : Counters) :
    (m.checkAll counters).1.feeds = (hs.map (FeedHistory.read counters)).map FeedHistory.state ∧
      (m.checkAll counters).2 =
        (hs.map (FeedHistory.read counters)).countP FeedHistory.silent := by
  have hchecked : m.feeds.map (FeedMonitor.checkFeed counters) =
      hs.map fun h => ((h.read counters).state, (h.read counters).silent) := by
    rw [h, List.map_map]
    exact List.map_congr_left fun h _ => checkFeed_state counters h
  constructor
  · show ((m.feeds.map _).map _) = _
    rw [hchecked, List.map_map, List.map_map]
    rfl
  · show (m.feeds.map _).countP _ = _
    rw [hchecked, List.countP_map, List.countP_map]
    rfl

/-- One operation keeps the monitor in step with the histories. -/
theorem step_states {m : FeedMonitor} {hs : List FeedHistory}
    (h : m.feeds = hs.map FeedHistory.state) (op : MonitorOp) :
    (m.step op).feeds = (recordOp hs op).map FeedHistory.state := by
  cases op with
  | register sourceId eventCount counters =>
      have hlen : m.feeds.length = hs.length := by rw [h, List.length_map]
      by_cases hroom : m.feeds.length < maxFeeds
      · rw [recordOp, if_pos (hlen ▸ hroom), List.map_append, ← h]
        simp only [FeedMonitor.step, FeedMonitor.register, dif_pos hroom]
        rfl
      · rw [recordOp, if_neg (hlen ▸ hroom)]
        simp only [FeedMonitor.step, FeedMonitor.register, dif_neg hroom]
        exact h
  | check counters => exact (checkAll_states h counters).1

theorem run_states (ops : List MonitorOp) {m : FeedMonitor} {hs : List FeedHistory}
    (h : m.feeds = hs.map FeedHistory.state) :
    (run FeedMonitor.step m ops).feeds = (run recordOp hs ops).map FeedHistory.state := by
  induction ops generalizing m hs with
  | nil => exact h
  | cons op ops ih => exact ih (step_states h op)

/-! ### What the monitor reports -/

/-- A counter that grew by less than `2 ^ 64` between two checks is unmoved only if nothing
was counted. -/
theorem unmoved_ofNat {current previous : Nat} {earlier : List UInt64} (hle : previous ≤ current)
    (hlt : current < previous + 2 ^ 64) :
    unmoved (UInt64.ofNat current :: UInt64.ofNat previous :: earlier) = true ↔
      current = previous := by
  rw [unmoved, beq_iff_eq, ← UInt64.toNat_inj, UInt64.toNat_ofNat', UInt64.toNat_ofNat']
  omega

/-- **The monitor reports silence.** After any run of registrations and checks the stale feeds
are those whose counter did not move between the last two checks since they were registered,
in order of registration; `check_all` returns how many there are, and a feed is stale as long
as one registered under its source is. A counter that counted true events, less than `2 ^ 64`
of them between the checks, is unmoved exactly if there was none. -/
theorem monitor_reports_silence (ops : List MonitorOp) :
    ∃ hs : List FeedHistory, hs = run recordOp [] ops ∧ hs.length ≤ maxFeeds ∧
      (run FeedMonitor.step .new ops).staleFeeds =
        (hs.filter FeedHistory.silent).map
          (fun h => ⟨h.sourceId, h.readings.headD h.baseline⟩) ∧
      (∀ sourceId, (run FeedMonitor.step .new ops).isStale sourceId = true ↔
        ∃ h ∈ hs, h.sourceId = sourceId ∧ h.silent = true) ∧
      (∀ counters, ((run FeedMonitor.step .new ops).checkAll counters).2 =
        ((run FeedMonitor.step .new ops).checkAll counters).1.staleFeeds.length) ∧
      (∀ h ∈ hs, ∀ current previous earlier, previous ≤ current → current < previous + 2 ^ 64 →
        h.readings = UInt64.ofNat current :: UInt64.ofNat previous :: earlier →
        (h.silent = true ↔ current = previous)) := by
  have hfeeds : (run FeedMonitor.step .new ops).feeds =
      (run recordOp [] ops).map FeedHistory.state := run_states ops rfl
  have hlen := (run FeedMonitor.step .new ops).feeds_le
  have hstale : ∀ {m : FeedMonitor} {hs : List FeedHistory},
      m.feeds = hs.map FeedHistory.state → m.staleFeeds = (hs.filter FeedHistory.silent).map
        (fun h => ⟨h.sourceId, h.readings.headD h.baseline⟩) := by
    intro m hs hm
    rw [FeedMonitor.staleFeeds, hm, List.filter_map, List.map_map]
    rfl
  refine ⟨_, rfl, ?_, hstale hfeeds, fun sourceId => ?_, fun counters => ?_, ?_⟩
  · rw [hfeeds, List.length_map] at hlen
    exact hlen
  · rw [FeedMonitor.isStale, hfeeds, List.any_map, List.any_eq_true]
    simp only [Function.comp_apply, Bool.and_eq_true, beq_iff_eq]
    exact Iff.rfl
  · obtain ⟨hchecked, hcount⟩ := checkAll_states hfeeds counters
    rw [hcount, hstale hchecked, List.length_map, List.countP_eq_length_filter]
  · intro h _ current previous earlier hle hlt hreadings
    rw [FeedHistory.silent, hreadings]
    exact unmoved_ofNat hle hlt

end Mantis

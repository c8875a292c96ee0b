import Mantis.Transport.Ws
import Mantis.Feed.Callback

/-!
# Mantis.Transport.Feed

The feed thread (`crates/transport/src/feed.rs`): connect, read text frames and hand each to
the callback until the connection is lost, wait, and connect again. A text frame is not handed
on if it is empty or the answer `PONG` to a text heartbeat.

What the thread reads from outside is one `Attempt` an iteration of the outer loop, and in
it one `ReadMoment` an iteration of the read loop. Attempts that end before the thread has
left them are the run so far. The state keeps the log of the frames delivered, the results
of the connects, and the delays.

What a session has to do is said in terms of its attempts alone: which frames each brings
before the shutdown flag is seen, and whether the thread goes on to the next.
-/

namespace Mantis

open Runs

/-! ### Durations -/

namespace Duration

/-- `Duration::MAX`. -/
def largest : Duration := ⟨18446744073709551615, 999999999, by decide⟩

/-- `saturating_mul`. -/
def saturatingMul (d : Duration) (rhs : UInt32) : Duration :=
  let totalNanos := d.nanos.toNat * rhs.toNat
  let secs := d.secs.toNat * rhs.toNat + totalNanos / 1000000000
  if secs < 2 ^ 64 then
    ⟨UInt64.ofNat secs, UInt32.ofNat (totalNanos % 1000000000), by
      have hlt := Nat.mod_lt totalNanos (show 0 < 1000000000 by decide)
      rw [UInt32.toNat_ofNat_of_lt' (by show _ < 2 ^ 32; omega)]
      exact hlt⟩
  else largest

/-- The derived order: seconds first. -/
def lt (a b : Duration) : Bool :=
  a.secs < b.secs || (a.secs == b.secs && a.nanos < b.nanos)

/-- `Ord::min`. -/
instance : Min Duration := ⟨fun a b => if b.lt a then b else a⟩

theorem lt_iff (a b : Duration) : a.lt b = true ↔ a.asNanos < b.asNanos := by
  have ha := a.nanos_lt
  have hb := b.nanos_lt
  simp only [lt, asNanos, Bool.or_eq_true, Bool.and_eq_true, decide_eq_true_eq, beq_iff_eq,
    UInt64.lt_iff_toNat_lt, UInt32.lt_iff_toNat_lt, ← UInt64.toNat_inj]
  omega

theorem asNanos_min (a b : Duration) : (min a b).asNanos = min a.asNanos b.asNanos := by
  rw [show min a b = if b.lt a then b else a from rfl, Nat.min_def]
  split
  · next h =>
      have hlt := (lt_iff b a).mp h
      rw [if_neg (by omega)]
  · next h =>
      have hle := mt (lt_iff b a).mpr h
      rw [if_pos (by omega)]

theorem asNanos_largest : largest.asNanos = 2 ^ 64 * 1000000000 - 1 := rfl

theorem asNanos_le_largest (d : Duration) : d.asNanos ≤ largest.asNanos := by
  have hsecs := d.secs.toNat_lt
  have hnanos := d.nanos_lt
  rw [asNanos_largest, asNanos]
  omega

/-- Saturating multiplication is multiplication up to the largest duration. -/
theorem asNanos_saturatingMul (d : Duration) (rhs : UInt32) :
    (d.saturatingMul rhs).asNanos = min (d.asNanos * rhs.toNat) largest.asNanos := by
  have hdist : d.asNanos * rhs.toNat =
      d.secs.toNat * rhs.toNat * 1000000000 + d.nanos.toNat * rhs.toNat := by
    rw [asNanos, Nat.add_mul, Nat.mul_right_comm]
  have hsplit := Nat.div_add_mod (d.nanos.toNat * rhs.toNat) 1000000000
  have hmod := Nat.mod_lt (d.nanos.toNat * rhs.toNat) (show 0 < 1000000000 by decide)
  rw [hdist]
  simp only [saturatingMul]
  have hlargest := asNanos_largest
  split
  · next h =>
      rw [asNanos, UInt64.toNat_ofNat_of_lt' h,
        UInt32.toNat_ofNat_of_lt' (by show _ < 2 ^ 32; omega), Nat.min_def, if_pos (by omega)]
      omega
  · next h => rw [Nat.min_def, if_neg (by omega)]

end Duration

/-! ### Backoff -/

/-- Exponential backoff parameters for reconnection. -/
structure BackoffConfig where
  /-- Initial delay after first disconnect. -/
  initial : Duration
  /-- Maximum delay between reconnection attempts. -/
  max : Duration
  /-- The floating-point jitter, a function of the capped delay and the nanoseconds of the
  clock; none if the factor is not positive. -/
  jitter : Option (Duration → UInt32 → Duration)

namespace BackoffConfig

/-- The delay before jitter. -/
def capped (config : BackoffConfig) (attempt : UInt32) : Duration :=
  let base := config.initial.saturatingMul ((1 : UInt32) <<< min attempt 20)
  min base config.max

def spread (config : BackoffConfig) (capped : Duration) (nanos : UInt32) : Duration :=
  match config.jitter with
  | none => capped
  | some jitter => jitter capped nanos

def delay (config : BackoffConfig) (attempt nanos : UInt32) : Duration :=
  config.spread (config.capped attempt) nanos

theorem toNat_min_twenty (attempt : UInt32) : (min attempt 20).toNat = min attempt.toNat 20 := by
  rw [show min attempt 20 = if attempt ≤ 20 then attempt else 20 from rfl, Nat.min_def]
  have hle : attempt ≤ 20 ↔ attempt.toNat ≤ 20 := UInt32.le_iff_toNat_le
  simp only [hle]
  split <;> rfl

/-- The delay doubles with each attempt, twenty times at most, up to the maximum. -/
theorem asNanos_capped (config : BackoffConfig) (attempt : UInt32) :
    (config.capped attempt).asNanos =
      min (config.initial.asNanos * 2 ^ min attempt.toNat 20) config.max.asNanos := by
  have hle := Nat.min_le_right attempt.toNat 20
  have hpow : 2 ^ min attempt.toNat 20 ≤ 2 ^ 20 := Nat.pow_le_pow_right (by decide) hle
  have hshift : ((1 : UInt32) <<< min attempt 20).toNat = 2 ^ min attempt.toNat 20 := by
    rw [UInt32.toNat_shiftLeft, toNat_min_twenty, Nat.mod_eq_of_lt (a := min _ 20) (by omega),
      UInt32.toNat_one, Nat.one_shiftLeft, Nat.mod_eq_of_lt (by omega)]
  have hmax := config.max.asNanos_le_largest
  rw [capped, Duration.asNanos_min, Duration.asNanos_saturatingMul, hshift, Nat.min_assoc,
    Nat.min_eq_right hmax]

end BackoffConfig

/-! ### The thread -/

/-- `attempt.saturating_add(1)`. -/
def saturatingSucc (attempt : UInt32) : UInt32 :=
  if attempt.toNat + 1 < 2 ^ 32 then attempt + 1 else attempt

/-- Configuration for a feed thread. -/
structure FeedConfig where
  ws : WsConfig
  backoff : BackoffConfig

/-- What one iteration of the read loop reads from outside. -/
structure ReadMoment where
  /-- The shutdown flag before the read. -/
  shutdown : Bool
  io : ReadIo
  /-- The clock when the callback stamps the frame. -/
  recvTs : Timestamp

/-- What one iteration of the outer loop reads from outside. -/
structure Attempt where
  /-- The shutdown flag before the connect. -/
  shutdown : Bool
  connect : ConnectIo
  reads : List ReadMoment
  /-- `subsec_nanos` of the clock when the delay is computed. -/
  nanos : UInt32
  /-- `interruptible_sleep` returned `true`. -/
  interrupted : Bool

/-- The locals of the thread and its two counters, with the logs the statements below read. -/
structure FeedLoop (σ : Type) where
  attempt : UInt32
  reconnects : UInt64
  msgCount : UInt64
  callback : σ
  delivered : List Frame
  outcomes : List Bool
  delays : List Duration

/-- Why a loop ended, if it has. -/
inductive FeedExit
  | running
  | shutdown
  /-- The callback returned `false`. -/
  | refused
  /-- There is no connection; the outer loop goes on. -/
  | lost
  deriving DecidableEq, Repr

namespace FeedLoop

variable {σ : Type}

def new (callback : σ) : FeedLoop σ := ⟨0, 0, 0, callback, [], [], []⟩

def connected (s : FeedLoop σ) : FeedLoop σ :=
  { s with
    reconnects := if 0 < s.attempt then s.reconnects + 1 else s.reconnects
    attempt := 0
    outcomes := s.outcomes ++ [true] }

def refused (s : FeedLoop σ) : FeedLoop σ := { s with outcomes := s.outcomes ++ [false] }

/-- The delay before the next attempt. -/
def backOff (config : BackoffConfig) (s : FeedLoop σ) (nanos : UInt32) : FeedLoop σ :=
  { s with
    delays := s.delays ++ [config.delay s.attempt nanos]
    attempt := saturatingSucc s.attempt }

/-- One frame: it is counted, and the callback is called on it. -/
def deliver (onMessage : σ → Frame → σ × Bool) (s : FeedLoop σ) (frame : Frame) : FeedLoop σ :=
  { s with
    msgCount := s.msgCount + 1
    callback := (onMessage s.callback frame).1
    delivered := s.delivered ++ [frame] }

end FeedLoop

section Loop

variable {σ : Type} (onMessage : σ → Frame → σ × Bool)

/-- The read loop of one connection. -/
def readLoop : WsConnection → List UInt8 → FeedLoop σ → List ReadMoment → FeedLoop σ × FeedExit
  | _, _, s, [] => (s, .running)
  | conn, buf, s, m :: ms =>
      if m.shutdown then (s, .shutdown)
      else
        match conn.readBytes buf m.io with
        -- a heartbeat or a timeout: no frame, and the flag is looked at again
        | (conn, buf, .ok 0) => readLoop conn buf s ms
        | (conn, buf, .ok (_ + 1)) =>
            if (onMessage s.callback ⟨buf, m.recvTs⟩).2 then
              readLoop conn buf (s.deliver onMessage ⟨buf, m.recvTs⟩) ms
            -- the frame is counted although the callback has refused to go on
            else (s.deliver onMessage ⟨buf, m.recvTs⟩, .refused)
        | (_, _, .error _) => (s, .lost)

/-- One iteration of the outer loop, up to the end of its sleep; `lost` if the loop goes on. -/
def iteration (config : FeedConfig) (s : FeedLoop σ) (a : Attempt) : FeedLoop σ × FeedExit :=
  if a.shutdown then (s, .shutdown)
  else
    match WsConnection.connect config.ws a.connect with
    | .error _ =>
        (s.refused.backOff config.backoff a.nanos, if a.interrupted then .shutdown else .lost)
    | .ok conn =>
        -- only a lost connection is followed by a sleep
        match readLoop onMessage conn [] s.connected a.reads with
        | (s, .lost) =>
            (s.backOff config.backoff a.nanos, if a.interrupted then .shutdown else .lost)
        | (s, exit) => (s, exit)

/-- `feed_loop`. -/
def feedLoop (config : FeedConfig) : FeedLoop σ → List Attempt → FeedLoop σ × FeedExit
  | s, [] => (s, .running)
  | s, a :: as =>
      match iteration onMessage config s a with
      | (s, .lost) => feedLoop config s as
      | (s, exit) => (s, exit)

end Loop

/-! ### What a session is to do -/

/-- The frame a moment of the read loop brings. -/
def ReadMoment.frame? (m : ReadMoment) : Option Frame := m.io.text?.map fun buf => ⟨buf, m.recvTs⟩

/-- The frames read from a connection before it fails. -/
def WsConnection.wire (conn : WsConnection) (buf : List UInt8) (ms : List ReadMoment) :
    List Frame :=
  let (_, handled, _) := conn.readAll buf (ms.map (·.io))
  (ms.take handled.length).filterMap ReadMoment.frame?

/-- Whether the connection fails during the reads. -/
def WsConnection.fails (conn : WsConnection) (buf : List UInt8) (ms : List ReadMoment) : Bool :=
  (conn.readAll buf (ms.map (·.io))).2.2.isSome

/-- The moments before the one that finds the shutdown flag set. -/
def unflagged (ms : List ReadMoment) : List ReadMoment := ms.takeWhile fun m => !m.shutdown

namespace Attempt

/-- The frames an attempt brings: those read from its connection until that fails or the flag is
seen. -/
def frames (config : WsConfig) (a : Attempt) : List Frame :=
  if a.shutdown then []
  else
    match WsConnection.connect config a.connect with
    | .error _ => []
    | .ok conn => conn.wire [] (unflagged a.reads)

/-- Whether the attempt connects. -/
def connects (config : WsConfig) (a : Attempt) : Bool :=
  match WsConnection.connect config a.connect with
  | .error _ => false
  | .ok _ => true

/-- Whether the attempt is left without a connection: there was none, or it failed before the
flag was seen. -/
def disconnects (config : WsConfig) (a : Attempt) : Bool :=
  match WsConnection.connect config a.connect with
  | .error _ => true
  | .ok conn => conn.fails [] (unflagged a.reads)

/-- How the attempt ends if the callback refuses no frame. -/
def exit (config : WsConfig) (a : Attempt) : FeedExit :=
  if a.shutdown then .shutdown
  else if a.disconnects config then if a.interrupted then .shutdown else .lost
  else if a.reads.any (·.shutdown) then .shutdown
  else .running

end Attempt

theorem wire_error {conn conn' : WsConnection} {buf buf' : List UInt8} {m : ReadMoment}
    {e : WsError} (h : conn.readBytes buf m.io = (conn', buf', .error e)) (ms : List ReadMoment) :
    conn.wire buf (m :: ms) = [] := by
  simp only [WsConnection.wire, List.map_cons, WsConnection.readAll, h]
  rfl

/-- A call that goes on brings its frame, if it announces one. -/
theorem wire_ok {conn conn' : WsConnection} {buf buf' : List UInt8} {m : ReadMoment} {n : Nat}
    (h : conn.readBytes buf m.io = (conn', buf', .ok n)) (ms : List ReadMoment) :
    conn.wire buf (m :: ms) =
      (if n = 0 then [] else [⟨buf', m.recvTs⟩]) ++ conn'.wire buf' ms := by
  have hframe : m.frame? = if n = 0 then none else some ⟨buf', m.recvTs⟩ := by
    rcases (WsConnection.readBytes_ok h).frame with ⟨hn, htext⟩ | ⟨hn, htext, -⟩
    · rw [if_pos hn, ReadMoment.frame?, htext]
      rfl
    · rw [if_neg hn, ReadMoment.frame?, htext]
      rfl
  simp only [WsConnection.wire, List.map_cons, WsConnection.readAll, h, List.length_cons,
    List.take_succ_cons]
  by_cases hn : n = 0
  · rw [if_pos hn] at hframe ⊢
    rw [List.filterMap_cons_none hframe]
    rfl
  · rw [if_neg hn] at hframe ⊢
    rw [List.filterMap_cons_some hframe]
    rfl

theorem fails_error {conn conn' : WsConnection} {buf buf' : List UInt8} {m : ReadMoment}
    {e : WsError} (h : conn.readBytes buf m.io = (conn', buf', .error e)) (ms : List ReadMoment) :
    conn.fails buf (m :: ms) = true := by
  simp only [WsConnection.fails, List.map_cons, WsConnection.readAll, h]
  rfl

theorem fails_ok {conn conn' : WsConnection} {buf buf' : List UInt8} {m : ReadMoment} {n : Nat}
    (h : conn.readBytes buf m.io = (conn', buf', .ok n)) (ms : List ReadMoment) :
    conn.fails buf (m :: ms) = conn'.fails buf' ms := by
  simp only [WsConnection.fails, List.map_cons, WsConnection.readAll, h]

theorem unflagged_cons {m : ReadMoment} (h : m.shutdown = false) (ms : List ReadMoment) :
    unflagged (m :: ms) = m :: unflagged ms := by
  simp only [unflagged, List.takeWhile_cons, h, Bool.not_false, if_true]

theorem unflagged_stop {m : ReadMoment} (h : m.shutdown = true) (ms : List ReadMoment) :
    unflagged (m :: ms) = [] := by
  simp only [unflagged, List.takeWhile_cons, h, Bool.not_true, Bool.false_eq_true, if_false]

section Attempts

variable {config : WsConfig} {a : Attempt}

end Attempts

/-! ### Delivery -/

section Delivery

variable {σ : Type} {onMessage : σ → Frame → σ × Bool}

/-- The callback returned `true` on every frame. -/
def Accepts (onMessage : σ → Frame → σ × Bool) (callback : σ) (frames : List Frame) : Prop :=
  AllSteps (fun cb frame => (onMessage cb frame).1) (fun cb frame => (onMessage cb frame).2 = true)
    callback frames

/-- The state of the callback after the frames. -/
def called (onMessage : σ → Frame → σ × Bool) (callback : σ) (frames : List Frame) : σ :=
  run (fun cb frame => (onMessage cb frame).1) callback frames

/-- From `s` to `s'` the frames were delivered; unless the last was refused, all were
accepted. -/
structure Delivers (onMessage : σ → Frame → σ × Bool) (s s' : FeedLoop σ) (frames : List Frame)
    (exit : FeedExit) : Prop where
  delivered : s'.delivered = s.delivered ++ frames
  counted : s'.msgCount = s.msgCount + UInt64.ofNat frames.length
  callback : s'.callback = called onMessage s.callback frames
  accepted : exit ≠ .refused → Accepts onMessage s.callback frames
  refusal : exit = .refused → ∃ pre frame, frames = pre ++ [frame] ∧
    Accepts onMessage s.callback pre ∧
    (onMessage (called onMessage s.callback pre) frame).2 = false

theorem Delivers.nil {s s' : FeedLoop σ} {exit : FeedExit} (hdelivered : s'.delivered = s.delivered)
    (hcount : s'.msgCount = s.msgCount) (hcallback : s'.callback = s.callback)
    (hexit : exit ≠ .refused) : Delivers onMessage s s' [] exit := by
  refine ⟨?_, ?_, hcallback, fun _ => trivial, fun h => absurd h hexit⟩
  · rw [hdelivered, List.append_nil]
  · rw [hcount]
    exact (UInt64.add_zero _).symm

theorem Delivers.append {a b c : FeedLoop σ} {frames frames' : List Frame} {exit exit' : FeedExit}
    (hab : Delivers onMessage a b frames exit) (hexit : exit ≠ .refused)
    (hbc : Delivers onMessage b c frames' exit') :
    Delivers onMessage a c (frames ++ frames') exit' := by
  have hfirst := hab.accepted hexit
  have hcallback := hab.callback
  refine ⟨?_, ?_, ?_, fun h => ?_, fun h => ?_⟩
  · rw [hbc.delivered, hab.delivered, List.append_assoc]
  · rw [hbc.counted, hab.counted, List.length_append, UInt64.ofNat_add, UInt64.add_assoc]
  · rw [hbc.callback, hcallback, called, called, called, run_append]
  · have hsecond := hbc.accepted h
    rw [hcallback] at hsecond
    exact allSteps_append.mpr ⟨hfirst, hsecond⟩
  · obtain ⟨pre, frame, rfl, hpre, hlast⟩ := hbc.refusal h
    rw [hcallback] at hpre hlast
    refine ⟨frames ++ pre, frame, (List.append_assoc ..).symm, ?_, ?_⟩
    · exact allSteps_append.mpr ⟨hfirst, hpre⟩
    · rw [called, run_append]
      exact hlast

theorem delivers_deliver (s : FeedLoop σ) (frame : Frame) {exit : FeedExit}
    (hexit : exit = .refused ↔ (onMessage s.callback frame).2 = false) :
    Delivers onMessage s (s.deliver onMessage frame) [frame] exit := by
  refine ⟨rfl, rfl, rfl, fun h => ⟨?_, trivial⟩, fun h => ⟨[], frame, rfl, trivial, hexit.mp h⟩⟩
  exact Bool.eq_true_of_not_eq_false (mt hexit.mpr h)

/-- How the read loop ends if the callback refuses no frame. -/
def readExit (conn : WsConnection) (buf : List UInt8) (ms : List ReadMoment) : FeedExit :=
  if conn.fails buf (unflagged ms) then .lost
  else if ms.any (·.shutdown) then .shutdown
  else .running

theorem readExit_lost {conn : WsConnection} {buf : List UInt8} {ms : List ReadMoment} :
    readExit conn buf ms = .lost ↔ conn.fails buf (unflagged ms) = true := by
  rw [readExit]
  split
  · next h => exact ⟨fun _ => h, fun _ => rfl⟩
  · next h => split <;> exact ⟨fun hlost => (by cases hlost), fun hfails => absurd hfails h⟩

variable (onMessage) in
/-- The read loop delivers what comes over the wire before the flag, all of it unless the callback
refuses a frame. -/
theorem readLoop_delivers (conn : WsConnection) (buf : List UInt8) (s : FeedLoop σ)
    (ms : List ReadMoment) :
    ∃ frames, Delivers onMessage s (readLoop onMessage conn buf s ms).1 frames
        (readLoop onMessage conn buf s ms).2 ∧ frames <+: conn.wire buf (unflagged ms) ∧
      ((readLoop onMessage conn buf s ms).2 ≠ .refused →
        frames = conn.wire buf (unflagged ms) ∧
          (readLoop onMessage conn buf s ms).2 = readExit conn buf ms) := by
  induction ms generalizing conn buf s with
  | nil =>
      exact ⟨[], .nil rfl rfl rfl (by simp [readLoop]), List.nil_prefix, fun _ => ⟨rfl, rfl⟩⟩
  | cons m ms ih =>
      cases hshutdown : m.shutdown with
      | true =>
          have hexit : readExit conn buf (m :: ms) = .shutdown := by
            rw [readExit, unflagged_stop hshutdown, List.any_cons, hshutdown, Bool.true_or]
            rfl
          rw [readLoop, if_pos hshutdown, unflagged_stop hshutdown]
          exact ⟨[], .nil rfl rfl rfl (by simp), List.nil_prefix, fun _ => ⟨rfl, hexit.symm⟩⟩
      | false =>
          have hrunning : ¬m.shutdown = true := by simp [hshutdown]
          rw [readLoop, if_neg hrunning]
          rcases hcall : conn.readBytes buf m.io with ⟨conn', buf', e | n⟩
          · have hexit : readExit conn buf (m :: ms) = .lost := by
              rw [readExit, unflagged_cons hshutdown, fails_error hcall]
              rfl
            rw [unflagged_cons hshutdown, wire_error hcall]
            exact ⟨[], .nil rfl rfl rfl (by simp), List.nil_prefix, fun _ => ⟨rfl, hexit.symm⟩⟩
          · have hexit : readExit conn buf (m :: ms) = readExit conn' buf' ms := by
              rw [readExit, readExit, unflagged_cons hshutdown, fails_ok hcall, List.any_cons,
                hshutdown, Bool.false_or]
            rw [unflagged_cons hshutdown, wire_ok hcall, hexit]
            cases n with
            | zero => exact ih conn' buf' s
            | succ n =>
                rw [if_neg n.succ_ne_zero]
                by_cases hverdict : (onMessage s.callback ⟨buf', m.recvTs⟩).2 = true
                · obtain ⟨frames, hrest, hprefix, hall⟩ :=
                    ih conn' buf' (s.deliver onMessage ⟨buf', m.recvTs⟩)
                  have hfirst : Delivers onMessage s (s.deliver onMessage ⟨buf', m.recvTs⟩)
                      [⟨buf', m.recvTs⟩] .running :=
                    delivers_deliver s _ (by simp [hverdict])
                  simp only [hverdict, if_true]
                  refine ⟨_, hfirst.append (by simp) hrest,
                    (List.prefix_append_right_inj _).mpr hprefix, fun h => ?_⟩
                  exact ⟨by rw [(hall h).1], (hall h).2⟩
                · simp only [hverdict]
                  exact ⟨_, delivers_deliver s _ (by simpa using hverdict),
                    List.prefix_append _ _, fun h => absurd rfl h⟩

variable (onMessage) in
/-- It touches nothing else. -/
theorem readLoop_keeps (conn : WsConnection) (buf : List UInt8) (s : FeedLoop σ)
    (ms : List ReadMoment) :
    (readLoop onMessage conn buf s ms).1.attempt = s.attempt ∧
      (readLoop onMessage conn buf s ms).1.reconnects = s.reconnects ∧
      (readLoop onMessage conn buf s ms).1.outcomes = s.outcomes ∧
      (readLoop onMessage conn buf s ms).1.delays = s.delays := by
  induction ms generalizing conn buf s with
  | nil => exact ⟨rfl, rfl, rfl, rfl⟩
  | cons m ms ih =>
      rw [readLoop]
      split
      · exact ⟨rfl, rfl, rfl, rfl⟩
      · split
        · exact ih ..
        · split
          · exact ih ..
          · exact ⟨rfl, rfl, rfl, rfl⟩
        · exact ⟨rfl, rfl, rfl, rfl⟩

variable (onMessage) in
/-- One attempt that begins: its frames, its exit and its connect. -/
theorem iteration_delivers (config : FeedConfig) (s : FeedLoop σ) {a : Attempt}
    (hopen : a.shutdown = false) :
    ∃ frames, Delivers onMessage s (iteration onMessage config s a).1 frames
        (iteration onMessage config s a).2 ∧ frames <+: a.frames config.ws ∧
      ((iteration onMessage config s a).2 ≠ .refused →
        frames = a.frames config.ws ∧
          (iteration onMessage config s a).2 = a.exit config.ws) ∧
      (iteration onMessage config s a).1.outcomes = s.outcomes ++ [a.connects config.ws] := by
  have hsleep : ∀ interrupted : Bool,
      (if interrupted = true then FeedExit.shutdown else .lost) ≠ .refused := by decide
  have hbegins : ¬a.shutdown = true := by simp [hopen]
  rw [iteration, if_neg hbegins]
  rcases hconnect : WsConnection.connect config.ws a.connect with e | conn
  · have hframes : a.frames config.ws = [] := by
      simp only [Attempt.frames, if_neg hbegins, hconnect]
    have hconnects : a.connects config.ws = false := by simp only [Attempt.connects, hconnect]
    have hexit : a.exit config.ws = if a.interrupted = true then .shutdown else .lost := by
      simp only [Attempt.exit, if_neg hbegins, Attempt.disconnects, hconnect, if_true]
    rw [hframes, hconnects, hexit]
    exact ⟨[], .nil rfl rfl rfl (hsleep _), List.prefix_rfl, fun _ => ⟨rfl, rfl⟩, rfl⟩
  · have hframes : a.frames config.ws = conn.wire [] (unflagged a.reads) := by
      simp only [Attempt.frames, if_neg hbegins, hconnect]
    have hconnects : a.connects config.ws = true := by simp only [Attempt.connects, hconnect]
    have hdisconnects : a.disconnects config.ws = conn.fails [] (unflagged a.reads) := by
      simp only [Attempt.disconnects, hconnect]
    obtain ⟨frames, hdelivers, hprefix, hall⟩ :=
      readLoop_delivers onMessage conn [] s.connected a.reads
    obtain ⟨-, -, houtcomes, -⟩ :=
      readLoop_keeps onMessage conn [] s.connected a.reads
    rw [hframes, hconnects, Attempt.exit, if_neg hbegins, hdisconnects]
    refine ⟨frames, ?_⟩
    dsimp only
    split
    · next s' hlost =>
        rw [hlost] at hdelivers hall houtcomes
        obtain ⟨hframes', hread⟩ := hall (by simp)
        refine ⟨⟨hdelivers.1, hdelivers.2, hdelivers.3, fun _ => hdelivers.4 (by simp),
          fun h => absurd h (hsleep _)⟩, hprefix, fun _ => ⟨hframes', ?_⟩, houtcomes⟩
        rw [if_pos (readExit_lost.mp hread.symm)]
    · next s' exit hnot hrun =>
        rw [hrun] at hdelivers hall houtcomes
        refine ⟨⟨hdelivers.1, hdelivers.2, hdelivers.3, hdelivers.4, hdelivers.5⟩, hprefix,
          fun h => ⟨(hall h).1, ?_⟩, houtcomes⟩
        have hread : exit = readExit conn [] a.reads := (hall h).2
        have hfails := mt readExit_lost.mpr (hread ▸ hnot)
        rw [if_neg hfails, hread, readExit, if_neg hfails]

-- The first connection is closed by the server; on the second the flag is seen.
example :
    let moment (shutdown : Bool) (message : Message) : ReadMoment :=
      ⟨shutdown, ⟨⟨0, .ok (), 0⟩, .message message, .ok (), ⟨0, .ok (), 0⟩⟩, 7⟩
    let attempt (reads : List ReadMoment) : Attempt :=
      ⟨false, ⟨.ok (), 0, .ok ()⟩, reads, 0, false⟩
    let config : FeedConfig := ⟨⟨none, none⟩, ⟨.largest, .largest, none⟩⟩
    let run := feedLoop (fun _ _ => ((), true)) config (.new ())
      [attempt [moment false (.text [1]), moment false (.text pongText), moment false .close],
        attempt [moment false (.text [2]), moment true (.text [3])], attempt []]
    run.1.delivered = [⟨[1], 7⟩, ⟨[2], 7⟩] ∧ run.1.reconnects = 1 ∧ run.2 = .shutdown :=
  ⟨rfl, rfl, rfl⟩

end Delivery

/-! ### Reconnecting -/

/-- The counter after `n` increments. -/
def saturated (n : Nat) : UInt32 := UInt32.ofNat (min n (2 ^ 32 - 1))

theorem toNat_saturated (n : Nat) : (saturated n).toNat = min n (2 ^ 32 - 1) := by
  have hle := Nat.min_le_right n (2 ^ 32 - 1)
  exact UInt32.toNat_ofNat_of_lt' (by show _ < 2 ^ 32; omega)

theorem saturatingSucc_saturated (n : Nat) :
    saturatingSucc (saturated n) = saturated (n + 1) := by
  have hn := toNat_saturated n
  have hsucc := toNat_saturated (n + 1)
  rw [← UInt32.toNat_inj, hsucc, saturatingSucc]
  split
  · next h =>
      rw [UInt32.toNat_add, hn, UInt32.toNat_one]
      omega
  · next h =>
      rw [hn]
      omega

theorem saturated_pos (n : Nat) : 0 < saturated n ↔ 0 < n := by
  rw [UInt32.lt_iff_toNat_lt, toNat_saturated, UInt32.toNat_zero]
  omega

/-- For each connect of a session, how many attempts there were since the last that
succeeded. -/
def outageIndices : Nat → List Bool → List Nat
  | _, [] => []
  | n, connected :: outcomes =>
      let k := if connected then 0 else n
      k :: outageIndices (k + 1) outcomes

section Backoff

variable {σ : Type} {onMessage : σ → Frame → σ × Bool}

variable (onMessage) in
/-- One iteration counts a reconnect and, once there is no connection, sleeps. -/
theorem iteration_backsOff (config : FeedConfig) (s : FeedLoop σ) {a : Attempt}
    (hopen : a.shutdown = false) :
    (iteration onMessage config s a).1.reconnects =
        s.reconnects + (if a.connects config.ws = true ∧ 0 < s.attempt then 1 else 0) ∧
      ((iteration onMessage config s a).1.delays = s.delays ∧
          (iteration onMessage config s a).2 ≠ .lost ∨
        (iteration onMessage config s a).1.delays = s.delays ++
            [config.backoff.delay (if a.connects config.ws then 0 else s.attempt) a.nanos] ∧
          (iteration onMessage config s a).1.attempt =
            saturatingSucc (if a.connects config.ws then 0 else s.attempt)) := by
  rw [iteration, hopen, if_neg Bool.false_ne_true]
  rcases hconnect : WsConnection.connect config.ws a.connect with e | conn
  · have hconnects : a.connects config.ws = false := by simp only [Attempt.connects, hconnect]
    rw [hconnects]
    exact ⟨(UInt64.add_zero _).symm, Or.inr ⟨rfl, rfl⟩⟩
  · have hconnects : a.connects config.ws = true := by simp only [Attempt.connects, hconnect]
    have hreconnects : s.connected.reconnects =
        s.reconnects + (if true = true ∧ 0 < s.attempt then 1 else 0) := by
      simp only [FeedLoop.connected, true_and]
      split
      · rfl
      · exact (UInt64.add_zero _).symm
    obtain ⟨hattempt, hcount, -, hdelays⟩ :=
      readLoop_keeps onMessage conn [] s.connected a.reads
    rw [hconnects, ← hreconnects]
    dsimp only
    split
    · next s' hlost =>
        rw [hlost] at hattempt hcount hdelays
        change s'.attempt = 0 at hattempt
        change s'.delays = s.delays at hdelays
        rw [if_pos rfl, ← hattempt, ← hdelays]
        exact ⟨hcount, Or.inr ⟨rfl, rfl⟩⟩
    · next s' exit hnot hexit =>
        rw [hexit] at hcount hdelays
        exact ⟨hcount, Or.inl ⟨hdelays, hnot⟩⟩

/-- The connects after the first attempt that succeeded. -/
def reconnections (n : Nat) (outcomes : List Bool) : Nat :=
  (outcomes.drop (if n = 0 then 1 else 0)).count true

theorem reconnections_cons (n : Nat) (connected : Bool) (outcomes : List Bool) :
    reconnections n (connected :: outcomes) =
      (if connected = true ∧ 0 < n then 1 else 0) + outcomes.count true := by
  by_cases hn : n = 0
  · rw [reconnections, if_pos hn, List.drop_one, List.tail_cons, if_neg (by omega), Nat.zero_add]
  · rw [reconnections, if_neg hn, List.drop_zero, List.count_cons, Nat.add_comm]
    have hpos : 0 < n := Nat.pos_of_ne_zero hn
    cases connected <;> simp [hpos]

variable (onMessage) in
/-- The same in terms of the attempts counted: a connection has reset the counter. -/
theorem iteration_counts (config : FeedConfig) (s : FeedLoop σ) {n : Nat} {a : Attempt}
    (hopen : a.shutdown = false) (hattempt : s.attempt = saturated n) :
    let k := if a.connects config.ws = true then 0 else n
    (iteration onMessage config s a).1.reconnects = s.reconnects +
        UInt64.ofNat (if a.connects config.ws = true ∧ 0 < n then 1 else 0) ∧
      ((iteration onMessage config s a).1.delays = s.delays ∧
          (iteration onMessage config s a).2 ≠ .lost ∨
        (iteration onMessage config s a).1.delays = s.delays ++
            [config.backoff.delay (saturated k) a.nanos] ∧
          (iteration onMessage config s a).1.attempt = saturated (k + 1)) := by
  intro k
  obtain ⟨hcount, hsleep⟩ := iteration_backsOff onMessage config s hopen
  have hindex : (if a.connects config.ws = true then 0 else s.attempt) = saturated k := by
    rw [hattempt]
    show _ = saturated (if a.connects config.ws = true then 0 else n)
    split <;> rfl
  have hone : (if a.connects config.ws = true ∧ 0 < s.attempt then (1 : UInt64) else 0) =
      UInt64.ofNat (if a.connects config.ws = true ∧ 0 < n then 1 else 0) := by
    simp only [hattempt, saturated_pos]
    split <;> rfl
  rw [hindex, saturatingSucc_saturated] at hsleep
  rw [hone] at hcount
  exact ⟨hcount, hsleep⟩

/-- What a session adds to its logs when the thread has counted `n` attempts so far, begins the
attempts `begun` and sleeps for the delays `ended`. -/
structure BacksOff (config : FeedConfig) (n : Nat) (s s' : FeedLoop σ) (begun : List Attempt)
    (ended : List Duration) : Prop where
  outcomes : s'.outcomes = s.outcomes ++ begun.map (Attempt.connects config.ws)
  delays : s'.delays = s.delays ++ ended
  schedule : ended <+: List.zipWith (fun k a => config.backoff.delay (saturated k) a.nanos)
    (outageIndices n (begun.map (Attempt.connects config.ws))) begun
  follows : begun.length ≤ ended.length + 1
  reconnects : s'.reconnects = s.reconnects +
    UInt64.ofNat (reconnections n (begun.map (Attempt.connects config.ws)))

theorem BacksOff.nil {config : FeedConfig} {n : Nat} {s : FeedLoop σ} :
    BacksOff config n s s [] [] := by
  refine ⟨(List.append_nil _).symm, (List.append_nil _).symm, List.prefix_rfl, Nat.zero_le _, ?_⟩
  rw [List.map_nil, reconnections, List.drop_nil]
  exact (UInt64.add_zero _).symm

/-- An attempt with the sleep after it, and the session from there. -/
theorem BacksOff.cons {config : FeedConfig} {n : Nat} {s s' s'' : FeedLoop σ} {a : Attempt}
    {begun : List Attempt} {ended : List Duration}
    (houtcomes : s'.outcomes = s.outcomes ++ [a.connects config.ws])
    (hdelays : s'.delays = s.delays ++ [config.backoff.delay
      (saturated (if a.connects config.ws = true then 0 else n)) a.nanos])
    (hcount : s'.reconnects = s.reconnects +
      UInt64.ofNat (if a.connects config.ws = true ∧ 0 < n then 1 else 0))
    (h : BacksOff config ((if a.connects config.ws = true then 0 else n) + 1) s' s'' begun ended) :
    BacksOff config n s s'' (a :: begun) (config.backoff.delay
      (saturated (if a.connects config.ws = true then 0 else n)) a.nanos :: ended) := by
  refine ⟨?_, ?_, (List.prefix_cons_inj _).mpr h.schedule, Nat.succ_le_succ h.follows, ?_⟩
  · rw [h.outcomes, houtcomes, List.append_assoc]
    rfl
  · rw [h.delays, hdelays, List.append_assoc]
    rfl
  · rw [h.reconnects, hcount, List.map_cons, reconnections_cons, UInt64.ofNat_add,
      UInt64.add_assoc]
    rfl

variable (onMessage) in
/-- The whole session, when the thread has counted `n` attempts so far. -/
theorem feedLoop_backsOff (config : FeedConfig) (s : FeedLoop σ) {n : Nat}
    (hattempt : s.attempt = saturated n) (as : List Attempt) :
    ∃ begun ended, begun <+: as ∧
      BacksOff config n s (feedLoop onMessage config s as).1 begun ended := by
  induction as generalizing s n with
  | nil => exact ⟨[], [], List.prefix_rfl, .nil⟩
  | cons a as ih =>
      cases hshutdown : a.shutdown with
      | true =>
          rw [feedLoop, iteration, hshutdown, if_pos rfl]
          exact ⟨[], [], List.nil_prefix, .nil⟩
      | false =>
          obtain ⟨-, -, -, -, houtcomes⟩ := iteration_delivers onMessage config s hshutdown
          obtain ⟨hcount, hsleep⟩ := iteration_counts onMessage config s hshutdown hattempt
          rw [feedLoop]
          split
          · next s' hlost =>
              rw [hlost] at hcount hsleep houtcomes
              obtain ⟨-, habsurd⟩ | ⟨hdelays, hnext⟩ := hsleep
              · exact absurd rfl habsurd
              obtain ⟨begun, ended, hbegun, hrest⟩ := ih s' hnext
              exact ⟨a :: begun, _ :: ended, (List.prefix_cons_inj a).mpr hbegun,
                hrest.cons houtcomes hdelays hcount⟩
          · next s' exit _ hexit =>
              rw [hexit] at hcount hsleep houtcomes
              obtain ⟨hdelays, -⟩ | ⟨hdelays, -⟩ := hsleep
              · -- the thread is still in the read loop, or has left it without a sleep
                refine ⟨[a], [], ⟨as, rfl⟩, houtcomes, ?_, List.nil_prefix, Nat.le_refl _, ?_⟩
                · rw [List.append_nil]
                  exact hdelays
                · rw [List.map_singleton, reconnections_cons]
                  exact hcount
              · exact ⟨[a], [_], ⟨as, rfl⟩, BacksOff.nil.cons houtcomes hdelays hcount⟩

/-- **Reconnecting.** In every session the delay before an attempt is the initial delay doubled
once for each attempt since the last connect that succeeded, twenty times at most, capped at
the maximum, with the jitter applied; each attempt but the last has been followed by its
delay. `reconnects` counts the connects that succeeded after the first attempt. -/
theorem session_backsOff (onMessage : σ → Frame → σ × Bool) (config : FeedConfig) (callback : σ)
    (attempts : List Attempt) :
    ∃ s exit begun, feedLoop onMessage config (.new callback) attempts = (s, exit) ∧
      begun <+: attempts ∧ s.outcomes = begun.map (Attempt.connects config.ws) ∧
      s.delays <+: List.zipWith (fun k a =>
        config.backoff.spread (config.backoff.capped (saturated k)) a.nanos)
        (outageIndices 0 s.outcomes) begun ∧
      (∀ k, (config.backoff.capped (saturated k)).asNanos =
        min (config.backoff.initial.asNanos * 2 ^ min k 20) config.backoff.max.asNanos) ∧
      begun.length ≤ s.delays.length + 1 ∧
      s.reconnects = UInt64.ofNat (s.outcomes.tail.count true) := by
  obtain ⟨begun, ended, hbegun, houtcomes, hdelays, hended, hlen, hcount⟩ :=
    feedLoop_backsOff onMessage config (.new callback) (n := 0) rfl attempts
  have hdelays' : (feedLoop onMessage config (.new callback) attempts).1.delays = ended := hdelays
  have houtcomes' : (feedLoop onMessage config (.new callback) attempts).1.outcomes =
      begun.map (Attempt.connects config.ws) := houtcomes
  refine ⟨_, _, begun, rfl, hbegun, houtcomes, ?_, fun k => ?_, ?_, ?_⟩
  · rw [hdelays', houtcomes']
    exact hended
  · rw [BackoffConfig.asNanos_capped, toNat_saturated, Nat.min_assoc]
    rfl
  · rw [hdelays']
    exact hlen
  · rw [houtcomes', ← List.drop_one]
    exact hcount.trans (UInt64.zero_add _)

end Backoff

end Mantis

import Mantis.Transport.Timer
import Mathlib.Data.List.Chain

/-!
# Mantis.Transport.Ws

One websocket connection (`crates/transport/src/ws.rs`): `read_bytes` hands on the text
frames, answers a ping with a pong, and sends the text `PING` when the last one is older
than the configured interval.

What a call reads from outside is a `ReadIo`: the clock, what the socket returned, and
whether each send went through. The connection keeps the log of what it sent. Calls are
made until one fails (`readAll`), and the results are about all of them.
-/

namespace Mantis

/-! ### The socket -/

/-- A message of the websocket. -/
inductive Message
  | text (data : List UInt8)
  | binary (data : List UInt8)
  | ping (data : List UInt8)
  | pong (data : List UInt8)
  | close
  /-- A raw frame. -/
  | frame
  deriving DecidableEq, Repr

/-- Errors from WebSocket operations. -/
inductive WsError
  /-- Connection or handshake failed. -/
  | connect (msg : String)
  /-- Read from socket failed. -/
  | read (msg : String)
  /-- Send to socket failed. -/
  | send (msg : String)
  /-- Server closed the connection. -/
  | closed
  deriving DecidableEq, Repr

/-- What the socket returns to a read. -/
inductive WsRead
  | message (message : Message)
  /-- `WouldBlock` or `TimedOut`. -/
  | timedOut
  | failed (error : String)
  deriving DecidableEq, Repr

/-- What `maybe_send_ping` reads from outside. -/
structure PingIo where
  /-- The instant of `last_ping.elapsed()`. -/
  checkedAt : Nat
  send : Except String Unit
  /-- The instant after the send. -/
  sentAt : Nat

/-- What one call of `read_bytes` reads from outside. -/
structure ReadIo where
  before : PingIo
  read : WsRead
  pong : Except String Unit
  /-- The second check, made when the read timed out. -/
  after : PingIo

/-- Configuration for a WebSocket connection, as far as it is read here. -/
structure WsConfig where
  /-- Subscription message to send after connecting. -/
  subscribeMsg : Option (List UInt8)
  /-- Text heartbeat interval; `none` disables text pings. -/
  pingInterval : Option Duration

/-- What `connect` reads from outside: whether the socket was set up, and the send. -/
structure ConnectIo where
  socket : Except String Unit
  now : Nat
  subscribe : Except String Unit

/-- `b"PING"`. -/
def pingText : List UInt8 := [0x50, 0x49, 0x4e, 0x47]

/-- `b"PONG"`. -/
def pongText : List UInt8 := [0x50, 0x4f, 0x4e, 0x47]

/-- The text frame a read hands on. -/
def ReadIo.text? (io : ReadIo) : Option (List UInt8) :=
  match io.read with
  | .message (.text data) => if data = pongText ∨ data = [] then none else some data
  | _ => none

/-- The payload of a ping to answer. -/
def ReadIo.ping? (io : ReadIo) : Option (List UInt8) :=
  match io.read with
  | .message (.ping data) => some data
  | _ => none

def Message.pong? : Message → Option (List UInt8)
  | .pong data => some data
  | _ => none

def Message.text? : Message → Option (List UInt8)
  | .text data => some data
  | _ => none

/-! ### The connection -/

/-- A managed WebSocket connection with heartbeat support. -/
structure WsConnection where
  pingInterval : Option Duration
  lastPing : Nat
  /-- Every message sent. -/
  sent : List Message
  /-- The instants recorded as `last_ping`. -/
  pings : List Nat

namespace WsConnection

/-- A connection just made; `subscribe` is the subscription message sent on it. -/
def opened (pingInterval : Option Duration) (subscribe : Option (List UInt8)) (now : Nat) :
    WsConnection :=
  ⟨pingInterval, now, (subscribe.map Message.text).toList, []⟩

/-- Connect to the WebSocket endpoint, send subscription message if configured. -/
def connect (config : WsConfig) (io : ConnectIo) : Except WsError WsConnection :=
  match io.socket with
  | .error e => .error (.connect e)
  | .ok () =>
      match config.subscribeMsg with
      | some sub =>
          match io.subscribe with
          | .ok () => .ok (.opened config.pingInterval (some sub) io.now)
          | .error e => .error (.send ("subscribe: " ++ e))
      | none => .ok (.opened config.pingInterval none io.now)

def sendPing (conn : WsConnection) (io : PingIo) : WsConnection × Except WsError Unit :=
  match io.send with
  | .ok () =>
      ({ conn with
          sent := conn.sent ++ [.text pingText], lastPing := io.sentAt,
          pings := conn.pings ++ [io.sentAt] }, .ok ())
  | .error e => (conn, .error (.send ("ping: " ++ e)))

def maybeSendPing (conn : WsConnection) (io : PingIo) : WsConnection × Except WsError Unit :=
  match conn.pingInterval with
  | some interval =>
      if interval.asNanos ≤ io.checkedAt - conn.lastPing then conn.sendPing io else (conn, .ok ())
  | none => (conn, .ok ())

/-- Read the next text frame into `buf`, returning the number of bytes written. -/
def readBytes (conn : WsConnection) (buf : List UInt8) (io : ReadIo) :
    WsConnection × List UInt8 × Except WsError Nat :=
  match conn.maybeSendPing io.before with
  | (conn, .error e) => (conn, buf, .error e)
  | (conn, .ok ()) =>
      match io.read with
      | .message (.text data) =>
          -- the answer to a text heartbeat is not a frame
          if data = pongText then (conn, buf, .ok 0) else (conn, data, .ok data.length)
      | .message (.ping data) =>
          match io.pong with
          | .ok () => ({ conn with sent := conn.sent ++ [.pong data] }, buf, .ok 0)
          | .error e => (conn, buf, .error (.send ("pong: " ++ e)))
      | .message (.pong _) => (conn, buf, .ok 0)
      | .message (.binary _) => (conn, buf, .ok 0)
      | .message .frame => (conn, buf, .ok 0)
      | .message .close => (conn, buf, .error .closed)
      | .timedOut =>
          -- The read may have taken the whole read timeout, so a heartbeat may be due now.
          match conn.maybeSendPing io.after with
          | (conn, .ok ()) => (conn, buf, .ok 0)
          | (conn, .error e) => (conn, buf, .error e)
      | .failed e => (conn, buf, .error (.read e))

/-- Calls of `read_bytes` until one fails: the connection afterwards, the calls that returned
`Ok`, and the error. -/
def readAll : WsConnection → List UInt8 → List ReadIo →
    WsConnection × List ReadIo × Option WsError
  | conn, _, [] => (conn, [], none)
  | conn, buf, io :: ios =>
      match conn.readBytes buf io with
      | (conn, buf, .ok _) =>
          let (conn, handled, error) := conn.readAll buf ios
          (conn, io :: handled, error)
      | (conn, _, .error e) => (conn, [], some e)

/-! ### One call -/

/-- What a check for a due heartbeat does. -/
theorem maybeSendPing_cases (conn : WsConnection) (io : PingIo) :
    (∃ e, conn.maybeSendPing io = (conn, .error e)) ∨
    (conn.maybeSendPing io = (conn, .ok ()) ∧
      ∀ interval, conn.pingInterval = some interval →
        io.checkedAt - conn.lastPing < interval.asNanos) ∨
    (∃ interval, conn.pingInterval = some interval ∧
      interval.asNanos ≤ io.checkedAt - conn.lastPing ∧
      conn.maybeSendPing io =
        ({ conn with
            sent := conn.sent ++ [.text pingText], lastPing := io.sentAt,
            pings := conn.pings ++ [io.sentAt] }, .ok ())) := by
  rcases hinterval : conn.pingInterval with _ | interval
  · refine Or.inr (Or.inl ⟨by simp only [maybeSendPing, hinterval], fun _ h => ?_⟩)
    cases h
  · by_cases hdue : interval.asNanos ≤ io.checkedAt - conn.lastPing
    · rcases hsend : io.send with e | ⟨⟩
      · exact Or.inl ⟨_, by simp only [maybeSendPing, hinterval, if_pos hdue, sendPing, hsend]; rfl⟩
      · refine Or.inr (Or.inr ⟨interval, rfl, hdue, ?_⟩)
        simp only [maybeSendPing, hinterval, if_pos hdue, sendPing, hsend]
    · refine Or.inr (Or.inl ⟨by simp only [maybeSendPing, hinterval, if_neg hdue], ?_⟩)
      rintro _ ⟨⟩
      exact Nat.lt_of_not_le hdue

/-- A call that fails has made the first check, and the second if its read timed out. -/
theorem readBytes_error {conn conn' : WsConnection} {buf buf' : List UInt8} {io : ReadIo}
    {e : WsError} (h : conn.readBytes buf io = (conn', buf', .error e)) :
    conn' = (conn.maybeSendPing io.before).1 ∨
      conn' = ((conn.maybeSendPing io.before).1.maybeSendPing io.after).1 := by
  rcases hcheck : conn.maybeSendPing io.before with ⟨checked, e | ⟨⟩⟩
  · simp only [readBytes, hcheck] at h
    cases h
    exact Or.inl rfl
  · rcases hread : io.read with message | _ | e
    · cases message with
      | text =>
          simp only [readBytes, hcheck, hread] at h
          split at h <;> cases h
      | ping =>
          simp only [readBytes, hcheck, hread] at h
          split at h
          · cases h
          · cases h
            exact Or.inl rfl
      | pong | binary | frame =>
          simp only [readBytes, hcheck, hread] at h
          cases h
      | close =>
          simp only [readBytes, hcheck, hread] at h
          cases h
          exact Or.inl rfl
    · simp only [readBytes, hcheck, hread] at h
      split at h
      · cases h
      · next hagain =>
          cases h
          exact Or.inr (by rw [hagain])
    · simp only [readBytes, hcheck, hread] at h
      cases h
      exact Or.inl rfl

/-- What a call that returns `Ok` has done. -/
structure Handles (conn : WsConnection) (buf : List UInt8) (io : ReadIo) (conn' : WsConnection)
    (buf' : List UInt8) (n : Nat) : Prop where
  checked : (conn.maybeSendPing io.before).2 = .ok ()
  /-- A read that timed out has checked again. -/
  again : io.read = .timedOut → ((conn.maybeSendPing io.before).1.maybeSendPing io.after).2 =
    .ok () ∧ conn' = ((conn.maybeSendPing io.before).1.maybeSendPing io.after).1
  /-- Any other has answered the ping it read. -/
  answered : io.read ≠ .timedOut → conn' = { (conn.maybeSendPing io.before).1 with
    sent := (conn.maybeSendPing io.before).1.sent ++ io.ping?.toList.map .pong }
  /-- The length announces a frame exactly if there is one to hand on. -/
  frame : n = 0 ∧ io.text? = none ∨ n ≠ 0 ∧ io.text? = some buf' ∧ n = buf'.length

/-- A read that is not a ping leaves the connection as the first check left it. -/
theorem Handles.quiet {conn checked : WsConnection} {io : ReadIo}
    (hcheck : conn.maybeSendPing io.before = (checked, .ok ())) (hread : io.read ≠ .timedOut)
    (hping : io.ping? = none) {buf buf' : List UInt8} {n : Nat}
    (hframe : n = 0 ∧ io.text? = none ∨ n ≠ 0 ∧ io.text? = some buf' ∧ n = buf'.length) :
    Handles conn buf io checked buf' n := by
  refine ⟨by rw [hcheck], fun htimeout => absurd htimeout hread, fun _ => ?_, hframe⟩
  rw [hcheck, hping, Option.toList_none, List.map_nil, List.append_nil]

theorem readBytes_ok {conn conn' : WsConnection} {buf buf' : List UInt8} {io : ReadIo} {n : Nat}
    (h : conn.readBytes buf io = (conn', buf', .ok n)) : Handles conn buf io conn' buf' n := by
  rcases hcheck : conn.maybeSendPing io.before with ⟨checked, e | ⟨⟩⟩
  · simp only [readBytes, hcheck, Prod.mk.injEq, reduceCtorEq, and_false] at h
  · rcases hread : io.read with message | _ | e
    · have hready : io.read ≠ .timedOut := by simp [hread]
      cases message with
      | text data =>
          have hping : io.ping? = none := by simp only [ReadIo.ping?, hread]
          simp only [readBytes, hcheck, hread] at h
          split at h
          · next hpong =>
              cases h
              refine .quiet hcheck hready hping (Or.inl ⟨rfl, ?_⟩)
              simp only [ReadIo.text?, hread, hpong, true_or, if_true]
          · next hpong =>
              cases h
              refine .quiet hcheck hready hping ?_
              by_cases hempty : buf' = []
              · refine Or.inl ⟨by rw [hempty, List.length_nil], ?_⟩
                simp only [ReadIo.text?, hread, hempty, or_true, if_true]
              · refine Or.inr ⟨fun h0 => hempty (List.length_eq_zero_iff.mp h0), ?_, rfl⟩
                simp only [ReadIo.text?, hread, hpong, hempty, or_self, if_false]
      | ping data =>
          simp only [readBytes, hcheck, hread] at h
          split at h
          · cases h
            refine ⟨by rw [hcheck], fun htimeout => absurd htimeout hready, fun _ => ?_,
              Or.inl ⟨rfl, ?_⟩⟩
            · simp only [ReadIo.ping?, hread, hcheck, Option.toList_some, List.map_cons,
                List.map_nil]
            · simp only [ReadIo.text?, hread]
          · cases h
      | pong | binary | frame =>
          simp only [readBytes, hcheck, hread] at h
          cases h
          refine .quiet hcheck hready ?_ (Or.inl ⟨rfl, ?_⟩)
          · simp only [ReadIo.ping?, hread]
          · simp only [ReadIo.text?, hread]
      | close =>
          simp only [readBytes, hcheck, hread] at h
          cases h
    · simp only [readBytes, hcheck, hread] at h
      split at h
      · next hagain =>
          cases h
          refine ⟨by rw [hcheck], fun _ => ?_, fun hready => absurd hread hready,
            Or.inl ⟨rfl, ?_⟩⟩
          · rw [hcheck, hagain]
            exact ⟨rfl, rfl⟩
          · simp only [ReadIo.text?, hread]
      · cases h
    · simp only [readBytes, hcheck, hread, Prod.mk.injEq, reduceCtorEq, and_false] at h

/-! ### The dialogue -/

/-- What is sent from `conn` to `conn'`: the given pongs, and a `PING` for each instant
recorded. -/
structure Gains (conn conn' : WsConnection) (pongs : List (List UInt8)) : Prop where
  interval : conn'.pingInterval = conn.pingInterval
  pongs_eq : conn'.sent.filterMap Message.pong? = conn.sent.filterMap Message.pong? ++ pongs
  texts_eq : ∃ pings, conn'.pings = conn.pings ++ pings ∧
    conn'.sent.filterMap Message.text? =
      conn.sent.filterMap Message.text? ++ List.replicate pings.length pingText
  length_eq : conn'.sent.length + conn.pings.length =
    conn.sent.length + conn'.pings.length + pongs.length

theorem Gains.refl (conn : WsConnection) : Gains conn conn [] :=
  ⟨rfl, (List.append_nil _).symm, ⟨[], (List.append_nil _).symm, (List.append_nil _).symm⟩, rfl⟩

theorem Gains.trans {a b c : WsConnection} {pongs pongs' : List (List UInt8)}
    (hab : Gains a b pongs) (hbc : Gains b c pongs') : Gains a c (pongs ++ pongs') := by
  obtain ⟨pings, hpings, htexts⟩ := hab.texts_eq
  obtain ⟨pings', hpings', htexts'⟩ := hbc.texts_eq
  have hlen := hab.length_eq
  have hlen' := hbc.length_eq
  refine ⟨hbc.interval.trans hab.interval, ?_, ⟨pings ++ pings', ?_, ?_⟩, ?_⟩
  · rw [hbc.pongs_eq, hab.pongs_eq, List.append_assoc]
  · rw [hpings', hpings, List.append_assoc]
  · rw [htexts', htexts, List.length_append, List.replicate_add, List.append_assoc]
  · rw [List.length_append]
    omega

theorem gains_maybeSendPing (conn : WsConnection) (io : PingIo) :
    Gains conn (conn.maybeSendPing io).1 [] := by
  obtain ⟨e, hkeep⟩ | ⟨hkeep, -⟩ | ⟨_, -, -, hsend⟩ := conn.maybeSendPing_cases io
  · rw [hkeep]
    exact .refl conn
  · rw [hkeep]
    exact .refl conn
  · rw [hsend]
    refine ⟨rfl, ?_, ⟨[io.sentAt], rfl, ?_⟩, ?_⟩
    · rw [List.filterMap_append, List.append_nil]
      exact List.append_nil _
    · rw [List.filterMap_append]
      rfl
    · simp only [List.length_append, List.length_nil, List.length_singleton]
      omega

theorem gains_pong (conn : WsConnection) (pongs : List (List UInt8)) :
    Gains conn { conn with sent := conn.sent ++ pongs.map .pong } pongs := by
  have hpong : (pongs.map Message.pong).filterMap Message.pong? = pongs := by
    rw [List.filterMap_map]
    exact List.filterMap_some
  have htext : (pongs.map Message.pong).filterMap Message.text? = [] := by
    rw [List.filterMap_map]
    exact List.filterMap_eq_nil_iff.mpr fun _ _ => rfl
  refine ⟨rfl, ?_, ⟨[], (List.append_nil _).symm, ?_⟩, ?_⟩
  · rw [List.filterMap_append, hpong]
  · rw [List.filterMap_append, htext]
    rfl
  · simp only [List.length_append, List.length_map]
    omega

theorem Handles.gains {conn conn' : WsConnection} {buf buf' : List UInt8} {io : ReadIo} {n : Nat}
    (h : Handles conn buf io conn' buf' n) : Gains conn conn' io.ping?.toList := by
  have hcheck := conn.gains_maybeSendPing io.before
  by_cases hread : io.read = .timedOut
  · have hping : io.ping? = none := by simp only [ReadIo.ping?, hread]
    rw [(h.again hread).2, hping]
    exact hcheck.trans (gains_maybeSendPing _ io.after)
  · rw [h.answered hread]
    exact hcheck.trans (gains_pong _ _)

/-- **The whole connection.** The pings read are answered, in order; all else that is sent is a
`PING` for each instant recorded. -/
theorem gains_readAll (conn : WsConnection) (buf : List UInt8) (ios : List ReadIo) :
    Gains conn (conn.readAll buf ios).1 ((conn.readAll buf ios).2.1.filterMap ReadIo.ping?) := by
  induction ios generalizing conn buf with
  | nil => exact .refl conn
  | cons io ios ih =>
      rcases hcall : conn.readBytes buf io with ⟨conn', buf', e | n⟩
      · simp only [readAll, hcall]
        have hcheck := conn.gains_maybeSendPing io.before
        rcases readBytes_error hcall with rfl | rfl
        · exact hcheck
        · exact hcheck.trans (gains_maybeSendPing _ io.after)
      · have hfirst := (readBytes_ok hcall).gains
        have hrest := ih conn' buf'
        simp only [readAll, hcall]
        cases hping : io.ping? with
        | none =>
            rw [hping] at hfirst
            rw [List.filterMap_cons_none hping]
            exact hfirst.trans hrest
        | some data =>
            rw [hping] at hfirst
            rw [List.filterMap_cons_some hping]
            exact hfirst.trans hrest

end WsConnection

/-! ### Heartbeats on time -/

/-- The instants a call may read, in order. -/
def ReadIo.instants (io : ReadIo) : List Nat :=
  [io.before.checkedAt, io.before.sentAt, io.after.checkedAt, io.after.sentAt]

/-- The last check of a call. -/
def ReadIo.lastCheck (io : ReadIo) : PingIo :=
  if io.read = .timedOut then io.after else io.before

namespace WsConnection

/-- Up to `now`, the heartbeats since `start` lie at least an interval apart. -/
structure Paced (interval : Duration) (start now : Nat) (conn : WsConnection) : Prop where
  interval_eq : conn.pingInterval = some interval
  spaced : (start :: conn.pings).IsChain fun a b => a + interval.asNanos ≤ b
  last : (start :: conn.pings).getLast? = some conn.lastPing
  past : conn.lastPing ≤ now

variable {interval : Duration} {start now : Nat} {conn : WsConnection}

theorem Paced.mono (h : Paced interval start now conn) {later : Nat} (hle : now ≤ later) :
    Paced interval start later conn :=
  ⟨h.interval_eq, h.spaced, h.last, h.past.trans hle⟩

/-- A check keeps the pace; one that goes through leaves no heartbeat due. -/
theorem Paced.maybeSendPing (h : Paced interval start now conn) {io : PingIo}
    (hcheck : now ≤ io.checkedAt) (hsent : io.checkedAt ≤ io.sentAt) :
    Paced interval start io.sentAt (conn.maybeSendPing io).1 ∧
      ((conn.maybeSendPing io).2 = .ok () → 0 < interval.asNanos →
        io.checkedAt < (conn.maybeSendPing io).1.lastPing + interval.asNanos) := by
  have hkept := h.mono (hcheck.trans hsent)
  have hpast := h.past
  obtain ⟨e, hfail⟩ | ⟨hnot, hfresh⟩ | ⟨_, hinterval, hdue, hsend⟩ := conn.maybeSendPing_cases io
  · rw [hfail]
    exact ⟨hkept, fun hok => nomatch hok⟩
  · rw [hnot]
    refine ⟨hkept, fun _ hpos => ?_⟩
    have hlt := hfresh interval h.interval_eq
    show io.checkedAt < conn.lastPing + interval.asNanos
    omega
  · obtain rfl : interval = _ := Option.some.inj (h.interval_eq.symm.trans hinterval)
    rw [hsend]
    refine ⟨⟨h.interval_eq, ?_, ?_, Nat.le_refl _⟩, fun _ hpos => ?_⟩
    · show ((start :: conn.pings) ++ [io.sentAt]).IsChain _
      refine List.isChain_append.mpr ⟨h.spaced, .singleton _, ?_⟩
      intro a ha b hb
      rw [h.last] at ha
      obtain rfl : conn.lastPing = a := Option.some.inj ha
      obtain rfl : io.sentAt = b := Option.some.inj hb
      -- The last heartbeat is not in the future, so the subtraction does not saturate.
      omega
    · show ((start :: conn.pings) ++ [io.sentAt]).getLast? = _
      rw [List.getLast?_append]
      rfl
    · show io.checkedAt < io.sentAt + interval.asNanos
      omega

/-- At its last check the call found the heartbeat sent less than an interval before. -/
def OnTime (interval : Duration) (instants : List Nat) (io : ReadIo) : Prop :=
  ∃ t ∈ instants, t ≤ io.lastCheck.sentAt ∧ io.lastCheck.checkedAt < t + interval.asNanos

theorem OnTime.append {instants : List Nat} {io : ReadIo} (h : OnTime interval instants io)
    (more : List Nat) : OnTime interval (instants ++ more) io := by
  obtain ⟨t, ht, hle, hlt⟩ := h
  exact ⟨t, List.mem_append_left more ht, hle, hlt⟩

theorem Paced.onTime {io : ReadIo} {check : PingIo} (h : Paced interval start check.sentAt conn)
    (hlast : io.lastCheck = check) (hlt : check.checkedAt < conn.lastPing + interval.asNanos) :
    OnTime interval (start :: conn.pings) io := by
  subst hlast
  exact ⟨conn.lastPing, List.mem_of_getLast? h.last, h.past, hlt⟩

/-- What a check in order leaves behind is paced up to the end of the call. -/
theorem Paced.readBytes (h : Paced interval start now conn) {io : ReadIo}
    (hclock : (now :: io.instants).Pairwise (· ≤ ·)) {conn' : WsConnection}
    {buf buf' : List UInt8} {r : Except WsError Nat}
    (hcall : conn.readBytes buf io = (conn', buf', r)) :
    Paced interval start io.after.sentAt conn' ∧
      ∀ n, r = .ok n → 0 < interval.asNanos → OnTime interval (start :: conn'.pings) io := by
  simp only [ReadIo.instants, List.pairwise_cons, List.mem_cons, List.not_mem_nil, or_false,
    forall_eq_or_imp, forall_eq] at hclock
  obtain ⟨⟨hnow, -, -, -⟩, ⟨hbefore, -, -⟩, ⟨hmiddle, -⟩, hafter, -⟩ := hclock
  obtain ⟨hfirst, hfresh⟩ := h.maybeSendPing hnow hbefore
  obtain ⟨hsecond, hfresh'⟩ := hfirst.maybeSendPing hmiddle hafter
  cases r with
  | error e =>
      refine ⟨?_, fun n hn => nomatch hn⟩
      rcases readBytes_error hcall with rfl | rfl
      · exact hfirst.mono (hmiddle.trans hafter)
      · exact hsecond
  | ok n =>
      have hdone := readBytes_ok hcall
      -- after a timeout the second check counts, otherwise the first
      by_cases hread : io.read = .timedOut
      · obtain ⟨hok, rfl⟩ := hdone.again hread
        exact ⟨hsecond, fun _ _ hpos => hsecond.onTime (if_pos hread) (hfresh' hok hpos)⟩
      · obtain rfl := hdone.answered hread
        have hpong : Paced interval start io.before.sentAt
            { (conn.maybeSendPing io.before).1 with
              sent := (conn.maybeSendPing io.before).1.sent ++ io.ping?.toList.map .pong } :=
          ⟨hfirst.interval_eq, hfirst.spaced, hfirst.last, hfirst.past⟩
        refine ⟨hpong.mono (hmiddle.trans hafter), fun _ _ hpos => ?_⟩
        exact hpong.onTime (if_neg hread) (hfresh hdone.checked hpos)

theorem paced_readAll (h : Paced interval start now conn) (buf : List UInt8) (ios : List ReadIo)
    (hclock : (now :: ios.flatMap ReadIo.instants).Pairwise (· ≤ ·)) :
    (start :: (conn.readAll buf ios).1.pings).IsChain (fun a b => a + interval.asNanos ≤ b) ∧
      ∀ io ∈ (conn.readAll buf ios).2.1, 0 < interval.asNanos →
        OnTime interval (start :: (conn.readAll buf ios).1.pings) io := by
  induction ios generalizing now conn buf with
  | nil => exact ⟨h.spaced, fun _ hmem => nomatch hmem⟩
  | cons io ios ih =>
      rw [List.flatMap_cons] at hclock
      have hfirst : (now :: io.instants).Pairwise (· ≤ ·) :=
        hclock.sublist (.cons_cons now (List.sublist_append_left _ _))
      have hrest : (io.after.sentAt :: ios.flatMap ReadIo.instants).Pairwise (· ≤ ·) := by
        refine hclock.sublist (.cons now ?_)
        exact (List.sublist_append_right [_, _, _] [_]).append (List.Sublist.refl _)
      rcases hcall : conn.readBytes buf io with ⟨conn', buf', e | n⟩
      · simp only [readAll, hcall]
        exact ⟨(h.readBytes hfirst hcall).1.spaced, fun _ hmem => nomatch hmem⟩
      · obtain ⟨hpaced, hontime⟩ := h.readBytes hfirst hcall
        obtain ⟨hspaced, hlater⟩ := ih hpaced buf' hrest
        simp only [readAll, hcall]
        refine ⟨hspaced, fun io' hmem hpos => ?_⟩
        rcases List.mem_cons.mp hmem with rfl | hmem
        · obtain ⟨pings, hpings, -⟩ := (gains_readAll conn' buf' ios).texts_eq
          rw [hpings]
          exact (hontime n rfl hpos).append pings
        · exact hlater io' hmem hpos

theorem readAll_handled (conn : WsConnection) (buf : List UInt8) (ios : List ReadIo) :
    (conn.readAll buf ios).2.1 <+: ios ∧
      ((conn.readAll buf ios).2.2 = none → (conn.readAll buf ios).2.1 = ios) := by
  induction ios generalizing conn buf with
  | nil => exact ⟨List.prefix_rfl, fun _ => rfl⟩
  | cons io ios ih =>
      rcases hcall : conn.readBytes buf io with ⟨conn', buf', e | n⟩
      · simp only [readAll, hcall]
        exact ⟨List.nil_prefix, fun h => nomatch h⟩
      · obtain ⟨hsent, hall⟩ := ih conn' buf'
        simp only [readAll, hcall]
        exact ⟨(List.prefix_cons_inj io).mpr hsent, fun h => by rw [hall h]⟩

/-- **A connection stays alive.** With a clock that does not go back, the heartbeats of a
connection lie an interval or more apart, no call that went on found the last one an interval
old, and besides the subscription, the heartbeats and a pong for each ping handled, in order,
nothing is sent. -/
theorem connection_keeps_alive (interval : Duration) (subscribe : Option (List UInt8))
    (start : Nat) (buf : List UInt8) (ios : List ReadIo) (hpos : 0 < interval.asNanos)
    (hclock : (start :: ios.flatMap ReadIo.instants).Pairwise (· ≤ ·)) :
    ∃ conn handled error,
      (opened (some interval) subscribe start).readAll buf ios = (conn, handled, error) ∧
      handled <+: ios ∧ (error = none → handled = ios) ∧
      (start :: conn.pings).IsChain (fun a b => a + interval.asNanos ≤ b) ∧
      (∀ io ∈ handled, ∃ t ∈ start :: conn.pings,
        t ≤ io.lastCheck.sentAt ∧ io.lastCheck.checkedAt < t + interval.asNanos) ∧
      conn.sent.filterMap Message.pong? = handled.filterMap ReadIo.ping? ∧
      conn.sent.filterMap Message.text? =
        subscribe.toList ++ List.replicate conn.pings.length pingText ∧
      conn.sent.length =
        subscribe.toList.length + conn.pings.length + (handled.filterMap ReadIo.ping?).length := by
  have hpaced : Paced interval start start (opened (some interval) subscribe start) :=
    ⟨rfl, .singleton start, rfl, Nat.le_refl start⟩
  obtain ⟨hspaced, hontime⟩ := paced_readAll hpaced buf ios hclock
  obtain ⟨hsent, hall⟩ := readAll_handled (opened (some interval) subscribe start) buf ios
  obtain ⟨-, hpongs, ⟨pings, hpings, htexts⟩, hlen⟩ :=
    gains_readAll (opened (some interval) subscribe start) buf ios
  refine ⟨_, _, _, rfl, hsent, hall, hspaced, fun io hio => hontime io hio hpos, ?_, ?_, ?_⟩
  · rw [hpongs]
    cases subscribe <;> rfl
  · rw [htexts, hpings]
    cases subscribe <;> rfl
  · cases subscribe with
    | none => simpa [opened] using hlen
    | some _ => simpa [opened] using hlen

/-- Ten seconds, the interval of the Polymarket feeds. -/
def tenSeconds : Duration := ⟨10, 0, by decide⟩

/-- A read that times out after fifteen seconds, then one that returns a ping. -/
def quietCalls : List ReadIo :=
  [⟨⟨0, .ok (), 0⟩, .timedOut, .ok (), ⟨15000000000, .ok (), 15000000001⟩⟩,
    ⟨⟨15000000002, .ok (), 15000000002⟩, .message (.ping [7]), .ok (),
      ⟨15000000003, .ok (), 15000000003⟩⟩]

theorem connection_keeps_alive_quiet :
    (opened (some tenSeconds) none 0).readAll [] quietCalls =
        (⟨some tenSeconds, 15000000001, [.text pingText, .pong [7]], [15000000001]⟩, quietCalls,
          none) ∧
      ∃ conn handled error,
        (opened (some tenSeconds) none 0).readAll [] quietCalls = (conn, handled, error) ∧
        handled <+: quietCalls ∧ (error = none → handled = quietCalls) ∧
        (0 :: conn.pings).IsChain (fun a b => a + tenSeconds.asNanos ≤ b) ∧
        (∀ io ∈ handled, ∃ t ∈ 0 :: conn.pings,
          t ≤ io.lastCheck.sentAt ∧ io.lastCheck.checkedAt < t + tenSeconds.asNanos) ∧
        conn.sent.filterMap Message.pong? = handled.filterMap ReadIo.ping? ∧
        conn.sent.filterMap Message.text? =
          [] ++ List.replicate conn.pings.length pingText ∧
        conn.sent.length =
          0 + conn.pings.length + (handled.filterMap ReadIo.ping?).length :=
  ⟨rfl, connection_keeps_alive tenSeconds none 0 [] quietCalls (by decide) (by decide)⟩

end WsConnection

end Mantis

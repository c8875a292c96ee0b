import Mantis.Events
import Mathlib.Algebra.Order.Group.Nat

/-!
# Mantis.Transport.Timer

The timer thread (`crates/transport/src/timer.rs`): validation of its configuration, and the
loop that emits a `Timer` event every tick and a `Heartbeat` every `heartbeat_every` ticks.

What the loop reads from outside is one `Wakeup` an iteration: how its sleep ended, the
shutdown flag, and the clock. After `n` ticks its three counters are functions of `n`
(`TimerState.after`), so each tick emits what its number says and the whole stream has a
closed form.
-/

namespace Mantis

/-! ### Configuration -/

/-- `std::time::Duration`. -/
structure Duration where
  secs : UInt64
  nanos : UInt32
  nanos_lt : nanos.toNat < 1000000000
  deriving DecidableEq

namespace Duration

/-- `as_nanos`, which fits in a `u128`. -/
def asNanos (d : Duration) : Nat := d.secs.toNat * 1000000000 + d.nanos.toNat

def isZero (d : Duration) : Bool := d.secs == 0 && d.nanos == 0

theorem isZero_iff (d : Duration) : d.isZero = true ↔ d.asNanos = 0 := by
  rw [isZero, Bool.and_eq_true, beq_iff_eq, beq_iff_eq, ← UInt64.toNat_inj, ← UInt32.toNat_inj,
    asNanos, UInt64.toNat_zero, UInt32.toNat_zero]
  omega

end Duration

/-- Configuration of the timer thread. -/
structure TimerConfig where
  /-- Interval between periodic timer events. -/
  tickInterval : Duration
  /-- Interval between heartbeat events. -/
  heartbeatInterval : Duration
  /-- Stamped on every emitted event. -/
  sourceId : SourceId
  deriving DecidableEq

inductive TimerConfigError
  | zeroTickInterval
  | heartbeatShorterThanTick
  | heartbeatNotDivisible
  | heartbeatTooLarge
  deriving DecidableEq, Repr

/-- `is_multiple_of`; of zero, only zero is a multiple. -/
def isMultipleOf (a b : Nat) : Bool := if b = 0 then a == 0 else a % b == 0

theorem isMultipleOf_iff (a b : Nat) : isMultipleOf a b = true ↔ b ∣ a := by
  unfold isMultipleOf
  split
  · next h =>
      subst h
      rw [beq_iff_eq, Nat.zero_dvd]
  · rw [beq_iff_eq, Nat.dvd_iff_mod_eq_zero]

/-- The number of ticks between heartbeats. -/
def TimerConfig.validate (config : TimerConfig) : Except TimerConfigError UInt64 :=
  if config.tickInterval.isZero then .error .zeroTickInterval
  else
    let tickNs := config.tickInterval.asNanos
    let hbNs := config.heartbeatInterval.asNanos
    if hbNs < tickNs then .error .heartbeatShorterThanTick
    else if !isMultipleOf hbNs tickNs then .error .heartbeatNotDivisible
    else
      let ratio := hbNs / tickNs
      if 2 ^ 64 - 1 < ratio then .error .heartbeatTooLarge else .ok (UInt64.ofNat ratio)

/-- **Accepted configurations**: the ratio is a positive `u64`, and it is returned. -/
theorem TimerConfig.validate_eq_ok (config : TimerConfig) (every : UInt64) :
    config.validate = .ok every ↔ config.tickInterval.asNanos ≠ 0 ∧ 0 < every.toNat ∧
      config.heartbeatInterval.asNanos = every.toNat * config.tickInterval.asNanos := by
  have hlt := every.toNat_lt
  simp only [validate, Duration.isZero_iff, Bool.not_eq_true', ← Bool.not_eq_true,
    isMultipleOf_iff]
  generalize config.tickInterval.asNanos = tick
  generalize config.heartbeatInterval.asNanos = hb
  split
  · next hzero => exact iff_of_false (by simp) fun h => h.1 hzero
  · next hzero =>
      have hpos : 0 < tick := by omega
      split
      · next hshort =>
          refine iff_of_false (by simp) fun ⟨_, hevery, heq⟩ => ?_
          have hle := Nat.le_mul_of_pos_left tick hevery
          omega
      · next hlong =>
          split
          · next hnot =>
              refine iff_of_false (by simp) fun ⟨_, _, heq⟩ => hnot ?_
              exact ⟨every.toNat, by rw [heq, Nat.mul_comm]⟩
          · next hdvd =>
              obtain ⟨ratio, rfl⟩ := not_not.mp hdvd
              have hratio : 0 < ratio := by
                refine Nat.pos_of_ne_zero fun h0 => ?_
                rw [h0, Nat.mul_zero] at hlong
                omega
              rw [Nat.mul_div_cancel_left _ hpos, Nat.mul_comm, Nat.mul_left_inj hpos.ne']
              split
              · next hlarge => exact iff_of_false (by simp) fun ⟨_, _, heq⟩ => by omega
              · next hsmall =>
                  rw [Except.ok.injEq, ← UInt64.toNat_inj,
                    UInt64.toNat_ofNat_of_lt' (by show ratio < 2 ^ 64; omega)]
                  exact ⟨fun h => ⟨hzero, by omega, h⟩, fun h => h.2.2⟩

/-! ### The loop -/

/-- What one iteration of the loop reads from outside. -/
structure Wakeup where
  /-- `interruptible_sleep` returned `true`. -/
  interrupted : Bool
  /-- The shutdown flag after the sleep. -/
  shutdown : Bool
  /-- `Timestamp::now()` for the timer event. -/
  timerNow : Timestamp
  /-- `Timestamp::now()` for the heartbeat. -/
  heartbeatNow : Timestamp
  deriving DecidableEq, Repr

/-- The counters of the loop. -/
structure TimerState where
  tickCounter : UInt64
  heartbeatCounter : UInt32
  seq : UInt64
  deriving DecidableEq, Repr

def TimerState.new : TimerState := ⟨0, 0, 0⟩

/-- A completed iteration: the counters afterwards and the events pushed. -/
def TimerState.tick (config : TimerConfig) (heartbeatEvery : UInt64) (s : TimerState)
    (w : Wakeup) : TimerState × List HotEvent :=
  let s := { s with tickCounter := s.tickCounter + 1, seq := s.seq + 1 }
  let timer := HotEvent.timer w.timerNow s.seq 0 config.sourceId .empty ⟨0, .periodic⟩
  if isMultipleOf s.tickCounter.toNat heartbeatEvery.toNat then
    let s := { s with heartbeatCounter := s.heartbeatCounter + 1, seq := s.seq + 1 }
    (s, [timer,
      HotEvent.heartbeat w.heartbeatNow s.seq config.sourceId .empty ⟨s.heartbeatCounter⟩])
  else (s, [timer])

/-- `timer_loop`: the events pushed. -/
def timerLoop (config : TimerConfig) (heartbeatEvery : UInt64) :
    TimerState → List Wakeup → List HotEvent
  | _, [] => []
  | s, w :: ws =>
      if w.interrupted then []
      else if w.shutdown then []
      else
        let (s, events) := s.tick config heartbeatEvery w
        events ++ timerLoop config heartbeatEvery s ws

/-- The iterations completed before the shutdown. -/
def completed : List Wakeup → Nat
  | [] => 0
  | w :: ws => if w.interrupted || w.shutdown then 0 else completed ws + 1

/-! ### Closed form -/

/-- The counters after `n` ticks. -/
def TimerState.after (h n : Nat) : TimerState :=
  ⟨UInt64.ofNat n, UInt32.ofNat (n / h), UInt64.ofNat (n + n / h)⟩

/-- What tick number `n` emits: a timer event, and a heartbeat right after it if `n` is a
multiple of `h`. -/
def tickEvents (config : TimerConfig) (h n : Nat) (w : Wakeup) : List HotEvent :=
  HotEvent.timer w.timerNow (UInt64.ofNat (n + (n - 1) / h)) 0 config.sourceId .empty
      ⟨0, .periodic⟩ ::
    if h ∣ n then
      [HotEvent.heartbeat w.heartbeatNow (UInt64.ofNat (n + n / h)) config.sourceId .empty
        ⟨UInt32.ofNat (n / h)⟩]
    else []

theorem ofNat_succ (n : Nat) : UInt64.ofNat n + 1 = UInt64.ofNat (n + 1) :=
  (UInt64.ofNat_add n 1).symm

/-- Whether tick `n + 1` has a heartbeat, it is the next multiple or it is none. -/
theorem succ_div_cases (h n : Nat) :
    (h ∣ n + 1 ∧ (n + 1) / h = n / h + 1) ∨ (¬ h ∣ n + 1 ∧ (n + 1) / h = n / h) := by
  by_cases hdvd : h ∣ n + 1
  · exact Or.inl ⟨hdvd, Nat.succ_div_of_dvd hdvd⟩
  · exact Or.inr ⟨hdvd, Nat.succ_div_of_not_dvd hdvd⟩

/-- **One tick.** -/
theorem tick_after (config : TimerConfig) (every : UInt64) {n : Nat} (hn : n + 1 < 2 ^ 64)
    (w : Wakeup) :
    (TimerState.after every.toNat n).tick config every w =
      (TimerState.after every.toNat (n + 1), tickEvents config every.toNat (n + 1) w) := by
  have hcounter : (UInt64.ofNat (n + 1)).toNat = n + 1 := UInt64.toNat_ofNat_of_lt' hn
  have hseq : n + n / every.toNat + 1 = n + 1 + n / every.toNat := by omega
  simp only [TimerState.tick, TimerState.after, ofNat_succ, hcounter, isMultipleOf_iff, hseq]
  rcases succ_div_cases every.toNat n with ⟨hdvd, hdiv⟩ | ⟨hdvd, hdiv⟩
  · have hbeat : UInt32.ofNat (n / every.toNat) + 1 = UInt32.ofNat (n / every.toNat + 1) :=
      (UInt32.ofNat_add _ 1).symm
    rw [if_pos hdvd]
    simp only [tickEvents, if_pos hdvd, hdiv, hbeat, Nat.add_sub_cancel, Nat.add_assoc]
  · rw [if_neg hdvd]
    simp only [tickEvents, if_neg hdvd, hdiv, Nat.add_sub_cancel]

/-- The events of ticks `n + 1` to `n + k`. -/
def ticksFrom (config : TimerConfig) (h n k : Nat) (ws : List Wakeup) : List HotEvent :=
  (List.zipWith (tickEvents config h) (List.range' (n + 1) k) ws).flatten

theorem ticksFrom_succ (config : TimerConfig) (h n k : Nat) (w : Wakeup) (ws : List Wakeup) :
    ticksFrom config h n (k + 1) (w :: ws) =
      tickEvents config h (n + 1) w ++ ticksFrom config h (n + 1) k ws := rfl

/-- **The loop emits tick after tick**, from any point of a run on. -/
theorem timerLoop_after (config : TimerConfig) (every : UInt64) (n : Nat) (ws : List Wakeup)
    (hk : n + completed ws < 2 ^ 64) :
    timerLoop config every (TimerState.after every.toNat n) ws =
      ticksFrom config every.toNat n (completed ws) ws := by
  induction ws generalizing n with
  | nil => rfl
  | cons w ws ih =>
      simp only [completed] at hk ⊢
      simp only [timerLoop]
      cases hint : w.interrupted with
      | true => rfl
      | false =>
          cases hshut : w.shutdown with
          | true => rfl
          | false =>
              rw [hint, hshut] at hk
              change n + (completed ws + 1) < 2 ^ 64 at hk
              show _ ++ timerLoop config every _ ws =
                ticksFrom config every.toNat n (completed ws + 1) (w :: ws)
              rw [tick_after config every (by omega), ticksFrom_succ, ih (n + 1) (by omega)]

theorem completed_le (ws : List Wakeup) : completed ws ≤ ws.length := by
  induction ws with
  | nil => exact Nat.le_refl 0
  | cons w ws ih =>
      simp only [completed]
      split
      · exact Nat.zero_le _
      · exact Nat.succ_le_succ ih

/-! ### The stream -/

def HotEvent.isTimer (event : HotEvent) : Bool :=
  match event.body with
  | .timer _ => true
  | _ => false

/-- The counter a heartbeat carries. -/
def HotEvent.heartbeatCounter? (event : HotEvent) : Option Nat :=
  match event.body with
  | .heartbeat payload => some payload.counter.toNat
  | _ => none

def HotEvent.isHeartbeat (event : HotEvent) : Bool := event.heartbeatCounter?.isSome

section

variable (config : TimerConfig) (h n : Nat) (w : Wakeup)

/-- A tick takes the next one or two sequence numbers. -/
theorem tickEvents_seq (hbound : n + 1 + (n + 1) / h < 2 ^ 64) :
    (tickEvents config h (n + 1) w).map (fun event => event.header.seq.toNat) =
      List.range' (n + n / h + 1) (n + 1 + (n + 1) / h - (n + n / h)) := by
  have hword : ∀ m, m < 2 ^ 64 → (UInt64.ofNat m).toNat = m := fun m hm =>
    UInt64.toNat_ofNat_of_lt' hm
  rcases succ_div_cases h n with ⟨hdvd, hdiv⟩ | ⟨hdvd, hdiv⟩
  · rw [hdiv] at hbound ⊢
    rw [show n + 1 + (n / h + 1) - (n + n / h) = 2 by omega]
    simp only [tickEvents, if_pos hdvd, hdiv, List.map_cons, List.map_nil, HotEvent.timer,
      HotEvent.heartbeat, Nat.add_sub_cancel]
    rw [hword _ (by omega), hword _ hbound, show n + 1 + n / h = n + n / h + 1 by omega,
      show n + 1 + (n / h + 1) = n + n / h + 1 + 1 by omega]
    rfl
  · rw [hdiv] at hbound ⊢
    rw [show n + 1 + n / h - (n + n / h) = 1 by omega]
    simp only [tickEvents, if_neg hdvd, List.map_cons, List.map_nil, HotEvent.timer,
      Nat.add_sub_cancel]
    rw [hword _ hbound, show n + 1 + n / h = n + n / h + 1 by omega]
    rfl

/-- A tick takes the next heartbeat counter if it has a heartbeat. -/
theorem tickEvents_counter :
    (tickEvents config h (n + 1) w).filterMap HotEvent.heartbeatCounter? =
      (List.range' (n / h + 1) ((n + 1) / h - n / h)).map (· % 2 ^ 32) := by
  rcases succ_div_cases h n with ⟨hdvd, hdiv⟩ | ⟨hdvd, hdiv⟩
  · have hword : (UInt32.ofNat (n / h + 1)).toNat = (n / h + 1) % 2 ^ 32 := UInt32.toNat_ofNat'
    rw [hdiv, show n / h + 1 - n / h = 1 by omega]
    simp only [tickEvents, if_pos hdvd, hdiv, HotEvent.timer, HotEvent.heartbeat,
      List.filterMap_cons, List.filterMap_nil, HotEvent.heartbeatCounter?, hword]
    rfl
  · rw [hdiv, Nat.sub_self]
    simp only [tickEvents, if_neg hdvd, HotEvent.timer, List.filterMap_cons, List.filterMap_nil,
      HotEvent.heartbeatCounter?]
    rfl

theorem tickEvents_timer : (tickEvents config h (n + 1) w).countP HotEvent.isTimer = 1 := by
  simp only [tickEvents]
  split <;> rfl

end

section

variable (config : TimerConfig) {h : Nat}

/-- If each tick moves a count `p` on and lists what it passed, so does a run of ticks. -/
theorem ticksFrom_count {f : List HotEvent → List Nat} {g p : Nat → Nat} (hnil : f [] = [])
    (happend : ∀ xs ys, f (xs ++ ys) = f xs ++ f ys) (hp : ∀ n, p n ≤ p (n + 1)) {n k : Nat}
    {ws : List Wakeup} (hk : k ≤ ws.length)
    (htick : ∀ i w, i < n + k → f (tickEvents config h (i + 1) w) =
      (List.range' (p i + 1) (p (i + 1) - p i)).map g) :
    f (ticksFrom config h n k ws) = (List.range' (p n + 1) (p (n + k) - p n)).map g := by
  induction k generalizing n ws with
  | zero => simp [ticksFrom, hnil]
  | succ k ih =>
      cases ws with
      | nil => cases hk
      | cons w ws =>
          have hshift : n + 1 + k = n + (k + 1) := by omega
          have hstep : p n ≤ p (n + 1) := hp n
          have hrest : p (n + 1) ≤ p (n + (k + 1)) := monotone_nat_of_le_succ hp (by omega)
          have hnext := ih (n := n + 1) (Nat.le_of_succ_le_succ hk) (by rwa [hshift])
          rw [ticksFrom_succ, happend, htick n w (by omega), hnext, hshift, ← List.map_append,
            show p (n + 1) + 1 = p n + 1 + (p (n + 1) - p n) by omega, List.range'_append_1,
            show p (n + 1) - p n + (p (n + (k + 1)) - p (n + 1)) = p (n + (k + 1)) - p n by omega]

/-- All events together are numbered in order. -/
theorem ticksFrom_seq {n k : Nat} {ws : List Wakeup} (hk : k ≤ ws.length)
    (hbound : n + k + (n + k) / h < 2 ^ 64) :
    (ticksFrom config h n k ws).map (fun event => event.header.seq.toNat) =
      List.range' (n + n / h + 1) (n + k + (n + k) / h - (n + n / h)) := by
  have hp : ∀ m, m + m / h ≤ m + 1 + (m + 1) / h := fun m =>
    Nat.add_le_add (Nat.le_succ m) (Nat.div_le_div_right (Nat.le_succ m))
  have hcount : (ticksFrom config h n k ws).map (fun event => event.header.seq.toNat) =
      (List.range' (n + n / h + 1) (n + k + (n + k) / h - (n + n / h))).map id := by
    refine ticksFrom_count config (p := fun m => m + m / h) rfl (fun _ _ => List.map_append) hp hk ?_
    intro i w hi
    have hmono : (i + 1) / h ≤ (n + k) / h := Nat.div_le_div_right hi
    rw [tickEvents_seq config h i w (by omega), List.map_id]
  rw [hcount, List.map_id]

/-- Heartbeats are counted in order, modulo `2 ^ 32`. -/
theorem ticksFrom_counter {n k : Nat} {ws : List Wakeup} (hk : k ≤ ws.length) :
    (ticksFrom config h n k ws).filterMap HotEvent.heartbeatCounter? =
      (List.range' (n / h + 1) ((n + k) / h - n / h)).map (· % 2 ^ 32) :=
  ticksFrom_count config (p := fun n => n / h) rfl (fun _ _ => List.filterMap_append)
    (fun n => Nat.div_le_div_right (Nat.le_succ n)) hk fun i w _ => tickEvents_counter config h i w

theorem ticksFrom_timer {n k : Nat} {ws : List Wakeup} (hk : k ≤ ws.length) :
    (ticksFrom config h n k ws).countP HotEvent.isTimer = k := by
  induction k generalizing n ws with
  | zero => rfl
  | succ k ih =>
      cases ws with
      | nil => cases hk
      | cons w ws =>
          rw [ticksFrom_succ, List.countP_append, tickEvents_timer,
            ih (Nat.le_of_succ_le_succ hk), Nat.add_comm]

end

/-- The events of `k` completed iterations with a heartbeat every `h` ticks. -/
structure TimerStream (config : TimerConfig) (h : Nat) (ws : List Wakeup)
    (events : List HotEvent) : Prop where
  /-- Tick by tick, each heartbeat right after the timer event of a multiple of `h`. -/
  ticks : events =
    (List.zipWith (tickEvents config h) (List.range' 1 (completed ws)) ws).flatten
  length : events.length = completed ws + completed ws / h
  timers : events.countP HotEvent.isTimer = completed ws
  heartbeats : events.countP HotEvent.isHeartbeat = completed ws / h
  /-- The sequence numbers are `1, 2, ...`, without a gap. -/
  seqs : events.map (fun event => event.header.seq.toNat) =
    List.range' 1 (completed ws + completed ws / h)
  /-- The heartbeat counters are `1, 2, ...`, modulo `2 ^ 32`. -/
  counters : events.filterMap HotEvent.heartbeatCounter? =
    (List.range' 1 (completed ws / h)).map (· % 2 ^ 32)

/-- **Timer stream law.** A configuration is accepted exactly if its tick interval is not
zero and its heartbeat interval a positive multiple of it, with a ratio below `2 ^ 64`. The
loop of an accepted one emits a timer event every tick and a heartbeat every `h` ticks,
numbered together, until the shutdown. -/
theorem timer_stream_law (config : TimerConfig) :
    ((∃ every, config.validate = .ok every) ↔ config.tickInterval.asNanos ≠ 0 ∧
      ∃ h, 0 < h ∧ h ≤ 2 ^ 64 - 1 ∧
        config.heartbeatInterval.asNanos = h * config.tickInterval.asNanos) ∧
    ∀ every, config.validate = .ok every →
      every.toNat = config.heartbeatInterval.asNanos / config.tickInterval.asNanos ∧
      ∀ ws : List Wakeup, completed ws + completed ws / every.toNat < 2 ^ 64 →
        TimerStream config every.toNat ws (timerLoop config every .new ws) := by
  constructor
  · constructor
    · rintro ⟨every, h⟩
      obtain ⟨htick, hpos, hratio⟩ := (config.validate_eq_ok every).mp h
      have hlt := every.toNat_lt
      exact ⟨htick, every.toNat, hpos, by omega, hratio⟩
    · rintro ⟨htick, h, hpos, hle, hratio⟩
      have hword : (UInt64.ofNat h).toNat = h :=
        UInt64.toNat_ofNat_of_lt' (by show h < 2 ^ 64; omega)
      refine ⟨UInt64.ofNat h, (config.validate_eq_ok _).mpr ⟨htick, ?_, ?_⟩⟩
      · rw [hword]
        exact hpos
      · rw [hword]
        exact hratio
  · intro every h
    obtain ⟨htick, hpos, hratio⟩ := (config.validate_eq_ok every).mp h
    refine ⟨by rw [hratio, Nat.mul_div_cancel _ (by omega)], ?_⟩
    intro ws hbound
    have hevents : timerLoop config every .new ws =
        ticksFrom config every.toNat 0 (completed ws) ws := by
      have hstart : TimerState.new = .after every.toNat 0 := by
        rw [TimerState.after, Nat.zero_div]
        rfl
      have hticks : 0 + completed ws < 2 ^ 64 := by
        rw [Nat.zero_add]
        exact Nat.lt_of_le_of_lt (Nat.le_add_right ..) hbound
      rw [hstart, timerLoop_after config every 0 ws hticks]
    have hseqs := ticksFrom_seq config (n := 0) (completed_le ws)
      (by rw [Nat.zero_add]; exact hbound)
    have hcounters := ticksFrom_counter config (h := every.toNat) (n := 0) (completed_le ws)
    simp only [Nat.zero_add, Nat.zero_div, Nat.sub_zero] at hseqs hcounters
    have hlength := congrArg List.length hseqs
    have hbeats := congrArg List.length hcounters
    rw [List.length_map, List.length_range'] at hlength
    rw [List.length_filterMap_eq_countP, List.length_map, List.length_range'] at hbeats
    rw [hevents]
    exact ⟨rfl, hlength, ticksFrom_timer config (completed_le ws), hbeats, hseqs, hcounters⟩

/-- Ticks of 50 ms with a heartbeat every 100 ms. -/
def sampleTimer : TimerConfig where
  tickInterval := ⟨0, 50000000, by decide⟩
  heartbeatInterval := ⟨0, 100000000, by decide⟩
  sourceId := 9

/-- Three iterations, and a shutdown during the fourth sleep. -/
def sampleWakeups : List Wakeup :=
  [⟨false, false, 10, 11⟩, ⟨false, false, 20, 21⟩, ⟨false, false, 30, 31⟩, ⟨true, true, 0, 0⟩]

/-- Three ticks and the heartbeat of the second. -/
theorem timer_stream_law_sample :
    sampleTimer.validate = .ok 2 ∧ completed sampleWakeups = 3 ∧
    TimerStream sampleTimer 2 sampleWakeups (timerLoop sampleTimer 2 .new sampleWakeups) ∧
    (timerLoop sampleTimer 2 .new sampleWakeups).map (fun event => event.header.seq.toNat) =
      [1, 2, 3, 4] := by
  have hvalid : sampleTimer.validate = .ok 2 := by decide
  have hstream := ((timer_stream_law sampleTimer).2 2 hvalid).2 sampleWakeups (by decide)
  exact ⟨hvalid, rfl, hstream, hstream.seqs⟩

end Mantis

import Jos.Mmu

/-!
# The timer of the network server, `net/timer.c` and `process_timer` of `net/serv.c`

The timer environment waits until its deadline, tells the network server, and takes from
the answer how long to wait next.  The server subtracts from the interval the time that its
other threads have kept the processor.  When they have kept it for longer than the
interval, the unsigned difference is a large number; the addition of the timer wraps around
with it, so that the deadline is in the past.
-/

namespace Jos

namespace NetTimer

/-- `TIMER_INTERVAL`. -/
def timerInterval : U32 := 250#32

/-- `NSREQ_TIMER`. -/
def nsreqTimer : U32 := 12#32

/-- The places of `timer` where something else can happen before it goes on. -/
inductive Timer where
  /-- the loop that compares the time with `stop` -/
  | waiting (stop : U32)
  /-- in `ipc_send(ns_envid, NSREQ_TIMER, 0, 0)` -/
  | requesting
  /-- in `ipc_recv` -/
  | listening
  /-- back from `ipc_recv` -/
  | received (whom value : U32)
  | panicked
deriving DecidableEq

/-- The places of the main thread of the server. -/
inductive Server where
  /-- in `serve`: in `ipc_recv`, or in `thread_yield` -/
  | serving
  /-- at the start of `process_timer` -/
  | processTimer (envid : U32)
  /-- in the `thread_yield` of `process_timer` -/
  | yielding (envid start : U32)
  /-- in `ipc_send(envid, to, 0, 0)` -/
  | replying (envid value : U32)
deriving DecidableEq

/-- The two environments and the clock, in milliseconds.  `since` is what the clock read when
`stop` was computed. -/
structure Net where
  clock : Nat
  timer : Timer
  server : Server
  since : Nat
deriving DecidableEq

/-- What can happen next. -/
inductive Move where
  /-- time goes by -/
  | tick (n : Nat)
  /-- the timer environment goes on -/
  | timer
  /-- the network server goes on -/
  | server
  /-- the message of the timer environment gets to the server -/
  | request
  /-- the answer of the server gets to where it was sent -/
  | reply
  /-- a message of another environment gets to the server -/
  | message (whom reqno : U32)
  /-- a message of another environment gets to the timer -/
  | stray (whom value : U32)

namespace Net

/-- `sys_time_msec`. -/
def sysTimeMsec (s : Net) : U32 := BitVec.ofNat 32 s.clock

/-- `serve` has got a message. -/
def serve (s : Net) (reqno whom : U32) : Net :=
  { s with server := if reqno = nsreqTimer then .processTimer whom else .serving }

variable (nsEnvid timerEnvid : U32)

/-- `timer` goes on. -/
def timerStep (s : Net) : Net :=
  match s.timer with
  | .waiting stop =>
      let r := s.sysTimeMsec
      if r < stop ∧ 0 ≤ r.toInt then s
      else if r.toInt < 0 then { s with timer := .panicked }
      else { s with timer := .requesting }
  | .received whom value =>
      if whom ≠ nsEnvid then { s with timer := .listening }
      else { s with timer := .waiting (s.sysTimeMsec + value), since := s.clock }
  | .requesting | .listening | .panicked => s

/-- `process_timer` goes on. -/
def serverStep (s : Net) : Net :=
  match s.server with
  | .processTimer envid =>
      if envid ≠ timerEnvid then { s with server := .serving }
      else { s with server := .yielding envid s.sysTimeMsec }
  | .yielding envid start =>
      let now := s.sysTimeMsec
      { s with server := .replying envid (timerInterval - (now - start)) }
  | .serving | .replying _ _ => s

/-- A move.  The kernel names the sender of a message, and delivers it when its receiver is in
`ipc_recv`. -/
def step (s : Net) : Move → Net
  | .tick n => { s with clock := s.clock + n }
  | .timer => s.timerStep nsEnvid
  | .server => s.serverStep timerEnvid
  | .request =>
      match s.timer, s.server with
      | .requesting, .serving => { s with timer := .listening }.serve nsreqTimer timerEnvid
      | _, _ => s
  | .reply =>
      match s.timer, s.server with
      | .listening, .replying envid value =>
          if envid = timerEnvid then
            { s with timer := .received nsEnvid value, server := .serving }
          else s
      | _, .replying envid _ => if envid = timerEnvid then s else { s with server := .serving }
      | _, _ => s
  | .message whom reqno =>
      match s.server with
      | .serving => if whom = timerEnvid then s else s.serve reqno whom
      | _ => s
  | .stray whom value =>
      match s.timer with
      | .listening => if whom = nsEnvid then s else { s with timer := .received whom value }
      | _ => s

/-- The timer has been forked. -/
def start (clock : Nat) : Net where
  clock := clock
  timer := .waiting (BitVec.ofNat 32 clock + timerInterval)
  server := .serving
  since := clock

end Net

/-- The states of the runs in which the clock stays below 2^31 - `TIMER_INTERVAL`. -/
inductive Reached (nsEnvid timerEnvid : U32) : Net → Prop where
  | start {clock : Nat} : clock < 2 ^ 31 - 250 → Reached nsEnvid timerEnvid (.start clock)
  | step {s : Net} (m : Move) : Reached nsEnvid timerEnvid s →
      (s.step nsEnvid timerEnvid m).clock < 2 ^ 31 - 250 →
      Reached nsEnvid timerEnvid (s.step nsEnvid timerEnvid m)

/-- The delay of an answer, as a signed number, is at most the interval, and the timer that
waits asks again as soon as it reads a time that is the interval past the answer. -/
structure Timely (nsEnvid : U32) (s : Net) : Prop where
  delay : ∀ envid value, s.server = .replying envid value → value.toInt ≤ timerInterval.toInt
  next : ∀ stop, s.timer = .waiting stop → s.since + timerInterval.toNat ≤ s.clock →
    (s.timerStep nsEnvid).timer = .requesting

/-! ## The delay -/

/-- A delay that was computed when the clock read `clock` or less: what the yield has taken is
at most that. -/
def Delay (clock : Nat) (value : U32) : Prop :=
  value.toInt ≤ 250 ∧ 0 ≤ (clock : Int) + value.toInt

theorem Delay.mono {clock clock' : Nat} {value : U32} (h : Delay clock value)
    (hle : clock ≤ clock') : Delay clock' value :=
  ⟨h.1, by have := h.2; omega⟩

theorem sysTimeMsec_toNat {s : Net} (hclock : s.clock < 2 ^ 31 - 250) :
    s.sysTimeMsec.toNat = s.clock := by
  unfold Net.sysTimeMsec
  rw [BitVec.toNat_ofNat]
  omega

/-- What `process_timer` sends is what is left of the interval, negative when nothing is. -/
theorem processTimer_delay {now start : U32} (hle : start.toNat ≤ now.toNat)
    (hnow : now.toNat < 2 ^ 31 - 250) :
    (timerInterval - (now - start)).toInt = 250 - ((now.toNat : Int) - start.toNat) := by
  have hinterval : timerInterval.toNat = 250 := rfl
  rw [BitVec.toInt_eq_toNat_cond, BitVec.toNat_sub, BitVec.toNat_sub, hinterval]
  split <;> omega

/-- The deadline that the timer computes from a delay, by an addition that may wrap around. -/
theorem deadline_toNat {now value : U32} (hnow : now.toNat < 2 ^ 31 - 250)
    (hdelay : Delay now.toNat value) : ((now + value).toNat : Int) = now.toNat + value.toInt := by
  obtain ⟨hle, hge⟩ := hdelay
  have hv := BitVec.toInt_eq_toNat_cond value
  have hlt := value.isLt
  rw [BitVec.toNat_add]
  split at hv <;> omega

/-- The loop of `timer` ends at its deadline. -/
theorem timerStep_waiting {s : Net} {stop : U32} (nsEnvid : U32) (htimer : s.timer = .waiting stop)
    (hclock : s.clock < 2 ^ 31 - 250) (hstop : stop.toNat ≤ s.clock) :
    (s.timerStep nsEnvid).timer = .requesting := by
  have hr := sysTimeMsec_toNat hclock
  have hnot : ¬ (s.sysTimeMsec < stop ∧ 0 ≤ s.sysTimeMsec.toInt) := by
    rintro ⟨hlt, -⟩
    have := BitVec.lt_def.mp hlt
    omega
  have hnonneg : ¬ s.sysTimeMsec.toInt < 0 := by
    rw [BitVec.toInt_eq_toNat_cond]
    split <;> omega
  unfold Net.timerStep
  rw [htimer]
  dsimp only
  rw [if_neg hnot, if_neg hnonneg]

/-! ## The runs -/

/-- What the two environments know of each other's times. -/
structure Inv (nsEnvid : U32) (s : Net) : Prop where
  since : s.since ≤ s.clock
  waiting : ∀ stop, s.timer = .waiting stop → stop.toNat ≤ s.since + 250
  yielding : ∀ envid start, s.server = .yielding envid start → start.toNat ≤ s.clock
  replying : ∀ envid value, s.server = .replying envid value → Delay s.clock value
  received : ∀ value, s.timer = .received nsEnvid value → Delay s.clock value

section Runs

variable {s : Net} {nsEnvid timerEnvid : U32}

theorem Inv.tick (h : Inv nsEnvid s) (n : Nat) :
    Inv nsEnvid { s with clock := s.clock + n } where
  since := Nat.le_trans h.since (Nat.le_add_right _ _)
  waiting := h.waiting
  yielding envid start hs := Nat.le_trans (h.yielding envid start hs) (Nat.le_add_right _ _)
  replying envid value hs := (h.replying envid value hs).mono (Nat.le_add_right _ _)
  received value hs := (h.received value hs).mono (Nat.le_add_right _ _)

theorem Inv.timerStep (h : Inv nsEnvid s) (hclock : s.clock < 2 ^ 31 - 250) :
    Inv nsEnvid (s.timerStep nsEnvid) := by
  unfold Net.timerStep
  split
  · next stop htimer =>
      dsimp only
      split
      · exact h
      · split
        · exact ⟨h.since, fun _ => nofun, h.yielding, h.replying, fun _ => nofun⟩
        · exact ⟨h.since, fun _ => nofun, h.yielding, h.replying, fun _ => nofun⟩
  · next whom value htimer =>
      split
      · exact ⟨h.since, fun _ => nofun, h.yielding, h.replying, fun _ => nofun⟩
      · next hwhom =>
          -- the deadline is computed
          have hns : whom = nsEnvid := not_not.mp hwhom
          subst hns
          have hr := sysTimeMsec_toNat hclock
          have hdelay := h.received value htimer
          refine ⟨Nat.le_refl _, fun stop hstop => ?_, h.yielding, h.replying, fun _ => nofun⟩
          obtain rfl := Timer.waiting.inj hstop
          have hsum : ((s.sysTimeMsec + value).toNat : Int) = _ :=
            deadline_toNat (hr ▸ hclock) (hr ▸ hdelay)
          have := hdelay.1
          dsimp only
          omega
  · exact h
  · exact h
  · exact h

theorem Inv.serverStep (h : Inv nsEnvid s) (hclock : s.clock < 2 ^ 31 - 250) :
    Inv nsEnvid (s.serverStep timerEnvid) := by
  have hr := sysTimeMsec_toNat hclock
  unfold Net.serverStep
  split
  · split
    · exact ⟨h.since, h.waiting, fun _ _ => nofun, fun _ _ => nofun, h.received⟩
    · refine ⟨h.since, h.waiting, fun envid start hs => ?_, fun _ _ => nofun, h.received⟩
      obtain ⟨rfl, rfl⟩ := Server.yielding.inj hs
      exact Nat.le_of_eq hr
  · next envid start hserver =>
      refine ⟨h.since, h.waiting, fun _ _ => nofun, fun envid' value hs => ?_, h.received⟩
      obtain ⟨rfl, rfl⟩ := Server.replying.inj hs
      have hstart := h.yielding envid start hserver
      have hdelay := processTimer_delay (hr.symm ▸ hstart) (hr.symm ▸ hclock)
      constructor
      · omega
      · dsimp only
        omega
  · exact h
  · exact h

/-- A message gets to the server. -/
theorem Inv.serve (h : Inv nsEnvid s) (reqno whom : U32) : Inv nsEnvid (s.serve reqno whom) := by
  unfold Net.serve
  refine ⟨h.since, h.waiting, fun envid start hs => ?_, fun envid value hs => ?_, h.received⟩
  · dsimp only at hs
    split at hs <;> cases hs
  · dsimp only at hs
    split at hs <;> cases hs

theorem Inv.step (h : Inv nsEnvid s) (hclock : s.clock < 2 ^ 31 - 250) (m : Move) :
    Inv nsEnvid (s.step nsEnvid timerEnvid m) := by
  cases m with
  | tick n => exact h.tick n
  | timer => exact h.timerStep hclock
  | server => exact h.serverStep hclock
  | request =>
      dsimp only [Net.step]
      split
      · have hlisten : Inv nsEnvid { s with timer := .listening } :=
          ⟨h.since, fun _ => nofun, h.yielding, h.replying, fun _ => nofun⟩
        exact hlisten.serve _ _
      · exact h
  | reply =>
      dsimp only [Net.step]
      split
      · next envid value htimer hserver =>
          split
          · refine ⟨h.since, fun _ => nofun, fun _ _ => nofun, fun _ _ => nofun, ?_⟩
            intro value' hs
            obtain ⟨-, rfl⟩ := Timer.received.inj hs
            exact h.replying envid value hserver
          · exact h
      · split
        · exact h
        · exact ⟨h.since, h.waiting, fun _ _ => nofun, fun _ _ => nofun, h.received⟩
      · exact h
  | message whom reqno =>
      dsimp only [Net.step]
      split
      · split
        · exact h
        · exact h.serve _ _
      · exact h
  | stray whom value =>
      dsimp only [Net.step]
      split
      · split
        · exact h
        · next hwhom =>
            refine ⟨h.since, fun _ => nofun, h.yielding, h.replying, fun value' hs => ?_⟩
            exact absurd (Timer.received.inj hs).1 hwhom
      · exact h

theorem Reached.clock (h : Reached nsEnvid timerEnvid s) : s.clock < 2 ^ 31 - 250 := by
  cases h with
  | start hclock => exact hclock
  | step m h hclock => exact hclock

theorem Reached.inv (h : Reached nsEnvid timerEnvid s) : Inv nsEnvid s := by
  induction h with
  | @start clock hclock =>
      refine ⟨Nat.le_refl _, fun stop hs => ?_, fun _ _ => nofun, fun _ _ => nofun,
        fun _ => nofun⟩
      obtain rfl := Timer.waiting.inj hs
      have hinterval : timerInterval.toNat = 250 := rfl
      rw [BitVec.toNat_add, BitVec.toNat_ofNat, hinterval]
      dsimp only [Net.start]
      omega
  | step m hreached _ ih => exact ih.step hreached.clock m

/-- The timer is never late, however long the threads of the server keep the processor. -/
theorem timer_timely (h : Reached nsEnvid timerEnvid s) : Timely nsEnvid s where
  delay envid value hs := (h.inv.replying envid value hs).1
  next stop htimer hle := by
    have hstop := h.inv.waiting stop htimer
    have hinterval : timerInterval.toNat = 250 := rfl
    exact timerStep_waiting nsEnvid htimer h.clock (by omega)

end Runs

/-! ## A slow thread -/

/-- The threads of the server keep the processor for 300 milliseconds. -/
def slowMoves : List Move := [.tick 250, .timer, .request, .server, .tick 300, .server]

/-- The states of the run from the fork of the timer at time 0. -/
def slowRun : Nat → Net
  | 0 => .start 0
  | n + 1 => (slowRun n).step 1#32 2#32 (slowMoves.getD n (.tick 0))

theorem slowRun_reached (n : Nat) (hn : n ≤ 6) : Reached 1#32 2#32 (slowRun n) := by
  induction n with
  | zero => exact .start (by decide)
  | succ n ih =>
      refine .step _ (ih (by omega)) ?_
      have hall : ∀ n, n < 6 → (slowRun (n + 1)).clock < 2 ^ 31 - 250 := by decide
      exact hall n (by omega)

theorem slowRun_replying : (slowRun 6).server = .replying 2#32 4294967246#32 := by decide

theorem timer_timely_slow : Timely 1#32 (slowRun 6) := timer_timely (slowRun_reached 6 (by decide))

/-- The delay itself, an unsigned number, is not at most the interval. -/
theorem not_delay_le_interval : ¬ ∀ (nsEnvid timerEnvid : U32) (s : Net),
    Reached nsEnvid timerEnvid s → Timely nsEnvid s ∧
      ∀ envid value, s.server = .replying envid value → value ≤ timerInterval := by
  intro h
  have hle := (h 1#32 2#32 _ (slowRun_reached 6 (by decide))).2 _ _ slowRun_replying
  exact absurd hle (by decide)

end NetTimer

end Jos

import Jos.IpcErrors
import Jos.IpcPerms

/-!
# Messages arrive once and in order

What `sys_ipc_try_send` and `sys_ipc_recv` have done so far is kept beside the
state: the messages that were sent to a slot, the messages that its environment has
found when `sys_ipc_recv` resumed, and whether it is still in a `sys_ipc_recv`.  A
slot holds at most one message that has not been found, and only while its
environment is off all processors, so that the two lists differ by that message.
-/

namespace Jos

open Programs

/-! ## What has happened -/

/-- `env_ipc_from` and `env_ipc_value`. -/
abbrev IpcMessage := U32 × U32

def Env.message (v : Env) : IpcMessage := (v.envIpcFrom, v.envIpcValue)

/-- What has happened to the slots since the start. -/
structure IpcHistory where
  /-- The messages for which `sys_ipc_try_send` returned 0. -/
  sent : Nat → List IpcMessage
  /-- The messages found when `sys_ipc_recv` resumed. -/
  seen : Nat → List IpcMessage
  /-- What `sys_ipc_recv` returned then. -/
  results : Nat → List U32
  /-- How often `sys_ipc_recv` has blocked. -/
  received : Nat → Nat
  /-- The environment is in a `sys_ipc_recv` that has not resumed. -/
  waiting : Nat → Bool

namespace IpcHistory

def start : IpcHistory :=
  ⟨fun _ => [], fun _ => [], fun _ => [], fun _ => 0, fun _ => false⟩

def send (h : IpcHistory) : Option (Nat × IpcMessage) → IpcHistory
  | none => h
  | some (rcv, m) => { h with sent := Function.update h.sent rcv (h.sent rcv ++ [m]) }

def block (h : IpcHistory) : Option Nat → IpcHistory
  | none => h
  | some e =>
      { h with
        received := Function.update h.received e (h.received e + 1)
        waiting := Function.update h.waiting e true }

/-- The environments that run now have resumed. -/
def resume (h : IpcHistory) (k : Kernel) : IpcHistory :=
  let resumes := fun e => h.waiting e && decide ((k.envs e).envStatus = .running)
  { h with
    seen := fun e => if resumes e then h.seen e ++ [(k.envs e).message] else h.seen e
    results := fun e =>
      if resumes e then h.results e ++ [(k.envs e).envTf.tfRegs.regEax] else h.results e
    waiting := fun e => h.waiting e && !resumes e }

end IpcHistory

/-! ## Steps -/

/-- The state in which an event has its system call served, with the processor, its
environment and the call. -/
def Event.served (ev : Event) (k : Kernel) : Option (Kernel × Nat × Nat × Call) :=
  match ev with
  | .trap c tf _ =>
      (k.curenv c).bind (fun cur =>
        if (k.envs cur).envStatus ≠ .dying ∧ tf.tfTrapno = tSyscall then
          tf.call.map (fun call => ((k.traps c).saveTf cur tf, c, cur, call))
        else none)
  | _ => none

/-- The receiver and the message, if the event is a `sys_ipc_try_send` that
returns 0. -/
def Event.sends (ev : Event) (k : Kernel) : Option (Nat × IpcMessage) :=
  (ev.served k).bind (fun (k₀, c, cur, call) =>
    if call.no = .ipcTrySend then
      match (call.run ev.inputs c).run k₀ with
      | .ret r _ =>
          if r = 0 then
            (k₀.envOf c call.a1 false).map (fun rcv => (rcv, ((k.envs cur).envId, call.a2)))
          else none
      | _ => none
    else none)

/-- The environment, if the event is a `sys_ipc_recv` that blocks. -/
def Event.blocks (ev : Event) (k : Kernel) : Option Nat :=
  (ev.served k).bind (fun (k₀, c, cur, call) =>
    if call.no = .ipcRecv then
      match (call.run ev.inputs c).run k₀ with
      | .exit _ => some cur
      | _ => none
    else none)

/-- An operation leaves the environments in `sys_ipc_recv` alone, and does not make
runnable, nor free, an environment that another processor has. -/
def EnvOp.Spares (k : Kernel) (c : Nat) (waiting : Nat → Bool) : EnvOp → Prop
  | setTf e _ => waiting e = false
  | setUpcall _ _ => True
  | setStatus e st => (k.envs e).envIpcRecving = false ∧
      (st = .runnable → ¬ k.OwnedElsewhere c e)
  | fork _ => True
  | kill e => waiting e = false ∧
      ((k.envs e).envStatus ≠ .running → ¬ k.OwnedElsewhere c e)
  | deliver _ _ _ => True

/-- No receiver is destroyed, nor changed by its parent, while it waits.  Calls of
`sys_ipc_recv` and `sys_ipc_try_send` are always of this kind. -/
def Event.Spares (k : Kernel) (waiting : Nat → Bool) (ev : Event) : Prop :=
  ∀ k₀ c call, ev.Serves k k₀ c call →
    ∀ op, call.AsksEnv k₀ c op → op.Spares k₀ c waiting

/-- The runs of the system in which the receivers are left alone, with what has
happened. -/
inductive IpcRun (managed : Set Nat) : Kernel → IpcHistory → Prop where
  | boot {k : Kernel} : Booted managed k → IpcRun managed k .start
  | step {k k' : Kernel} {h : IpcHistory} (ev : Event) :
      IpcRun managed k h → ev.Spares k h.waiting → ev.step k = some k' →
      IpcRun managed k' (((h.send (ev.sends k)).block (ev.blocks k)).resume k')

/-- The message that has arrived and has not been found yet. -/
def IpcHistory.pending (h : IpcHistory) (k : Kernel) (e : Nat) : List IpcMessage :=
  if h.waiting e = true ∧ (k.envs e).envIpcRecving = false then [(k.envs e).message] else []

/-- Messages arrive once and in order. -/
structure ExactlyOnce (k : Kernel) (h : IpcHistory) : Prop where
  /-- What was sent has been found, in this order, up to the message that waits. -/
  ordered : ∀ e, h.sent e = h.seen e ++ h.pending k e
  /-- Every `sys_ipc_recv` that blocked resumed once, or still waits. -/
  once : ∀ e, h.received e = (h.seen e).length + (h.waiting e).toNat
  /-- It returned 0. -/
  results : ∀ e, h.results e = List.replicate (h.seen e).length 0#32
  /-- What the last one has found stays there until the next one. -/
  kept : ∀ e m, h.waiting e = false → m ∈ (h.seen e).getLast? → (k.envs e).message = m
  /-- No processor has an environment in `sys_ipc_recv`. -/
  away : ∀ e, h.waiting e = true → ∀ c, k.curenv c ≠ some e
  /-- `env_ipc_recving` says that no message has come yet. -/
  recving : ∀ e, (k.envs e).envIpcRecving = true → h.waiting e = true ∧
    (k.envs e).envStatus = .notRunnable
  /-- A message for any other environment is refused. -/
  refused : ∀ (ev : Event) (k₀ : Kernel) (c : Nat) (call : Call) (rcv : Nat),
    ev.Serves k k₀ c call → call.no = .ipcTrySend →
    k₀.envOf c call.a1 false = some rcv → (k.envs rcv).envIpcRecving = false →
    (call.run ev.inputs c).run k₀ = .ret (-eIpcNotRecv) k₀

/-! ## The slot of an environment -/

/-- A slot with the messages that were sent to it and those that were found. -/
inductive Box (v : Env) : Bool → List IpcMessage → List IpcMessage → Prop where
  | idle {s : List IpcMessage} :
      v.envIpcRecving = false → (∀ m, m ∈ s.getLast? → v.message = m) → Box v false s s
  | blocked {s : List IpcMessage} :
      v.envIpcRecving = true → v.envStatus = .notRunnable → Box v true s s
  | full {s : List IpcMessage} :
      v.envIpcRecving = false → v.envStatus = .runnable ∨ v.envStatus = .notRunnable →
      v.envTf.tfRegs.regEax = 0#32 → Box v true (s ++ [v.message]) s

section Box

variable {v v' : Env} {w : Bool} {s t : List IpcMessage}

/-- A change that concerns neither the message nor the status nor `%eax`. -/
theorem Box.congr (h : Box v w s t) (hrecving : v'.envIpcRecving = v.envIpcRecving)
    (hmessage : v'.message = v.message)
    (hstatus : w = true → v'.envStatus = v.envStatus)
    (htf : w = true → v'.envTf = v.envTf) : Box v' w s t := by
  cases h with
  | idle hno hlast =>
      exact .idle (hrecving.trans hno) (fun m hm => hmessage.trans (hlast m hm))
  | blocked hyes hst => exact .blocked (hrecving.trans hyes) ((hstatus rfl).trans hst)
  | full hno hst heax =>
      rw [← hmessage]
      refine .full (hrecving.trans hno) ?_ ?_
      · rwa [hstatus rfl]
      · rwa [htf rfl]

/-- The environment of a slot in which a message is awaited is not run, and is
somebody. -/
theorem Box.status (h : Box v true s t) :
    v.envStatus = .runnable ∨ v.envStatus = .notRunnable := by
  cases h with
  | blocked _ hst => exact Or.inr hst
  | full _ hst _ => exact hst

theorem Box.not_running (h : Box v true s t) : v.envStatus ≠ .running := by
  rcases h.status with hst | hst <;> rw [hst] <;> decide

theorem Box.of_recving (h : Box v w s t) (hrecving : v.envIpcRecving = true) :
    w = true ∧ t = s ∧ v.envStatus = .notRunnable := by
  cases h with
  | idle hno _ => exact absurd (hno.symm.trans hrecving) (by decide)
  | blocked _ hst => exact ⟨rfl, rfl, hst⟩
  | full hno _ _ => exact absurd (hno.symm.trans hrecving) (by decide)

/-- The environment is run again: it finds the message. -/
theorem Box.resume (h : Box v true s t) (hst : v.envStatus = .runnable)
    (hrecving : v'.envIpcRecving = v.envIpcRecving) (hmessage : v'.message = v.message) :
    Box v' false s (t ++ [v.message]) ∧ v.envTf.tfRegs.regEax = 0#32 := by
  cases h with
  | blocked _ hst' => exact absurd (hst.symm.trans hst') (by decide)
  | full hno _ heax =>
      refine ⟨.idle (hrecving.trans hno) (fun m hm => ?_), heax⟩
      rw [List.getLast?_concat, Option.mem_some_iff] at hm
      exact hmessage.trans hm

theorem Box.not_recving (h : Box v false s t) : v.envIpcRecving = false := by
  cases h with
  | idle hno _ => exact hno

theorem Box.eq_of_idle (h : Box v false s t) : s = t := by
  cases h with
  | idle _ _ => rfl

/-- The status of an environment that has its message does not matter. -/
theorem Box.setStatus {st : EnvStatus} (h : Box v w s t) (hno : v.envIpcRecving = false)
    (hst : st = .runnable ∨ st = .notRunnable) : Box { v with envStatus := st } w s t := by
  cases h with
  | idle _ hlast => exact .idle hno hlast
  | blocked hyes _ => exact absurd (hno.symm.trans hyes) (by decide)
  | full _ _ heax => exact Box.full (v := { v with envStatus := st }) hno hst heax

theorem Box.congr_idle (h : Box v false s t) (hrecving : v'.envIpcRecving = false)
    (hmessage : v'.message = v.message) : Box v' false s t :=
  h.congr (hrecving.trans h.not_recving.symm) hmessage nofun nofun

end Box

/-! ## All slots -/

/-- The slots are in order when processor `c` is in the kernel. -/
structure Inside (c : Nat) (k : Kernel) (h : IpcHistory) : Prop where
  box : ∀ e, Box (k.envs e) (h.waiting e) (h.sent e) (h.seen e)
  once : ∀ e, h.received e = (h.seen e).length + (h.waiting e).toNat
  results : ∀ e, h.results e = List.replicate (h.seen e).length 0#32
  away : ∀ e, h.waiting e = true → ∀ c', c' ≠ c → k.curenv c' ≠ some e

/-- The slots are in order when no processor is in the kernel. -/
structure Posted (k : Kernel) (h : IpcHistory) : Prop where
  inside : ∀ c, Inside c k h
  away : ∀ e, h.waiting e = true → ∀ c, k.curenv c ≠ some e

section Inside

variable {k k' k₁ : Kernel} {h : IpcHistory} {c cur e rcv : Nat}

theorem resume_of_running (hw : h.waiting e = true)
    (hrun : (k.envs e).envStatus = .running) :
    (h.resume k).waiting e = false ∧
      (h.resume k).seen e = h.seen e ++ [(k.envs e).message] ∧
      (h.resume k).results e = h.results e ++ [(k.envs e).envTf.tfRegs.regEax] := by
  simp [IpcHistory.resume, hw, hrun]

theorem resume_of_not (hno : h.waiting e = true → (k.envs e).envStatus ≠ .running) :
    (h.resume k).waiting e = h.waiting e ∧ (h.resume k).seen e = h.seen e ∧
      (h.resume k).results e = h.results e := by
  cases hw : h.waiting e with
  | false => simp [IpcHistory.resume, hw]
  | true => simp [IpcHistory.resume, hw, hno hw]

/-- Nothing resumes where no waiting environment runs. -/
theorem resume_eq (hno : ∀ e, h.waiting e = true → (k.envs e).envStatus ≠ .running) :
    h.resume k = h := by
  have hseen : (h.resume k).seen = h.seen := funext (fun e => (resume_of_not (hno e)).2.1)
  have hresults : (h.resume k).results = h.results :=
    funext (fun e => (resume_of_not (hno e)).2.2)
  have hwaiting : (h.resume k).waiting = h.waiting :=
    funext (fun e => (resume_of_not (hno e)).1)
  calc h.resume k = ⟨h.sent, (h.resume k).seen, (h.resume k).results, h.received,
        (h.resume k).waiting⟩ := rfl
    _ = h := by rw [hseen, hresults, hwaiting]

theorem Inside.edit {v : Env} (hin : Inside c k h) (hcpus : k'.cpus = k.cpus)
    (henvs : k'.envs = Function.update k.envs e v)
    (hv : Box v (h.waiting e) (h.sent e) (h.seen e)) : Inside c k' h := by
  refine ⟨fun e' => ?_, hin.once, hin.results, fun e' hw c' hc => ?_⟩
  · rw [henvs]
    by_cases he : e' = e
    · subst he
      rwa [Function.update_self]
    · rw [Function.update_of_ne he]
      exact hin.box e'
  · unfold Kernel.curenv
    rw [hcpus]
    exact hin.away e' hw c' hc

theorem Inside.sameProcs (hin : Inside c k h) (hp : SameProcs k k') : Inside c k' h :=
  ⟨fun e => by rw [hp.envs]; exact hin.box e, hin.once, hin.results,
    fun e hw c' hc => by rw [hp.curenv]; exact hin.away e hw c' hc⟩

/-- An environment in no `sys_ipc_recv` is edited. -/
theorem Inside.editIdle {f : Env → Env} (hin : Inside c k h) (hw : h.waiting e = false)
    (hrecving : (f (k.envs e)).envIpcRecving = (k.envs e).envIpcRecving)
    (hmessage : (f (k.envs e)).message = (k.envs e).message) :
    Inside c (k.modifyEnv e f) h := by
  have hbox := hin.box e
  refine hin.edit (e := e) rfl rfl (hbox.congr hrecving hmessage ?_ ?_)
  · exact fun hyes => absurd (hw.symm.trans hyes) (by decide)
  · exact fun hyes => absurd (hw.symm.trans hyes) (by decide)

theorem Posted.enters (hp : Posted k h) (henvs : k'.envs = k.envs)
    (hcur : ∀ c', k'.curenv c' = k.curenv c') : Inside c k' h :=
  ⟨fun e => by rw [henvs]; exact (hp.inside c).box e, (hp.inside c).once,
    (hp.inside c).results, fun e hw c' _ => by rw [hcur]; exact hp.away e hw c'⟩

/-- An environment that runs waits for nothing. -/
theorem Posted.idle (hp : Posted k h) (hcur : k.curenv c = some cur) :
    h.waiting cur = false := by
  cases hw : h.waiting cur with
  | false => rfl
  | true => exact absurd hcur (hp.away cur hw c)

theorem Posted.traps (hp : Posted k h) (c : Nat) : Inside c (k.traps c) h := by
  refine hp.enters rfl (fun c' => ?_)
  by_cases hc : c' = c
  · rw [hc, traps_curenv]
  · unfold Kernel.curenv
    rw [traps_cpus_of_ne hc]

theorem Posted.sameProcs (hp : Posted k h) (hs : SameProcs k k') :
    Posted k' (h.resume k') := by
  have hno : ∀ e, h.waiting e = true → (k'.envs e).envStatus ≠ .running := by
    intro e hw
    have hbox := (hp.inside 0).box e
    rw [hw] at hbox
    rw [hs.envs]
    exact hbox.not_running
  rw [resume_eq hno]
  exact ⟨fun c => (hp.inside c).sameProcs hs, fun e hw c => by
    rw [hs.curenv]; exact hp.away e hw c⟩

/-- The processor leaves the kernel in environment `j`. -/
theorem Inside.dispatched {j d : Nat} (hin : Inside c k h)
    (hj : h.waiting j = true → (k.envs j).envStatus = .runnable) :
    Posted (k.dispatched c j d) (h.resume (k.dispatched c j d)) := by
  have henv : ∀ e, ((k.dispatched c j d).envs e).envIpcRecving = (k.envs e).envIpcRecving ∧
      ((k.dispatched c j d).envs e).message = (k.envs e).message ∧
      ((k.dispatched c j d).envs e).envTf = (k.envs e).envTf := by
    intro e
    rw [dispatched_envs e]
    exact ⟨rfl, rfl, rfl⟩
  have hstatus : ∀ e, e ≠ j → h.waiting e = true →
      ((k.dispatched c j d).envs e).envStatus = (k.envs e).envStatus := by
    intro e he hw
    have hbox := hin.box e
    rw [hw] at hbox
    rw [dispatched_status he, if_neg (fun hrun => hbox.not_running hrun.2)]
  have hother : ∀ e, (h.waiting e = true → e ≠ j) → h.waiting e = true →
      ((k.dispatched c j d).envs e).envStatus ≠ .running := by
    intro e he hw
    have hbox := hin.box e
    rw [hw] at hbox
    rw [hstatus e (he hw) hw]
    exact hbox.not_running
  have hslot : ∀ e,
      Box ((k.dispatched c j d).envs e) ((h.resume (k.dispatched c j d)).waiting e)
        (h.sent e) ((h.resume (k.dispatched c j d)).seen e) ∧
      h.received e = ((h.resume (k.dispatched c j d)).seen e).length +
        ((h.resume (k.dispatched c j d)).waiting e).toNat ∧
      (h.resume (k.dispatched c j d)).results e =
        List.replicate ((h.resume (k.dispatched c j d)).seen e).length 0#32 ∧
      ((h.resume (k.dispatched c j d)).waiting e = true → h.waiting e = true ∧ e ≠ j) := by
    intro e
    obtain ⟨hrecving, hmessage, htf⟩ := henv e
    by_cases hresumes : h.waiting e = true ∧ e = j
    · obtain ⟨hw, rfl⟩ := hresumes
      obtain ⟨hwait, hseen, hres⟩ := resume_of_running (k := k.dispatched c e d) hw
        dispatched_status_self
      have hbox := hin.box e
      rw [hw] at hbox
      obtain ⟨hbox', heax⟩ := hbox.resume (hj hw) hrecving hmessage
      rw [hwait, hseen, hres, hmessage, htf, heax, hin.results e, hin.once e, hw]
      refine ⟨hbox', by simp, by simp [List.replicate_succ'], nofun⟩
    · have hne : h.waiting e = true → e ≠ j := fun hw he => hresumes ⟨hw, he⟩
      obtain ⟨hwait, hseen, hres⟩ := resume_of_not (hother e hne)
      rw [hwait, hseen, hres]
      exact ⟨(hin.box e).congr hrecving hmessage (fun hw => hstatus e (hne hw) hw)
        (fun _ => htf), hin.once e, hin.results e, fun hw => ⟨hw, hne hw⟩⟩
  have haway : ∀ e, (h.resume (k.dispatched c j d)).waiting e = true →
      ∀ c', (k.dispatched c j d).curenv c' ≠ some e := by
    intro e hw c'
    obtain ⟨hw', hne⟩ := (hslot e).2.2.2 hw
    by_cases hc : c' = c
    · subst hc
      rw [dispatched_curenv_self]
      exact fun hh => hne (Option.some.inj hh).symm
    · rw [dispatched_curenv_of_ne hc]
      exact hin.away e hw' c' hc
  exact ⟨fun c' => ⟨fun e => (hslot e).1, fun e => (hslot e).2.1, fun e => (hslot e).2.2.1,
    fun e hw c'' _ => haway e hw c''⟩, haway⟩

/-- The processor leaves the kernel through the scheduler. -/
theorem Inside.yields (hin : Inside c k h) (hy : Yields k c k') : Posted k' (h.resume k') := by
  cases hy with
  | dispatch j d hpick hd =>
      refine hin.dispatched (fun hw => ?_)
      have hbox := hin.box j
      rw [hw] at hbox
      rcases hpick with ⟨i, -, -, hst, -⟩ | ⟨-, -, hst⟩
      · exact hst
      · exact absurd hst hbox.not_running
  | halt _ _ _ =>
      have hno : ∀ e, h.waiting e = true → ((k.haltedOn c).envs e).envStatus ≠ .running := by
        intro e hw
        have hbox := hin.box e
        rw [hw] at hbox
        exact hbox.not_running
      have haway : ∀ e, h.waiting e = true → ∀ c', (k.haltedOn c).curenv c' ≠ some e := by
        intro e hw c'
        by_cases hc : c' = c
        · subst hc
          simp [Kernel.haltedOn, Kernel.curenv]
        · have hsame : (k.haltedOn c).curenv c' = k.curenv c' := by
            simp [Kernel.haltedOn, Kernel.curenv, hc]
          rw [hsame]
          exact hin.away e hw c' hc
      rw [resume_eq hno]
      exact ⟨fun c' => ⟨hin.box, hin.once, hin.results, fun e hw c'' _ => haway e hw c''⟩,
        haway⟩

/-- The processor leaves the kernel at the end of `trap`. -/
theorem Inside.resumes (hin : Inside c k h) (hr : Resumes c k k') : Posted k' (h.resume k') := by
  cases hr with
  | same cur d _ hrun _ hk =>
      rw [hk]
      refine hin.dispatched (fun hw => ?_)
      have hbox := hin.box cur
      rw [hw] at hbox
      exact absurd hrun hbox.not_running
  | other _ hy => exact hin.yields hy

end Inside

/-! ## Calls -/

section Calls

variable {k k' k₀ k₁ : Kernel} {h : IpcHistory} {ev : Event} {c cur e rcv : Nat} {call : Call}
  {io : Inputs}

theorem Inside.freed {vm : PhysMem} (hin : Inside c k h) (hw : h.waiting e = false) :
    Inside c (k.freed vm e) h := by
  have hbox := hin.box e
  rw [hw] at hbox
  refine hin.edit (e := e) rfl rfl ?_
  rw [hw]
  exact hbox.congr_idle hbox.not_recving rfl

/-- The current environment is gone. -/
theorem Inside.dies (hin : Inside c k h) (hw : h.waiting cur = false)
    (hd : Dies c cur k k') : Inside c k' h := by
  obtain ⟨k₁, -, hfree, rfl⟩ := hd
  obtain ⟨d, vm, -, rfl⟩ := envFree_ret hfree
  have hfreed : Inside c (k.freed vm cur) h := hin.freed hw
  refine ⟨hfreed.box, hin.once, hin.results, fun e he c' hc => ?_⟩
  have hsame : ((k.freed vm cur).setCurenv c none).curenv c' = (k.freed vm cur).curenv c' := by
    simp [Kernel.setCurenv, Kernel.curenv, Kernel.modifyCpu_cpus_of_ne hc]
  rw [hsame]
  exact hfreed.away e he c' hc

theorem Inside.departs (hin : Inside c k h) (hw : h.waiting cur = false)
    (hd : Departs c cur k k') : Posted k' (h.resume k') := by
  cases hd with
  | dies k₁ k₂ hq hdies hy => exact ((hin.sameProcs hq.procs).dies hw hdies).yields hy
  | yields k₁ hq hy => exact (hin.sameProcs hq.procs).yields hy

/-- An operation that leaves the receivers alone and is no message. -/
theorem Inside.envOp {op : EnvOp} (hin : Inside c k h) (ho : Orderly k)
    (hop : op.Does c cur k k') (hs : op.Spares k c h.waiting) (hv : op.Valid k)
    (hno : ∀ rcv value perm, op ≠ .deliver rcv value perm) : Inside c k' h := by
  cases op with
  | setTf e tf =>
      obtain rfl := hop
      exact hin.editIdle hs rfl rfl
  | setUpcall e func =>
      obtain rfl := hop
      exact hin.edit (e := e) rfl rfl ((hin.box e).congr rfl rfl (fun _ => rfl) (fun _ => rfl))
  | setStatus e st =>
      obtain rfl := hop
      exact hin.edit (e := e) rfl rfl ((hin.box e).setStatus hs.1 hv.2)
  | fork e =>
      obtain ⟨k₁, hrun, rfl⟩ := hop
      obtain ⟨hlist, p, vm, rfl⟩ := envAlloc_ret hrun
      obtain ⟨-, hfree, -, -⟩ := ho.slots.head_free hlist
      have hbox := hin.box e
      have hw : h.waiting e = false := by
        cases hw : h.waiting e with
        | false => rfl
        | true =>
            rw [hw] at hbox
            rcases hbox.status with hst | hst
            · exact absurd (hfree.symm.trans hst) (by decide)
            · exact absurd (hfree.symm.trans hst) (by decide)
      have hmade : Inside c (k.allocated vm e p (k.envs cur).envId) h := by
        rw [hw] at hbox
        refine hin.edit (e := e) rfl rfl ?_
        rw [hw]
        exact hbox.congr_idle rfl rfl
      exact hmade.editIdle hw rfl rfl
  | kill e =>
      obtain ⟨-, ⟨-, rfl⟩ | ⟨-, hfree⟩⟩ := hop
      · exact hin.editIdle hs.1 rfl rfl
      · obtain ⟨d, vm, -, rfl⟩ := envFree_ret hfree
        exact hin.freed hs.1
  | deliver rcv value perm => exact absurd rfl (hno rcv value perm)

/-- A message arrives in a slot in which it is awaited. -/
theorem Inside.delivered {value : U32} {perm : Option U32} (hin : Inside c k h)
    (hrecving : (k.envs rcv).envIpcRecving = true)
    (hop : (EnvOp.deliver rcv value perm).Does c cur k k') :
    Inside c k' (h.send (some (rcv, ((k.envs cur).envId, value)))) := by
  obtain rfl := hop
  obtain ⟨hw, hsent, -⟩ := (hin.box rcv).of_recving hrecving
  refine ⟨fun e => ?_, hin.once, hin.results, hin.away⟩
  by_cases he : e = rcv
  · subst he
    have hmessage : (((k.envs e).takePage perm).deliver (k.envs cur).envId value).message =
        ((k.envs cur).envId, value) := rfl
    simp only [IpcHistory.send, Kernel.modifyEnv_envs_self, Function.update_self, hw]
    rw [← hsent, ← hmessage]
    exact .full rfl (Or.inl rfl) rfl
  · simp only [IpcHistory.send, Function.update_of_ne he, Kernel.modifyEnv_envs_of_ne he]
    exact hin.box e

theorem Inside.sent {value srcva perm : U32} (hin : Inside c k h)
    (hrecving : (k.envs rcv).envIpcRecving = true)
    (hsent : Sent k c cur rcv value srcva perm k') :
    Inside c k' (h.send (some (rcv, ((k.envs cur).envId, value)))) := by
  cases hsent with
  | plain _ hop => exact hin.delivered hrecving hop
  | page k₁ _ _ hvm hop =>
      have hp := hvm.sameProcs
      rw [← hp.envs] at hrecving ⊢
      exact (hin.sameProcs hp).delivered hrecving hop

/-- `sys_ipc_recv` blocks. -/
theorem Inside.blocked {dstva : U32} (hin : Inside c k h) (hw : h.waiting cur = false)
    (hcur : ∀ c', c' ≠ c → k.curenv c' ≠ some cur) :
    Inside c (k.blocked cur dstva) (h.block (some cur)) := by
  have hbox := hin.box cur
  rw [hw] at hbox
  have heq : h.sent cur = h.seen cur := hbox.eq_of_idle
  refine ⟨fun e => ?_, fun e => ?_, hin.results, fun e he c' hc => ?_⟩
  · by_cases he : e = cur
    · subst he
      simp only [IpcHistory.block, Kernel.blocked, Kernel.modifyEnv_envs_self,
        Function.update_self]
      rw [heq]
      exact .blocked rfl rfl
    · simp only [IpcHistory.block, Kernel.blocked, Kernel.modifyEnv_envs_of_ne he,
        Function.update_of_ne he]
      exact hin.box e
  · by_cases he : e = cur
    · subst he
      have honce := hin.once e
      rw [hw, Bool.toNat_false] at honce
      simp only [IpcHistory.block, Function.update_self, Bool.toNat_true]
      omega
    · simp only [IpcHistory.block, Function.update_of_ne he]
      exact hin.once e
  · by_cases hne : e = cur
    · rw [hne]
      exact hcur c' hc
    · simp only [IpcHistory.block, Function.update_of_ne hne] at he
      exact hin.away e he c' hc

/-- A system call that is no message. -/
theorem Inside.served (hin : Inside c k h) (ho : Orderly k) (hker : InKernel c k)
    (hno : call.no ≠ .ipcTrySend)
    (hspares : ∀ op, call.AsksEnv k c op → op.Spares k c h.waiting)
    (hs : Served c cur (call.AsksVm k c) (call.AsksEnv k c) k k') : Inside c k' h := by
  cases hs with
  | memory hvm => exact hin.sameProcs hvm.sameProcs
  | envs op k₁ hvm hop hdoes =>
      have hp := hvm.sameProcs
      have hsp : op.Spares k₁ c h.waiting := by
        have hsp := hspares op hop
        cases op with
        | setStatus e st =>
            exact ⟨by rw [hp.envs]; exact hsp.1, fun hst hown =>
              hsp.2 hst (hp.ownedElsewhere.mp hown)⟩
        | kill e =>
            refine ⟨hsp.1, fun hst hown => hsp.2 ?_ (hp.ownedElsewhere.mp hown)⟩
            rwa [hp.envs] at hst
        | setTf e tf => exact hsp
        | setUpcall e func => trivial
        | fork e => trivial
        | deliver rcv value perm => trivial
      refine (hin.sameProcs hp).envOp (ho.sameProcs hp) hdoes hsp
        ((hop.valid ho.procs hker).congr hp) ?_
      rintro rcv value perm rfl
      cases hop with
      | ipcTrySend hsend => exact hno hsend

end Calls

/-! ## Whole steps -/

section Steps

variable {managed : Set Nat} {k k' k₀ k₁ : Kernel} {h : IpcHistory} {ev : Event}
  {c cur e rcv : Nat} {call : Call}

theorem Event.Serves.served (hserves : ev.Serves k k₀ c call) (hcur : k.curenv c = some cur) :
    ev.served k = some (k₀, c, cur, call) := by
  cases hserves with
  | trap hcur' hdying hsys hcall =>
      obtain rfl := Option.some.inj (hcur.symm.trans hcur')
      simp [Event.served, hcur, hdying, hsys, hcall]

theorem Event.served_none (hno : ∀ k₀ c call, ¬ ev.Serves k k₀ c call) :
    ev.served k = none := by
  cases ev with
  | trap c tf io =>
      cases hcur : k.curenv c with
      | none => simp [Event.served, hcur]
      | some cur =>
          by_cases hserve : (k.envs cur).envStatus ≠ .dying ∧ tf.tfTrapno = tSyscall
          · cases hcall : tf.call with
            | none => simp [Event.served, hcur, hcall]
            | some call => exact absurd (.trap hcur hserve.1 hserve.2 hcall) (hno _ _ _)
          · simp [Event.served, hcur, if_neg hserve]
  | _ => rfl

@[simp] theorem send_waiting (h : IpcHistory) (sends : Option (Nat × IpcMessage)) :
    (h.send sends).waiting = h.waiting := by
  cases sends <;> rfl

/-- The processor of an environment has come to serve its call. -/
theorem Posted.serves (hp : Posted k h) (hserves : ev.Serves k k₀ c call) :
    Inside c k₀ h := by
  cases hserves with
  | @trap _ cur tf io _ hcur _ _ _ =>
      exact (hp.traps c).editIdle (hp.idle hcur) rfl rfl

theorem Orderly.serves (ho : Orderly k) (hout : Outside k) (hserves : ev.Serves k k₀ c call) :
    Orderly k₀ ∧ InKernel c k₀ := by
  cases hserves with
  | trap _ _ _ _ =>
      obtain ⟨h₁, hin₁⟩ := ho.traps (c := c) hout
      exact ⟨h₁.edit rfl rfl rfl rfl, hin₁.congr ⟨rfl, rfl, rfl⟩⟩

/-- The receivers being in order, what is spared is fair. -/
theorem Posted.fair (hp : Posted k h) (hs : ev.Spares k h.waiting) : ev.Fair k := by
  intro k₀ c call hserves op hop
  have hspares := hs k₀ c call hserves op hop
  cases op with
  | setTf e tf => trivial
  | setUpcall e func => trivial
  | setStatus e st => exact hspares.2
  | fork e => trivial
  | kill e => exact hspares.2
  | deliver rcv value perm =>
      cases hop with
      | ipcTrySend _ _ hrecving =>
          have hin := hp.serves hserves
          obtain ⟨hw, -, -⟩ := (hin.box rcv).of_recving hrecving
          rintro ⟨c', hc, he⟩
          exact hin.away rcv hw c' hc he

/-- A step in which a system call is served. -/
theorem Posted.step_serves (hp : Posted k h) (ho : Orderly k) (hout : Outside k)
    (hs : ev.Spares k h.waiting) (hserves : ev.Serves k k₀ c call)
    (hstep : ev.step k = some k') :
    Posted k' (((h.send (ev.sends k)).block (ev.blocks k)).resume k') := by
  have hin := hp.serves hserves
  obtain ⟨ho₀, hker⟩ := ho.serves hout hserves
  obtain ⟨cur, hcur, hruns⟩ := hserves.runs (fun c hpl => (ho.procs.halted c).mpr hpl) hstep
  have hcur₀ : k₀.curenv c = some cur := hserves.curenv.trans hcur
  have hserved := hserves.served hcur
  have hw : h.waiting cur = false := hp.idle hcur
  have hid : (k₀.envs cur).envId = (k.envs cur).envId := by
    obtain ⟨tf, heq, -⟩ := hserves.envs cur
    rw [heq]
  rcases hruns with ⟨r, k₁, hrun, hs₁, hr⟩ | ⟨hrun, -⟩
  · -- the call returns
    have hblocks : ev.blocks k = none := by
      simp [Event.blocks, hserved, hrun]
    have hback : ∀ sends, Inside c k₁ (h.send sends) →
        Posted k' ((h.send sends).resume k') := fun sends h₁ =>
      (h₁.editIdle (e := cur) ((congrFun (send_waiting h sends) cur).trans hw)
        rfl rfl).resumes hr
    rw [hblocks]
    by_cases hno : call.no = .ipcTrySend
    · rcases sends_cases hcur₀ hno hrun with ⟨hr0, rfl⟩ | ⟨rfl, rcv, henv, hrecving, hsent⟩
      · have hsends : ev.sends k = none := by
          simp [Event.sends, hserved, hrun, hr0]
        rw [hsends]
        exact hback none hin
      · have hsends : ev.sends k = some (rcv, ((k₀.envs cur).envId, call.a2)) := by
          simp [Event.sends, hserved, hrun, hno, henv, hid]
        rw [hsends]
        exact hback _ (hin.sent hrecving hsent)
    · have hsends : ev.sends k = none := by
        simp [Event.sends, hserved, hno]
      rw [hsends]
      exact hback none (hin.served ho₀ hker hno (hs k₀ c call hserves) hs₁)
  · -- the call does not return
    have hsends : ev.sends k = none := by
      simp [Event.sends, hserved, hrun]
    rw [hsends]
    by_cases hno : call.no = .ipcRecv
    · have hblocks : ev.blocks k = some cur := by
        simp [Event.blocks, hserved, hrun, hno]
      rw [hblocks]
      refine (hin.blocked hw (fun c' hc he => ?_)).yields
        (wp_exited (call.run_waits hno hker.lock hcur₀) hrun)
      exact hc (ho₀.procs.inj c' c cur he hcur₀)
    · have hblocks : ev.blocks k = none := by
        simp [Event.blocks, hserved, hno]
      rw [hblocks]
      exact hin.departs hw (wp_exited (call.run_departs hno hker.lock hcur₀) hrun)

/-- Any step. -/
theorem Posted.step (hp : Posted k h) (ho : Orderly k) (hout : Outside k)
    (hs : ev.Spares k h.waiting) (hstep : ev.step k = some k') :
    Posted k' (((h.send (ev.sends k)).block (ev.blocks k)).resume k') := by
  by_cases hserves : ∃ k₀ c call, ev.Serves k k₀ c call
  · obtain ⟨k₀, c, call, hserves⟩ := hserves
    exact hp.step_serves ho hout hs hserves hstep
  have hserved : ev.served k = none :=
    Event.served_none (fun k₀ c call hh => hserves ⟨k₀, c, call, hh⟩)
  have hsends : ev.sends k = none := by simp [Event.sends, hserved]
  have hblocks : ev.blocks k = none := by simp [Event.blocks, hserved]
  rw [hsends, hblocks]
  change Posted k' (h.resume k')
  cases Event.step_cases (fun c hpl => (ho.procs.halted c).mpr hpl) hstep with
  | @start c _ _ _ hy =>
      have henters : Inside c (k.enters c) h := by
        refine hp.enters rfl (fun c' => ?_)
        unfold Kernel.curenv
        by_cases hc : c' = c
        · rw [hc, enters_cpus_self]
        · rw [enters_cpus_of_ne hc]
      exact henters.yields hy
  | @reap c cur _ _ _ _ _ _ hcur _ hd hy =>
      exact ((hp.traps c).dies (hp.idle hcur) hd).yields hy
  | @serve c cur tf io _ _ _ hcur hdying hh =>
      have hw := hp.idle hcur
      have hsaved : Inside c ((k.traps c).saveTf cur tf) h := (hp.traps c).editIdle hw rfl rfl
      cases hh with
      | returns call r k₁ hsys hcall _ _ _ =>
          exact absurd ⟨_, _, call, .trap hcur hdying hsys hcall⟩ hserves
      | leaves call hsys hcall _ _ =>
          exact absurd ⟨_, _, call, .trap hcur hdying hsys hcall⟩ hserves
      | badCall _ _ hr => exact (hsaved.editIdle hw rfl rfl).resumes hr
      | fault utr words k₁ k₂ d _ _ _ hq hpush _ hk =>
          have h₂ := (hsaved.sameProcs hq.procs).sameProcs hpush.sameProcs
          rw [hk]
          exact (h₂.editIdle (e := cur) hw rfl rfl).dispatched
            (fun hyes => absurd (hw.symm.trans hyes) (by decide))
      | gone _ hd => exact hsaved.departs hw hd
      | ignored _ hr => exact hsaved.resumes hr
  | @wake c _ _ _ _ _ _ hq hr =>
      have h₁ := (hp.traps c).sameProcs hq.procs
      exact hr.elim (fun hr => h₁.resumes hr) (fun hy => h₁.yields hy)
  | store _ _ _ => exact hp.sameProcs (sameProcs_setVm _)
  | device hq => exact hp.sameProcs hq.procs

/-- Nobody waits when the system starts. -/
theorem Booted.posted (hb : Booted managed k) : Posted k .start := by
  have hrecving : ∀ e, (k.envs e).envIpcRecving = false := by
    induction hb with
    | @init k hinit _ _ _ =>
        obtain ⟨k₀, hzero, rfl⟩ := hinit.envs
        intro e
        change (k₀.envs e).envIpcRecving = false
        rw [hzero]
        rfl
    | @create k k' binary type _ _ hrun ih =>
        obtain ⟨e, p, vm, -, hp⟩ := wp_ret (envCreate_procs 0 binary type k) hrun
        intro e'
        rw [hp.envs]
        by_cases he : e' = e
        · subst he
          rw [Kernel.modifyEnv_envs_self, allocated_envs_self]
          unfold Env.created
          dsimp only
          split
          · rfl
          · rfl
        · rw [Kernel.modifyEnv_envs_of_ne he, allocated_envs_of_ne he]
          exact ih e'
  exact ⟨fun c => ⟨fun e => .idle (hrecving e) nofun, fun _ => rfl, fun _ => rfl, nofun⟩, nofun⟩

theorem IpcRun.posted (hrun : IpcRun managed k h) :
    Posted k h ∧ Orderly k ∧ Outside k := by
  induction hrun with
  | boot hb => exact ⟨hb.posted, hb.booting.orderly⟩
  | step ev _ hs hstep ih =>
      obtain ⟨hp, ho, hout⟩ := ih
      exact ⟨hp.step ho hout hs hstep, ev.orderly ho hout (hp.fair hs) hstep⟩

/-- Calls that are for no environment but those that wait spare the receivers. -/
theorem Event.spares_of_call {waiting : Nat → Bool}
    (hcall : ∀ k₀ c call, ev.Serves k k₀ c call →
      call.no = .ipcRecv ∨ call.no = .ipcTrySend ∨ call.no = .yield) :
    ev.Spares k waiting := by
  intro k₀ c call hserves op hop
  have hno := hcall k₀ c call hserves
  cases hop with
  | envDestroy h _ => simp [h] at hno
  | exofork h _ => simp [h] at hno
  | setStatus h _ _ => simp [h] at hno
  | setTrapframe h _ => simp [h] at hno
  | setUpcall h _ => simp [h] at hno
  | ipcTrySend _ _ _ => trivial

end Steps

/-! ## A message -/

/-- A run of events with what has happened. -/
def ipcAfter (k : Kernel) (h : IpcHistory) : List Event → Option (Kernel × IpcHistory)
  | [] => some (k, h)
  | ev :: evs =>
      (ev.step k).bind (fun k' =>
        ipcAfter k' (((h.send (ev.sends k)).block (ev.blocks k)).resume k') evs)

theorem IpcRun.after {managed : Set Nat} {k k' : Kernel} {h h' : IpcHistory}
    {evs : List Event} (hrun : IpcRun managed k h)
    (hs : ∀ ev, ev ∈ evs → ∀ k waiting, ev.Spares k waiting)
    (hafter : ipcAfter k h evs = some (k', h')) : IpcRun managed k' h' := by
  induction evs generalizing k h with
  | nil =>
      obtain ⟨rfl, rfl⟩ := Prod.mk.inj (Option.some.inj hafter)
      exact hrun
  | cons ev evs ih =>
      obtain ⟨k₁, hstep, hrest⟩ := Option.bind_eq_some_iff.mp hafter
      exact ih (.step ev hrun (hs ev List.mem_cons_self k _) hstep)
        (fun ev' hev' => hs ev' (List.mem_cons_of_mem ev hev')) hrest

/-- Environment 0 receives, environment 1 sends, and environment 0 resumes. -/
def oneMessage : List Event :=
  [.start 0, callEvent 0 13#32 0xF0000000#32 0#32 0#32 0#32 0#32,
    callEvent 0 12#32 0x1000#32 1#32 0xF0000000#32 0#32 0#32,
    callEvent 0 11#32 0#32 0#32 0#32 0#32 0#32]

theorem oneMessage_spares : ∀ ev, ev ∈ oneMessage → ∀ k waiting, ev.Spares k waiting := by
  intro ev hev k waiting
  refine Event.spares_of_call (fun k₀ c call hserves => ?_)
  cases hserves with
  | @trap c cur tf io _ _ _ _ hcall =>
      simp only [oneMessage, callEvent, List.mem_cons, Event.trap.injEq, List.not_mem_nil,
        or_false, reduceCtorEq, false_or] at hev
      rcases hev with ⟨-, rfl, -⟩ | ⟨-, rfl, -⟩ | ⟨-, rfl, -⟩
      · obtain rfl := Option.some.inj hcall
        exact Or.inl rfl
      · obtain rfl := Option.some.inj hcall
        exact Or.inr (Or.inl rfl)
      · obtain rfl := Option.some.inj hcall
        exact Or.inr (Or.inr rfl)

end Jos

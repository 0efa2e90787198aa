import Jos.Lib.Keeps
import Jos.Trap

/-!
# What the kernel leaves alone

Few functions of the kernel count time, and few note the use of a user address.  Here
are the others: whatever holds of the count, of the number of processors and of the
notes holds where such a function ends, however it ends.  The functions that note
something are here too, for what does not mind a note.
-/

namespace Jos

open Programs

/-- The count of ticks, the number of processors, and the uses of user addresses. -/
def Kernel.side (k : Kernel) : U32 × Nat × List MemEvent := (k.ticks, k.ncpu, k.trace)

/-- What is said of these alone. -/
def Beside (R : U32 × Nat × List MemEvent → Prop) (k : Kernel) : Prop := R k.side

/-- A note more changes nothing. -/
def AnyNotes (R : U32 × Nat × List MemEvent → Prop) : Prop :=
  ∀ t n evs ev, R (t, n, evs) → R (t, n, ev :: evs)

section Beside

variable {R : U32 × Nat × List MemEvent → Prop} {c e cur : Nat}

theorem beside_last {f : Kernel → Kernel} (hf : ∀ k, (f k).side = k.side) :
    Ends (Beside R) (Prog.modify f) := by
  refine Ends.modify (fun k h => ?_)
  unfold Beside
  rwa [hf k]

theorem beside_step {α : Type} {f : Kernel → Kernel} {g : Unit → Prog Kernel α}
    (hf : ∀ k, (f k).side = k.side) (hg : ∀ a, Ends (Beside R) (g a)) :
    Ends (Beside R) (Prog.modify f >>= g) := (beside_last hf).bind hg

/-- A use of a user address is noted. -/
theorem beside_log (hnotes : AnyNotes R) {ev : MemEvent} :
    Ends (Beside R) (Prog.modify (fun k => k.log ev)) :=
  Ends.modify (fun k h => hnotes k.ticks k.ncpu k.trace ev h)

theorem beside_onVm {α : Type} {m : Prog PhysMem α} : Ends (Beside R) (onVm m) :=
  Ends.zoom (fun _ _ h => h)

theorem beside_lockKernel : Ends (Beside R) (lockKernel c) :=
  Ends.get.bind (fun _ => .ite (beside_last (fun _ => rfl)) .stop)

theorem beside_unlockKernel : Ends (Beside R) (unlockKernel c) :=
  Ends.get.bind (fun _ => .ite (beside_last (fun _ => rfl)) .stop)

theorem beside_theCurenv : Ends (Beside R) (theCurenv c) := by
  refine Ends.get.bind (fun k => ?_)
  cases k.curenv c with
  | none => exact .stop
  | some cur => exact .pure cur

theorem beside_thePgdir : Ends (Beside R) (thePgdir e) := by
  refine Ends.get.bind (fun k => ?_)
  cases (k.envs e).envPgdir with
  | none => exact .stop
  | some d => exact .pure d

theorem beside_envid2env {envid : U32} {checkperm : Bool} :
    Ends (Beside R) (envid2env c envid checkperm) := by
  refine Ends.get.bind (fun k => ?_)
  cases k.curenv c with
  | none => exact .ite .stop (.ite (.pure _) (.ite .stop (.pure _)))
  | some cur =>
      exact .ite (.pure _) (.ite (.pure _) (.ite (.ite (.pure _) (.pure _)) (.pure _)))

theorem side_preempt {k : Kernel} : (k.preempt c).side = k.side := by
  unfold Kernel.preempt
  cases k.curenv c with
  | none => exact rfl
  | some cur =>
      dsimp only
      split
      · exact rfl
      · exact rfl

theorem beside_envRun : Ends (Beside R) (envRun c e) := by
  refine beside_step (fun _ => side_preempt) (fun _ =>
    beside_step (fun _ => rfl) (fun _ => beside_step (fun _ => rfl) (fun _ =>
      beside_step (fun _ => rfl) (fun _ => Ends.get.bind (fun k => ?_)))))
  cases (k.envs e).envPgdir with
  | none => exact .stop
  | some d =>
      exact beside_onVm.bind (fun _ => beside_unlockKernel.bind (fun _ =>
        beside_step (fun _ => rfl) (fun _ =>
          beside_step (fun _ => rfl) (fun _ => .exit))))

theorem beside_schedHalt : Ends (Beside R) (schedHalt c) :=
  Ends.get.bind (fun _ => .ite (beside_step (fun _ => rfl) (fun _ =>
    beside_onVm.bind (fun _ => beside_step (fun _ => rfl) (fun _ =>
      beside_unlockKernel.bind (fun _ => beside_step (fun _ => rfl) (fun _ =>
        .exit)))))) .stop)

theorem beside_schedYield : Ends (Beside R) (schedYield c) := by
  refine Ends.get.bind (fun k => Ends.bind (Ends.forRange (fun i => ?_) 0 nenv) (fun _ => ?_))
  · exact Ends.get.bind (fun _ => .when beside_envRun)
  cases k.curenv c with
  | none => exact beside_schedHalt
  | some cur => exact (Ends.when beside_envRun).bind (fun _ => beside_schedHalt)

theorem beside_envFree : Ends (Beside R) (envFree c e) := by
  refine Ends.get.bind (fun k => ?_)
  cases (k.envs e).envPgdir with
  | none => exact .stop
  | some d =>
      exact (Ends.when beside_onVm).bind (fun _ => beside_onVm.bind (fun _ =>
        beside_step (fun _ => rfl) (fun _ => beside_onVm.bind (fun _ =>
          beside_onVm.bind (fun _ => beside_last (fun _ => rfl))))))

theorem beside_envDestroy : Ends (Beside R) (envDestroy c e) :=
  Ends.get.bind (fun _ => .ite (beside_last (fun _ => rfl)) (beside_envFree.bind (fun _ =>
    Ends.get.bind (fun _ => .when (beside_step (fun _ => rfl) (fun _ =>
      beside_schedYield))))))

theorem beside_userMemAssert (hnotes : AnyNotes R) {va len perm : U32} :
    Ends (Beside R) (userMemAssert c e va len perm) :=
  beside_thePgdir.bind (fun _ => beside_onVm.bind (fun _ =>
    .ite beside_envDestroy (beside_log hnotes)))

theorem beside_peekByte {va : U32} : Ends (Beside R) (peekByte c va) := by
  refine Ends.get.bind (fun k => ?_)
  cases k.vm.kernelPage (k.vm.cr3 c) va false with
  | none => exact .stop
  | some p => exact .pure _

theorem beside_loadByte (hnotes : AnyNotes R) {va : U32} :
    Ends (Beside R) (loadByte c va) :=
  (beside_log hnotes).bind (fun _ => beside_peekByte)

theorem beside_pokeByte {va : U32} {b : U8} : Ends (Beside R) (pokeByte c va b) := by
  refine Ends.get.bind (fun k => ?_)
  cases k.vm.kernelPage (k.vm.cr3 c) va true with
  | none => exact .stop
  | some p => exact beside_last (fun _ => rfl)

theorem beside_storeByte (hnotes : AnyNotes R) {va : U32} {b : U8} :
    Ends (Beside R) (storeByte c va b) :=
  (beside_log hnotes).bind (fun _ => beside_pokeByte)

theorem beside_loadBytes (hnotes : AnyNotes R) {va : U32} {len : Nat} :
    Ends (Beside R) (loadBytes c va len) := by
  induction len generalizing va with
  | zero => exact .pure _
  | succ len ih => exact (beside_loadByte hnotes).bind (fun _ => ih.bind (fun _ => .pure _))

theorem beside_storeBytes (hnotes : AnyNotes R) {va : U32} {bs : List U8} :
    Ends (Beside R) (storeBytes c va bs) := by
  induction bs generalizing va with
  | nil => exact .pure _
  | cons b bs ih => exact (beside_storeByte hnotes).bind (fun _ => ih)

theorem beside_loadU32 (hnotes : AnyNotes R) {va : U32} :
    Ends (Beside R) (loadU32 c va) :=
  (beside_loadBytes hnotes).bind (fun _ => .pure _)

theorem side_putch {k : Kernel} {bs : List U8} :
    (bs.foldl Kernel.putch k).side = k.side := by
  induction bs generalizing k with
  | nil => exact rfl
  | cons b bs ih => exact ih

theorem beside_putString (hnotes : AnyNotes R) {fuel : Nat} {p : U32} {precision : Int} :
    Ends (Beside R) (putString c fuel p precision) := by
  induction fuel generalizing p precision with
  | zero => exact .stop
  | succ fuel ih =>
      exact (beside_loadByte hnotes).bind (fun _ =>
        .ite (beside_step (fun _ => rfl) (fun _ => ih)) (.pure _))

theorem beside_sysCputs (hnotes : AnyNotes R) {s len : U32} :
    Ends (Beside R) (sysCputs c s len) :=
  beside_theCurenv.bind (fun _ => (beside_userMemAssert hnotes).bind (fun _ =>
    .ite (beside_last (fun _ => side_putch)) (beside_putString hnotes)))

/-! ## The system calls -/

variable {a1 a2 a3 a4 a5 : U32}

theorem beside_sysEnvDestroy : Ends (Beside R) (sysEnvDestroy c a1) := by
  refine beside_envid2env.bind (fun r => ?_)
  cases r with
  | error r => exact .pure _
  | ok e => exact beside_envDestroy.bind (fun _ => .pure _)

theorem beside_envAlloc : Ends (Beside R) (envAlloc a1) := by
  have hsetup : ∀ e, Ends (Beside R) (envSetupVm e) := by
    intro e
    refine beside_onVm.bind (fun r => ?_)
    cases r with
    | none => exact .pure _
    | some p =>
        exact beside_onVm.bind (fun _ => beside_step (fun _ => rfl) (fun _ =>
          beside_onVm.bind (fun _ => beside_onVm.bind (fun _ => beside_onVm.bind (fun _ =>
            .pure _)))))
  refine Ends.get.bind (fun k => ?_)
  cases k.envFreeList with
  | none => exact .pure _
  | some e =>
      refine (hsetup e).bind (fun r => ?_)
      cases r with
      | error r => exact .pure _
      | ok u =>
          exact beside_step (fun _ => rfl) (fun _ =>
            beside_step (fun _ => rfl) (fun _ => .pure _))

theorem beside_sysExofork : Ends (Beside R) (sysExofork c) := by
  refine beside_theCurenv.bind (fun _ => Ends.get.bind (fun _ =>
    beside_envAlloc.bind (fun r => ?_)))
  cases r with
  | error r => exact .pure _
  | ok e =>
      exact beside_step (fun _ => rfl) (fun _ => beside_step (fun _ => rfl)
        (fun _ => beside_step (fun _ => rfl) (fun _ => Ends.get.bind (fun _ =>
          .pure _))))

theorem beside_sysEnvSetStatus : Ends (Beside R) (sysEnvSetStatus c a1 a2) := by
  refine .ite (.pure _) (beside_envid2env.bind (fun r => ?_))
  cases r with
  | error r => exact .pure _
  | ok e => exact beside_step (fun _ => rfl) (fun _ => .pure _)

/-- `sys_env_set_trapframe`, behind its first store. -/
theorem beside_setFrame (hnotes : AnyNotes R) {tf : U32} :
    Ends (Beside R) (do
      let eflags ← loadU32 c (tf + 56#32)
      storeU32 c (tf + 56#32) (eflags &&& ~~~flIoplMask)
      storeU16 c (tf + 52#32) (gdUt ||| 3#16)
      let frame ← loadTrapframe c tf
      Prog.modify (fun k => k.modifyEnv e (fun v => { v with envTf := frame }))
      pure (0 : Int)) :=
  (beside_loadU32 hnotes).bind (fun _ => (beside_storeBytes hnotes).bind (fun _ =>
    (beside_storeBytes hnotes).bind (fun _ =>
      ((beside_loadBytes hnotes).bind (fun _ => .pure _)).bind (fun _ =>
        beside_step (fun _ => rfl) (fun _ => .pure _)))))

theorem beside_sysEnvSetTrapframe (hnotes : AnyNotes R) :
    Ends (Beside R) (sysEnvSetTrapframe c a1 a2) := by
  refine beside_envid2env.bind (fun r => ?_)
  cases r with
  | error r => exact .pure _
  | ok e => exact (beside_storeBytes hnotes).bind (fun _ => beside_setFrame hnotes)

theorem beside_sysEnvSetPgfaultUpcall :
    Ends (Beside R) (sysEnvSetPgfaultUpcall c a1 a2) := by
  refine beside_envid2env.bind (fun r => ?_)
  cases r with
  | error r => exact .pure _
  | ok e => exact beside_step (fun _ => rfl) (fun _ => .pure _)

theorem beside_pageInsertEnv {pp : Nat} : Ends (Beside R) (pageInsertEnv c e pp a1 a2) :=
  beside_thePgdir.bind (fun _ => Ends.get.bind (fun _ => beside_onVm))

theorem beside_sysPageAlloc : Ends (Beside R) (sysPageAlloc c a1 a2 a3) := by
  refine beside_envid2env.bind (fun r => ?_)
  cases r with
  | error r => exact .pure _
  | ok e =>
      refine .ite (.pure _) (.ite (.pure _) (beside_onVm.bind (fun r => ?_)))
      cases r with
      | none => exact .pure _
      | some pg =>
          exact beside_pageInsertEnv.bind (fun _ =>
            .ite (beside_onVm.bind (fun _ => .pure _)) (.pure _))

theorem beside_sysPageMap : Ends (Beside R) (sysPageMap c a1 a2 a3 a4 a5) := by
  refine beside_envid2env.bind (fun r => ?_)
  cases r with
  | error r => exact .pure _
  | ok se =>
      refine beside_envid2env.bind (fun r => ?_)
      cases r with
      | error r => exact .pure _
      | ok de =>
          refine .ite (.pure _) (beside_thePgdir.bind (fun _ => beside_onVm.bind (fun r => ?_)))
          cases r with
          | none => exact .pure _
          | some found =>
              exact .ite (.pure _) (beside_onVm.bind (fun _ =>
                .ite (.pure _) beside_pageInsertEnv))

theorem beside_sysPageUnmap : Ends (Beside R) (sysPageUnmap c a1 a2) := by
  refine beside_envid2env.bind (fun r => ?_)
  cases r with
  | error r => exact .pure _
  | ok e =>
      exact .ite (.pure _) (beside_thePgdir.bind (fun _ => Ends.get.bind (fun _ =>
        beside_onVm.bind (fun _ => .pure _))))

theorem beside_ipcDeliver {rcv : Nat} : Ends (Beside R) (ipcDeliver cur rcv a1) :=
  beside_step (fun _ => rfl) (fun _ => .pure _)

theorem beside_sysIpcTrySend {io : Inputs} :
    Ends (Beside R) (sysIpcTrySend io c a1 a2 a3 a4) := by
  refine beside_envid2env.bind (fun r => ?_)
  cases r with
  | error r => exact .pure _
  | ok rcv =>
      refine Ends.get.bind (fun k => .ite (.pure _) (beside_theCurenv.bind (fun cur =>
        .ite (beside_thePgdir.bind (fun _ => beside_onVm.bind (fun found =>
          .ite (.pure _) ?_))) beside_ipcDeliver)))
      cases (found.map (fun r => k.vm.mem r.2.page r.2.idx)).or io.junk with
      | none => exact .stop
      | some pte =>
          refine .ite (.pure _) ?_
          cases found with
          | none => exact .pure _
          | some found =>
              exact .ite (.pure _) (.ite (beside_pageInsertEnv.bind (fun _ =>
                .ite (.pure _) (beside_step (fun _ => rfl) (fun _ =>
                  beside_ipcDeliver)))) beside_ipcDeliver)

theorem beside_sysIpcRecv : Ends (Beside R) (sysIpcRecv c a1) :=
  .ite (.pure _) (beside_theCurenv.bind (fun _ => beside_step (fun _ => rfl) (fun _ =>
    beside_schedYield.bind (fun _ => .pure _))))

theorem beside_e1000Transmit (hnotes : AnyNotes R) :
    Ends (Beside R) (e1000Transmit c a1 a2) := by
  refine Ends.get.bind (fun _ => .ite (.pure _) (beside_step (fun _ => rfl) (fun _ =>
    Ends.bind (Ends.forRange (fun i => ?_) 0 a2.toNat) (fun _ =>
      beside_step (fun _ => rfl) (fun _ => .pure _)))))
  exact (beside_loadByte hnotes).bind (fun _ => beside_last (fun _ => rfl))

/-- `e1000_receive`, behind its first store. -/
theorem beside_takePacket (hnotes : AnyNotes R) {addr len : U32} {packet : Nat → U8}
    {f : E1000 → E1000} :
    Ends (Beside R) (do
      let n ← loadU32 c len
      Prog.forRange 0 n.toNat (fun i => storeByte c (addr + BitVec.ofNat 32 i) (packet i))
      Prog.modify (fun k => k.modifyNic f)
      pure (0 : Int)) :=
  (beside_loadU32 hnotes).bind (fun _ =>
    (Ends.forRange (fun _ => beside_storeByte hnotes) _ _).bind (fun _ =>
      beside_step (fun _ => rfl) (fun _ => .pure _)))

theorem beside_e1000Receive (hnotes : AnyNotes R) :
    Ends (Beside R) (e1000Receive c a1 a2) :=
  Ends.get.bind (fun _ => .ite (.pure _) (.ite (.pure _) ((beside_storeBytes hnotes).bind (fun _ =>
    beside_takePacket hnotes))))

/-- The system calls that note the use of a user address. -/
def SyscallNo.Notes (s : SyscallNo) : Prop :=
  s = .cputs ∨ s = .envSetTrapframe ∨ s = .pktTrySend ∨ s = .pktRecv

theorem beside_syscallCase {io : Inputs} {s : SyscallNo} (hs : s.Notes → AnyNotes R) :
    Ends (Beside R) (syscallCase io c a1 a2 a3 a4 a5 s) := by
  cases s with
  | cputs => exact (beside_sysCputs (hs (Or.inl rfl))).bind (fun _ => .pure _)
  | cgetc => exact .pure _
  | getenvid => exact beside_theCurenv.bind (fun _ => Ends.get.bind (fun _ => .pure _))
  | envDestroy => exact beside_sysEnvDestroy
  | pageAlloc => exact beside_sysPageAlloc
  | pageMap => exact beside_sysPageMap
  | pageUnmap => exact beside_sysPageUnmap
  | exofork => exact beside_sysExofork
  | envSetStatus => exact beside_sysEnvSetStatus
  | envSetTrapframe => exact beside_sysEnvSetTrapframe (hs (Or.inr (Or.inl rfl)))
  | envSetPgfaultUpcall => exact beside_sysEnvSetPgfaultUpcall
  | yield => exact beside_schedYield.bind (fun _ => .pure _)
  | ipcTrySend => exact beside_sysIpcTrySend
  | ipcRecv => exact beside_sysIpcRecv
  | timeMsec => exact Ends.get.bind (fun _ => .pure _)
  | pktTrySend =>
      have hnotes := hs (Or.inr (Or.inr (Or.inl rfl)))
      exact beside_theCurenv.bind (fun _ => (beside_userMemAssert hnotes).bind (fun _ =>
        beside_e1000Transmit hnotes))
  | pktRecv => exact beside_e1000Receive (hs (Or.inr (Or.inr (Or.inr rfl))))

theorem beside_syscall (hnotes : AnyNotes R) {io : Inputs} {no : U32} :
    Ends (Beside R) (syscall io c no a1 a2 a3 a4 a5) := by
  unfold syscall
  cases syscallNo no with
  | none => exact .pure _
  | some s => exact beside_syscallCase (fun _ => hnotes)

/-! ## Traps -/

variable {io : Inputs} {tf : Trapframe}

theorem beside_pageFaultHandler (hnotes : AnyNotes R) :
    Ends (Beside R) (pageFaultHandler io c tf) :=
  .ite .stop (beside_theCurenv.bind (fun _ => Ends.get.bind (fun _ =>
    .ite ((beside_userMemAssert hnotes).bind (fun _ => (beside_storeBytes hnotes).bind (fun _ =>
      beside_step (fun _ => rfl) (fun _ => beside_envRun)))) beside_envDestroy)))

theorem beside_trapReturn : Ends (Beside R) (trapReturn c) := by
  refine Ends.get.bind (fun k => ?_)
  cases k.curenv c with
  | none => exact beside_schedYield
  | some cur => exact .ite beside_envRun beside_schedYield

/-- Any trap but a timer interrupt leaves the count alone. -/
theorem beside_trapDispatch (hnotes : AnyNotes R) (hno : tf.tfTrapno ≠ irqOffset + irqTimer) :
    Ends (Beside R) (trapDispatch io c tf) := by
  refine .ite (beside_pageFaultHandler hnotes) (.ite .stop (.ite ?_ (.ite (.pure _) ?_)))
  · exact beside_theCurenv.bind (fun _ => (beside_syscall hnotes).bind (fun _ =>
      beside_last (fun _ => rfl)))
  · rw [if_neg hno]
    exact .ite (.pure _) (.ite (.pure _) (.ite .stop (beside_theCurenv.bind (fun _ =>
      beside_envDestroy))))

theorem beside_trapFromUser : Ends (Beside R) (trapFromUser c tf) := by
  refine beside_lockKernel.bind (fun _ => beside_theCurenv.bind (fun cur =>
    Ends.get.bind (fun k => Ends.bind (Ends.when ?_)
      (fun _ => beside_last (fun _ => rfl)))))
  exact beside_envFree.bind (fun _ => beside_step (fun _ => rfl) (fun _ =>
    beside_schedYield))

theorem beside_trap (hnotes : AnyNotes R) (hno : tf.tfTrapno ≠ irqOffset + irqTimer) :
    Ends (Beside R) (trap io c tf) :=
  Ends.get.bind (fun _ => beside_step (fun _ => rfl) (fun _ =>
    (Ends.when beside_lockKernel).bind (fun _ => (Ends.when beside_trapFromUser).bind (fun _ =>
      (beside_trapDispatch hnotes hno).bind (fun _ => beside_trapReturn)))))

theorem beside_startSched : Ends (Beside R) (startSched c) :=
  beside_step (fun _ => rfl) (fun _ => beside_lockKernel.bind (fun _ =>
    beside_schedYield))

end Beside

end Jos

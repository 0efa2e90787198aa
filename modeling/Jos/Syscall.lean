import Jos.Sched
import Jos.UserMem

/-!
# `kern/syscall.c` and `kern/e1000.c`

The system calls, as processor `c` runs them for its `curenv`, and the two
driver functions behind them.  A function that returns an `int` has result
`Int`; a failed assertion on user memory destroys the environment and does not
return.

What the calls read from outside the machine is in `Inputs`: the result of
`cons_getc`, the faulting address, and what a read through a `pte_t *` gives
that no one has set (`none` if there is nothing there to read).

Messages the kernel prints of its own are left out; `console` has what
`sys_cputs` prints.
-/

namespace Jos

open Programs

/-- What one entry into the kernel reads from outside. -/
structure Inputs where
  getc : Int
  cr2 : U32
  junk : Option U32

/-- `curenv`, where the source follows it. -/
def theCurenv (c : Nat) : Prog Kernel Nat := do
  let k ← Prog.get
  match k.curenv c with
  | none => Prog.stop
  | some e => pure e

/-- `e->env_pgdir`, where the source follows it. -/
def thePgdir (e : Nat) : Prog Kernel Nat := do
  let k ← Prog.get
  match (k.envs e).envPgdir with
  | none => Prog.stop
  | some pgdir => pure pgdir

/-- `user_mem_assert`. -/
def userMemAssert (c e : Nat) (va len perm : U32) : Prog Kernel Unit := do
  let pgdir ← thePgdir e
  let r ← onVm (userMemCheck pgdir va len (perm ||| pteU))
  if r < 0 then
    envDestroy c e
  else
    Prog.modify (fun k => k.log (.checked va len (perm ||| pteU)))

/-! ## The console -/

def Kernel.putch (k : Kernel) (ch : U8) : Kernel :=
  { k with console := ch :: k.console }

/-- The `%.*s` loop of `vprintfmt`: a character is read before the precision
is looked at, and a negative precision is none.  After `2 ^ 32` characters
without an end it has gone round the address space and goes on for ever. -/
def putString (c : Nat) : Nat → U32 → Int → Prog Kernel Unit
  | 0, _, _ => Prog.stop
  | fuel + 1, p, precision => do
      let ch ← loadByte c p
      if ch ≠ 0#8 ∧ (precision < 0 ∨ precision - 1 ≥ 0) then do
        Prog.modify (fun k => k.putch ch)
        putString c fuel (p + 1#32)
          (if precision < 0 then precision else precision - 1)
      else
        pure ()

/-- What `%.*s` prints for a null pointer. -/
def nullString : List U8 :=
  [0x28#8, 0x6e#8, 0x75#8, 0x6c#8, 0x6c#8, 0x29#8]

def putNull (precision : Int) : Prog Kernel Unit :=
  Prog.modify (fun k =>
    (if precision < 0 then nullString
      else nullString.take precision.toNat).foldl Kernel.putch k)

/-- `sys_cputs`. -/
def sysCputs (c : Nat) (s len : U32) : Prog Kernel Unit := do
  let cur ← theCurenv c
  userMemAssert c cur s len (pteU ||| pteP)
  if s = 0#32 then
    putNull len.toInt
  else
    putString c (2 ^ 32) s len.toInt

/-- `sys_cgetc`. -/
def sysCgetc (io : Inputs) : Prog Kernel Int := pure io.getc

/-! ## Environments -/

/-- `sys_getenvid`. -/
def sysGetenvid (c : Nat) : Prog Kernel Int := do
  let cur ← theCurenv c
  let k ← Prog.get
  pure (k.envs cur).envId.toInt

/-- `sys_env_destroy`. -/
def sysEnvDestroy (c : Nat) (envid : U32) : Prog Kernel Int := do
  match ← envid2env c envid true with
  | .error r => pure r
  | .ok e => do
      envDestroy c e
      pure 0

/-- `sys_yield`. -/
def sysYield (c : Nat) : Prog Kernel Unit := schedYield c

def Trapframe.setEax (tf : Trapframe) (w : U32) : Trapframe :=
  { tf with tfRegs := { tf.tfRegs with regEax := w } }

/-- `sys_exofork`. -/
def sysExofork (c : Nat) : Prog Kernel Int := do
  let cur ← theCurenv c
  let k ← Prog.get
  match ← envAlloc (k.envs cur).envId with
  | .error r => pure r
  | .ok e => do
      Prog.modify (fun k =>
        k.modifyEnv e (fun v => { v with envTf := (k.envs cur).envTf }))
      Prog.modify (fun k => k.setStatus e .notRunnable)
      Prog.modify (fun k =>
        k.modifyEnv e (fun v => { v with envTf := v.envTf.setEax 0#32 }))
      let k ← Prog.get
      pure (k.envs e).envId.toInt

/-- `sys_env_set_status`. -/
def sysEnvSetStatus (c : Nat) (envid status : U32) : Prog Kernel Int := do
  if status ≠ EnvStatus.notRunnable.code ∧ status ≠ EnvStatus.runnable.code then
    pure (-eInval)
  else
    match ← envid2env c envid true with
    | .error r => pure r
    | .ok e => do
        Prog.modify (fun k => k.setStatus e
          (if status = EnvStatus.runnable.code then .runnable
            else .notRunnable))
        pure 0

/-- The trap frame laid out in words at consecutive addresses. -/
def trapframeOfWords (w : Nat → U32) : Trapframe :=
  { tfRegs :=
      { regEdi := w 0, regEsi := w 1, regEbp := w 2, regOesp := w 3,
        regEbx := w 4, regEdx := w 5, regEcx := w 6, regEax := w 7 }
    tfEs := (w 8).setWidth 16
    tfPadding1 := (w 8 >>> 16).setWidth 16
    tfDs := (w 9).setWidth 16
    tfPadding2 := (w 9 >>> 16).setWidth 16
    tfTrapno := w 10
    tfErr := w 11
    tfEip := w 12
    tfCs := (w 13).setWidth 16
    tfPadding3 := (w 13 >>> 16).setWidth 16
    tfEflags := w 14
    tfEsp := w 15
    tfSs := (w 16).setWidth 16
    tfPadding4 := (w 16 >>> 16).setWidth 16 }

/-- `*tf`, for a user address `tf`. -/
def loadTrapframe (c : Nat) (tf : U32) : Prog Kernel Trapframe := do
  let bs ← loadBytes c tf 68
  pure (trapframeOfWords (fun i => u32OfBytes ((bs.drop (4 * i)).take 4)))

/-- `sys_env_set_trapframe`. -/
def sysEnvSetTrapframe (c : Nat) (envid tf : U32) : Prog Kernel Int := do
  match ← envid2env c envid true with
  | .error r => pure r
  | .ok e => do
      storeU32 c (tf + 56#32) flIf
      let eflags ← loadU32 c (tf + 56#32)
      storeU32 c (tf + 56#32) (eflags &&& ~~~flIoplMask)
      storeU16 c (tf + 52#32) (gdUt ||| 3#16)
      let frame ← loadTrapframe c tf
      Prog.modify (fun k => k.modifyEnv e (fun v => { v with envTf := frame }))
      pure 0

/-- `sys_env_set_pgfault_upcall`. -/
def sysEnvSetPgfaultUpcall (c : Nat) (envid func : U32) : Prog Kernel Int := do
  match ← envid2env c envid true with
  | .error r => pure r
  | .ok e => do
      Prog.modify (fun k =>
        k.modifyEnv e (fun v => { v with envPgfaultUpcall := func }))
      pure 0

/-! ## Pages -/

/-- `va >= UTOP`, or `va` is not page-aligned. -/
def BadVa (va : U32) : Prop := utop ≤ va ∨ roundDown va pgsize ≠ va

instance (va : U32) : Decidable (BadVa va) :=
  inferInstanceAs (Decidable (_ ∨ _))

/-- The flags that a permission word must have. -/
def permFlags : U32 := pteU ||| pteP

/-- `page_insert` into the address space of `e`. -/
def pageInsertEnv (c e pp : Nat) (va perm : U32) : Prog Kernel Int := do
  let pgdir ← thePgdir e
  let k ← Prog.get
  onVm (pageInsert (k.thisCpu c) pgdir pp va perm)

/-- `sys_page_alloc`. -/
def sysPageAlloc (c : Nat) (envid va perm : U32) : Prog Kernel Int := do
  match ← envid2env c envid true with
  | .error r => pure r
  | .ok e =>
      if BadVa va then pure (-eInval)
      else if perm &&& permFlags ≠ permFlags then pure (-eInval)
      else do
        match ← onVm (pageAlloc true) with
        | none => pure (-eNoMem)
        | some pg => do
            let r ← pageInsertEnv c e pg va perm
            if r ≠ 0 then do
              onVm (pageFree pg)
              pure r
            else
              pure 0

/-- `sys_page_map`. -/
def sysPageMap (c : Nat) (srcenvid srcva dstenvid dstva perm : U32) :
    Prog Kernel Int := do
  match ← envid2env c srcenvid true with
  | .error r => pure r
  | .ok se =>
      match ← envid2env c dstenvid true with
      | .error r => pure r
      | .ok de =>
          if BadVa srcva ∨ BadVa dstva then pure (-eInval)
          else do
            let pgdir ← thePgdir se
            match ← onVm (pageLookup pgdir srcva) with
            | none => pure (-eInval)
            | some (pg, pte) =>
                if perm &&& permFlags ≠ permFlags then pure (-eInval)
                else do
                  let w ← onVm (readPte pte)
                  if ¬ HasFlag w pteW ∧ HasFlag perm pteW then pure (-eInval)
                  else pageInsertEnv c de pg dstva perm

/-- `sys_page_unmap`. -/
def sysPageUnmap (c : Nat) (envid va : U32) : Prog Kernel Int := do
  match ← envid2env c envid true with
  | .error r => pure r
  | .ok e =>
      if BadVa va then pure (-eInval)
      else do
        let pgdir ← thePgdir e
        let k ← Prog.get
        onVm (pageRemove (k.thisCpu c) pgdir va)
        pure 0

/-! ## Messages -/

/-- The receiver takes the message and is runnable again. -/
def Env.deliver (v : Env) (src value : U32) : Env :=
  { v with
    envIpcRecving := false
    envIpcFrom := src
    envIpcValue := value
    envStatus := .runnable
    envTf := v.envTf.setEax 0#32 }

/-- The end of `sys_ipc_try_send`: the message is delivered. -/
def ipcDeliver (cur rcv : Nat) (value : U32) : Prog Kernel Int := do
  Prog.modify (fun k =>
    k.modifyEnv rcv (fun v => v.deliver (k.envs cur).envId value))
  pure 0

/-- `sys_ipc_try_send`.  The flags of the source page are looked at before it
is known whether there is one; with none, the pointer to the entry is unset. -/
def sysIpcTrySend (io : Inputs) (c : Nat) (envid value srcva perm : U32) :
    Prog Kernel Int := do
  match ← envid2env c envid false with
  | .error r => pure r
  | .ok rcv => do
      let k ← Prog.get
      if (k.envs rcv).envIpcRecving = false then pure (-eIpcNotRecv)
      else do
        let cur ← theCurenv c
        if srcva < utop then do
          let pgdir ← thePgdir cur
          let found ← onVm (pageLookup pgdir srcva)
          if srcva ≠ roundDown srcva pgsize then pure (-eInval)
          else
            -- `*pte`
            match (found.map (fun r => k.vm.mem r.2.page r.2.idx)).or io.junk with
            | none => Prog.stop
            | some pte =>
                if pte &&& perm &&& 7#32 ≠ perm &&& 7#32 then pure (-eInval)
                else
                  match found with
                  | none => pure (-eInval)
                  | some (pg, _) =>
                      if HasFlag perm pteW ∧ ¬ HasFlag pte pteW then
                        pure (-eInval)
                      else if (k.envs rcv).envIpcDstva < utop then do
                        let r ← pageInsertEnv c rcv pg
                          (k.envs rcv).envIpcDstva perm
                        if r ≠ 0 then pure r
                        else do
                          Prog.modify (fun k => k.modifyEnv rcv
                            (fun v => { v with envIpcPerm := perm }))
                          ipcDeliver cur rcv value
                      else
                        ipcDeliver cur rcv value
        else
          ipcDeliver cur rcv value

/-- `sys_ipc_recv`; on success it does not return. -/
def sysIpcRecv (c : Nat) (dstva : U32) : Prog Kernel Int := do
  if dstva < utop ∧ dstva ≠ roundDown dstva pgsize then pure (-eInval)
  else do
    let cur ← theCurenv c
    Prog.modify (fun k => k.modifyEnv cur (fun v =>
      { v with
        envIpcRecving := true
        envStatus := .notRunnable
        envIpcDstva := dstva }))
    sysYield c
    pure 0

/-- `sys_time_msec`. -/
def sysTimeMsec : Prog Kernel Int := do
  let k ← Prog.get
  pure (k.ticks * 10#32).toInt

/-! ## The network card -/

/-- `TXDESCS`. -/
def txdescs : Nat := 32

/-- `TX_PKT_SIZE`. -/
def txPktSize : Nat := 1518

/-- `RXDESCS`. -/
def rxdescs : Nat := 128

/-- `RX_PKT_SIZE`. -/
def rxPktSize : Nat := 1518

/-- `E1000_TXD_STAT_DD`, and `E1000_RXD_STAT_DD`. -/
def statDd : U8 := 0x01#8

/-- `E1000_TXD_CMD_EOP | E1000_TXD_CMD_RS`. -/
def txdCmd : U8 := 0x01#8 ||| 0x08#8

/-- `E_TRANSMIT_RETRY`. -/
def eTransmitRetry : Int := 1

/-- `E_RECEIVE_RETRY`. -/
def eReceiveRetry : Int := 2

def Kernel.modifyNic (k : Kernel) (f : E1000 → E1000) : Kernel :=
  { k with e1000 := f k.e1000 }

/-- `e1000_transmit`. -/
def e1000Transmit (c : Nat) (data len : U32) : Prog Kernel Int := do
  let k ← Prog.get
  let current := k.e1000.tdt
  if (k.e1000.txDescArray current).status &&& statDd = 0#8 then
    pure (-eTransmitRetry)
  else do
    Prog.modify (fun k => k.modifyNic (fun n =>
      { n with
        txDescArray := Function.update n.txDescArray current
          { length := len.setWidth 16
            cmd := (n.txDescArray current).cmd ||| txdCmd
            status := (n.txDescArray current).status &&& ~~~statDd } }))
    -- memcpy(tx_buffer_array[current], data, len)
    Prog.forRange 0 len.toNat (fun i => do
      let b ← loadByte c (data + BitVec.ofNat 32 i)
      Prog.modify (fun k => k.modifyNic (fun n =>
        { n with
          txBufferArray :=
            Function.update n.txBufferArray (current * txPktSize + i) b })))
    Prog.modify (fun k => k.modifyNic (fun n =>
      { n with tdt := (current + 1) % txdescs }))
    pure 0

/-- `e1000_receive`. -/
def e1000Receive (c : Nat) (addr len : U32) : Prog Kernel Int := do
  let k ← Prog.get
  let next := k.e1000.next
  let desc := k.e1000.rxDescArray next
  if desc.status &&& statDd = 0#8 then pure (-eReceiveRetry)
  else if desc.errors ≠ 0#8 then pure (-eReceiveRetry)
  else do
    storeU32 c len (desc.length.setWidth 32)
    let n ← loadU32 c len
    -- memcpy(addr, rx_buffer_array[next], *len)
    Prog.forRange 0 n.toNat (fun i =>
      storeByte c (addr + BitVec.ofNat 32 i)
        (k.e1000.rxBufferArray (next * rxPktSize + i)))
    Prog.modify (fun k => k.modifyNic (fun n =>
      { n with
        rdt := (n.rdt + 1) % rxdescs
        next := (next + 1) % rxdescs }))
    pure 0

/-- `sys_pkt_try_send`. -/
def sysPktTrySend (c : Nat) (buf len : U32) : Prog Kernel Int := do
  let cur ← theCurenv c
  userMemAssert c cur buf len pteU
  e1000Transmit c buf len

/-- `sys_pkt_recv`. -/
def sysPktRecv (c : Nat) (addr len : U32) : Prog Kernel Int :=
  e1000Receive c addr len

/-! ## Dispatch -/

/-- The system calls of `inc/syscall.h`, in order. -/
inductive SyscallNo where
  | cputs
  | cgetc
  | getenvid
  | envDestroy
  | pageAlloc
  | pageMap
  | pageUnmap
  | exofork
  | envSetStatus
  | envSetTrapframe
  | envSetPgfaultUpcall
  | yield
  | ipcTrySend
  | ipcRecv
  | timeMsec
  | pktTrySend
  | pktRecv
deriving DecidableEq

/-- The call that a number in `%eax` names. -/
def syscallNo (no : U32) : Option SyscallNo :=
  [SyscallNo.cputs, .cgetc, .getenvid, .envDestroy, .pageAlloc, .pageMap,
    .pageUnmap, .exofork, .envSetStatus, .envSetTrapframe,
    .envSetPgfaultUpcall, .yield, .ipcTrySend, .ipcRecv, .timeMsec,
    .pktTrySend, .pktRecv][no.toNat]?

/-- The cases of `syscall`. -/
def syscallCase (io : Inputs) (c : Nat) (a1 a2 a3 a4 a5 : U32) :
    SyscallNo → Prog Kernel Int
  | .cputs => do
      sysCputs c a1 a2
      pure 0
  | .cgetc => sysCgetc io
  | .getenvid => sysGetenvid c
  | .envDestroy => sysEnvDestroy c a1
  | .yield => do
      sysYield c
      pure 0
  | .pageAlloc => sysPageAlloc c a1 a2 a3
  | .pageMap => sysPageMap c a1 a2 a3 a4 a5
  | .pageUnmap => sysPageUnmap c a1 a2
  | .exofork => sysExofork c
  | .envSetStatus => sysEnvSetStatus c a1 a2
  | .envSetPgfaultUpcall => sysEnvSetPgfaultUpcall c a1 a2
  | .ipcTrySend => sysIpcTrySend io c a1 a2 a3 a4
  | .ipcRecv => sysIpcRecv c a1
  | .envSetTrapframe => sysEnvSetTrapframe c a1 a2
  | .timeMsec => sysTimeMsec
  | .pktTrySend => sysPktTrySend c a1 a2
  | .pktRecv => sysPktRecv c a1 a2

/-- `syscall`. -/
def syscall (io : Inputs) (c : Nat) (no a1 a2 a3 a4 a5 : U32) :
    Prog Kernel Int :=
  match syscallNo no with
  | none => pure (-eInval)
  | some s => syscallCase io c a1 a2 a3 a4 a5 s

end Jos

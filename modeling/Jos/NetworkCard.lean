import Jos.Lib.Bytes
import Jos.Lib.Keeps
import Jos.Lib.Ring
import Jos.Syscall

/-!
# The network card

The card and the driver of `kern/e1000.c` share two rings.  The driver moves the
tails and the card the heads; a descriptor is the card's from the head up to but
excluding the tail.  Descriptor `i` points to buffer `i` of its array, which the
driver never changes.

What the driver does to the rings is `E1000.transmit` and `E1000.receive`, which are
what the programs `e1000Transmit` and `e1000Receive` of the kernel do.
-/

namespace Jos

open Programs Bytes

/-! ## Driver -/

/-- `e1000_transmit` of the bytes of a packet; `none` is `-E_TRANSMIT_RETRY`, and then
nothing has changed. -/
def E1000.transmit (n : E1000) (data : List U8) : Option E1000 :=
  if (n.txDescArray n.tdt).status &&& statDd = 0#8 then none
  else some
    { n with
      txDescArray := Function.update n.txDescArray n.tdt
        { length := BitVec.ofNat 16 data.length
          cmd := (n.txDescArray n.tdt).cmd ||| txdCmd
          status := (n.txDescArray n.tdt).status &&& ~~~statDd }
      txBufferArray := setBytes n.txBufferArray (n.tdt * txPktSize) data
      tdt := (n.tdt + 1) % txdescs }

/-- The packet of a descriptor for sending. -/
def E1000.packetOf (n : E1000) (i : Nat) : List U8 :=
  bytesAt n.txBufferArray (i * txPktSize) (n.txDescArray i).length.toNat

/-- `e1000_receive` and the packet that it returns; `none` is `-E_RECEIVE_RETRY`, and
then nothing has changed. -/
def E1000.receive (n : E1000) : Option (List U8 × E1000) :=
  if (n.rxDescArray n.next).status &&& statDd = 0#8 then none
  else if (n.rxDescArray n.next).errors ≠ 0#8 then none
  else some
    (bytesAt n.rxBufferArray (n.next * rxPktSize) (n.rxDescArray n.next).length.toNat,
      { n with
        rdt := (n.rdt + 1) % rxdescs
        next := (n.next + 1) % rxdescs })

/-! ## Card -/

/-- The rings and the other registers of the card for them. -/
structure Nic extends E1000 where
  tdlen : U32
  rdlen : U32
  tdh : Nat
  rdh : Nat

/-- A packet that comes in.  Longer ones are discarded by the card, which is not
programmed to take them. -/
structure Packet where
  bytes : List U8
  errors : U8
  fits : bytes.length ≤ rxPktSize

/-- The number of descriptors of a ring, from the register with its length in bytes, of
which bits 7 to 19 count. -/
def ringOf (reg : U32) : Nat := (reg &&& 0x000FFF80#32).toNat / 16

/-- A store to the field `len` of `struct e1000_tdlen` or `struct e1000_rdlen`. -/
def setLen (reg len : U32) : U32 :=
  (reg &&& ~~~0x000FFF80#32) ||| ((len &&& 0x1FFF#32) <<< 7)

namespace Nic

/-- `e1000_transmit_init`. -/
def transmitInit (n : Nic) : Nic :=
  { n with
    txDescArray := fun i =>
      if i < txdescs then
        { n.txDescArray i with
          cmd := 0#8
          status := (n.txDescArray i).status ||| statDd }
      else n.txDescArray i
    tdlen := setLen n.tdlen (BitVec.ofNat 32 txdescs)
    tdh := 0
    tdt := 0 }

/-- `e1000_receive_init`. -/
def receiveInit (n : Nic) : Nic :=
  { n with
    rdlen := setLen n.rdlen (BitVec.ofNat 32 rxdescs)
    rdh := 0
    rdt := rxdescs - 1 }

/-- The number of descriptors that wait in a ring of `ring` descriptors. -/
def pendingCount (n : Nic) (ring : Nat) : Nat := (n.tdt + ring - n.tdh) % ring

/-- Descriptor `i` is one of them. -/
def Owns (n : Nic) (ring i : Nat) : Prop := ∃ j, j < n.pendingCount ring ∧ i = (n.tdh + j) % ring

/-- The packets that the card is going to send. -/
def pending (n : Nic) (ring : Nat) : List (List U8) :=
  Ring.items n.packetOf ring n.tdh (n.pendingCount ring)

/-- The card sends the packet at the head, if there is one. -/
def send (n : Nic) (ring : Nat) : Option (List U8 × Nic) :=
  if n.tdh = n.tdt then none
  else some
    (n.packetOf n.tdh,
      { n with
        txDescArray := Function.update n.txDescArray n.tdh
          { n.txDescArray n.tdh with status := (n.txDescArray n.tdh).status ||| statDd }
        tdh := (n.tdh + 1) % ring })

/-- The card stores a packet at the head, with `DD` and `EOP`, if there is room. -/
def store (n : Nic) (ring : Nat) (p : Packet) : Option Nic :=
  if n.rdh = n.rdt then none
  else some
    { n with
      rxDescArray := Function.update n.rxDescArray n.rdh
        { length := BitVec.ofNat 16 p.bytes.length
          status := 0x03#8
          errors := p.errors }
      rxBufferArray := setBytes n.rxBufferArray (n.rdh * rxPktSize) p.bytes
      rdh := (n.rdh + 1) % ring }

/-- The arrays and the registers at boot. -/
def reset : Nic where
  tdt := 0
  txDescArray := fun _ => ⟨0#16, 0#8, 0#8⟩
  txBufferArray := fun _ => 0#8
  rdt := 0
  next := 0
  rxDescArray := fun _ => ⟨0#16, 0#8, 0#8⟩
  rxBufferArray := fun _ => 0#8
  tdlen := 0#32
  rdlen := 0#32
  tdh := 0
  rdh := 0

end Nic

/-! ## What each of them does -/

section Cases

variable {n : Nic} {e e' : E1000} {data : List U8} {ring : Nat}

/-- `e1000_transmit` took the packet. -/
theorem transmit_cases (h : e.transmit data = some e') :
    (e.txDescArray e.tdt).status &&& statDd ≠ 0#8 ∧ e' =
      { e with
        txDescArray := Function.update e.txDescArray e.tdt
          { length := BitVec.ofNat 16 data.length
            cmd := (e.txDescArray e.tdt).cmd ||| txdCmd
            status := (e.txDescArray e.tdt).status &&& ~~~statDd }
        txBufferArray := setBytes e.txBufferArray (e.tdt * txPktSize) data
        tdt := (e.tdt + 1) % txdescs } := by
  unfold E1000.transmit at h
  split at h
  · cases h
  · exact ⟨by assumption, (Option.some.inj h).symm⟩

/-- The card sends the packet that has waited longest. -/
theorem send_cases {out : List U8 × Nic} (h : n.send ring = some out) :
    n.tdh ≠ n.tdt ∧ out = (n.packetOf n.tdh,
      { n with
        txDescArray := Function.update n.txDescArray n.tdh
          { n.txDescArray n.tdh with status := (n.txDescArray n.tdh).status ||| statDd }
        tdh := (n.tdh + 1) % ring }) := by
  unfold Nic.send at h
  split at h
  · cases h
  · exact ⟨by assumption, (Option.some.inj h).symm⟩

/-- `e1000_receive` returns a packet. -/
theorem receive_cases {out : List U8 × E1000} (h : e.receive = some out) :
    (e.rxDescArray e.next).status &&& statDd ≠ 0#8 ∧ (e.rxDescArray e.next).errors = 0#8 ∧
    out = (bytesAt e.rxBufferArray (e.next * rxPktSize) (e.rxDescArray e.next).length.toNat,
      { e with
        rdt := (e.rdt + 1) % rxdescs
        next := (e.next + 1) % rxdescs }) := by
  unfold E1000.receive at h
  split at h
  · cases h
  · split at h
    · cases h
    · rename_i hfull hgood
      exact ⟨hfull, Decidable.not_not.mp hgood, (Option.some.inj h).symm⟩

/-- The card stores a packet. -/
theorem store_cases {p : Packet} {n' : Nic} (h : n.store ring p = some n') :
    n.rdh ≠ n.rdt ∧ n' =
      { n with
        rxDescArray := Function.update n.rxDescArray n.rdh
          { length := BitVec.ofNat 16 p.bytes.length
            status := 0x03#8
            errors := p.errors }
        rxBufferArray := setBytes n.rxBufferArray (n.rdh * rxPktSize) p.bytes
        rdh := (n.rdh + 1) % ring } := by
  unfold Nic.store at h
  split at h
  · cases h
  · exact ⟨by assumption, (Option.some.inj h).symm⟩

end Cases

/-! ## Runs -/

/-- What happens to the rings. -/
inductive NicEvent where
  | transmit (data : List U8)
  | send
  | receive
  | arrive (p : Packet)

/-- The rings, the packets that were accepted, sent, stored and returned, and the
descriptors that the card has used. -/
structure NicRun where
  nic : Nic
  accepted : List (List U8)
  sent : List (List U8)
  stored : List Packet
  returned : List (List U8)
  txUsed : List Nat
  rxUsed : List Nat

namespace NicRun

/-- After `e1000_transmit_init` and `e1000_receive_init`. -/
def start (n : Nic) : NicRun := ⟨n.transmitInit.receiveInit, [], [], [], [], [], []⟩

/-- What a call or the card does, with rings of `tx` and `rx` descriptors. -/
def step (tx rx : Nat) (r : NicRun) : NicEvent → NicRun
  | .transmit data =>
      match r.nic.toE1000.transmit data with
      | none => r
      | some n =>
          { r with
            nic := { r.nic with toE1000 := n }
            accepted := r.accepted ++ [data] }
  | .send =>
      match r.nic.send tx with
      | none => r
      | some (p, n) =>
          { r with
            nic := n
            sent := r.sent ++ [p]
            txUsed := r.txUsed ++ [r.nic.tdh] }
  | .receive =>
      match r.nic.toE1000.receive with
      | none => r
      | some (p, n) =>
          { r with
            nic := { r.nic with toE1000 := n }
            returned := r.returned ++ [p] }
  | .arrive p =>
      match r.nic.store rx p with
      | none => r
      | some n =>
          { r with
            nic := n
            stored := r.stored ++ [p]
            rxUsed := r.rxUsed ++ [r.nic.rdh] }

/-- The state after some events. -/
def run (tx rx : Nat) (r : NicRun) (es : List NicEvent) : NicRun := es.foldl (step tx rx) r

/-- The states of the runs whose events meet a condition. -/
inductive Reached (tx rx : Nat) (n : Nic) (ok : NicRun → NicEvent → Prop) : NicRun → Prop where
  | start : Reached tx rx n ok (start n)
  | step {r : NicRun} {ev : NicEvent} :
      Reached tx rx n ok r → ok r ev → Reached tx rx n ok (r.step tx rx ev)

end NicRun

/-! ## The programs of the kernel -/

section Kernel

variable {c : Nat} {va len : U32} {k : Kernel} {e : E1000}

theorem log_nic {ev : MemEvent} :
    Keeps (fun k => k.e1000 = e) (Prog.modify (fun k : Kernel => k.log ev)) := fun _ h => h

/-- Loads and stores of user memory do not touch the rings. -/
theorem loadByte_nic : Keeps (fun k => k.e1000 = e) (loadByte c va) := by
  refine log_nic.bind (fun _ k hk => ?_)
  unfold peekByte
  rw [wp_get_bind]
  split
  · trivial
  · exact hk

theorem storeByte_nic {b : U8} : Keeps (fun k => k.e1000 = e) (storeByte c va b) := by
  refine log_nic.bind (fun _ k hk => ?_)
  unfold pokeByte
  rw [wp_get_bind]
  split
  · trivial
  · exact hk

theorem loadBytes_nic (n : Nat) : ∀ va, Keeps (fun k => k.e1000 = e) (loadBytes c va n) := by
  induction n with
  | zero => exact fun _ => Keeps.pure _
  | succ n ih =>
      exact fun _ => loadByte_nic.bind (fun _ => (ih _).bind (fun _ => Keeps.pure _))

theorem storeBytes_nic (bs : List U8) :
    ∀ va, Keeps (fun k => k.e1000 = e) (storeBytes c va bs) := by
  induction bs with
  | nil => exact fun _ => Keeps.pure _
  | cons b bs ih => exact fun _ => storeByte_nic.bind (fun _ => ih _)

/-- The loop of `memcpy` into a buffer for sending. -/
theorem copyIn_nic {base n : Nat} : wp (Prog.forRange 0 n (fun i => do
      let b ← loadByte c (va + BitVec.ofNat 32 i)
      Prog.modify (fun k => k.modifyNic (fun n =>
        { n with txBufferArray := Function.update n.txBufferArray (base + i) b }))))
    (Partial (fun _ k' => ∃ data : List U8, data.length = n ∧ k'.e1000 =
      { k.e1000 with txBufferArray := setBytes k.e1000.txBufferArray base data })
      (fun _ => False)) k := by
  -- after `i` turns, the first `i` bytes are in the buffer
  refine wp_forRange (fun i k' => ∃ data : List U8, data.length = i ∧ k'.e1000 =
      { k.e1000 with txBufferArray := setBytes k.e1000.txBufferArray base data })
    0 n (fun i k₁ _ _ h => ?_) (fun k₁ h => ?_) ⟨[], rfl, ?_⟩
  · obtain ⟨data, rfl, hk₁⟩ := h
    refine partial_bind (loadByte_nic k₁ hk₁) (fun b k₂ hk₂ => ?_) (fun _ h => h)
    refine ⟨data ++ [b], by simp, ?_⟩
    change E1000.mk _ _ _ _ _ _ _ = _
    rw [hk₂, setBytes_push]
  · rwa [Nat.zero_add] at h
  · rw [setBytes_nil]

/-- The program for sending does to the rings what `E1000.transmit` does, with the bytes
that it reads. -/
theorem e1000Transmit_transmits : wp (e1000Transmit c va len)
    (Partial (fun r k' => ∃ data, data.length = len.toNat ∧
      match k.e1000.transmit data with
      | none => r = -eTransmitRetry ∧ k'.e1000 = k.e1000
      | some n => r = 0 ∧ k'.e1000 = n) (fun _ => False)) k := by
  unfold e1000Transmit E1000.transmit
  rw [wp_get_bind]
  refine wp_ite (fun hbusy => ?_) (fun hfree => ?_)
  · refine ⟨List.replicate len.toNat 0#8, List.length_replicate, ?_⟩
    rw [if_pos hbusy]
    exact ⟨rfl, rfl⟩
  rw [wp_modify_bind]
  refine partial_bind copyIn_nic (fun _ k₁ h => ?_) (fun _ h => h)
  obtain ⟨data, hlen, hk₁⟩ := h
  refine ⟨data, hlen, ?_⟩
  rw [if_neg hfree]
  refine ⟨rfl, ?_⟩
  change E1000.mk _ _ _ _ _ _ _ = _
  rw [hk₁, hlen, BitVec.ofNat_toNat]
  rfl

/-- So does the program for receiving with `E1000.receive`. -/
theorem e1000Receive_receives : wp (e1000Receive c va len)
    (Partial (fun r k' =>
      match k.e1000.receive with
      | none => r = -eReceiveRetry ∧ k'.e1000 = k.e1000
      | some (_, n) => r = 0 ∧ k'.e1000 = n) (fun _ => False)) k := by
  unfold e1000Receive E1000.receive
  rw [wp_get_bind]
  refine wp_ite (fun hempty => ?_) (fun hfull => ?_)
  · rw [if_pos hempty]
    exact ⟨rfl, rfl⟩
  rw [if_neg hfull]
  refine wp_ite (fun hbad => ?_) (fun hgood => ?_)
  · rw [if_pos hbad]
    exact ⟨rfl, rfl⟩
  rw [if_neg hgood]
  refine partial_bind (storeBytes_nic _ _ k rfl) (fun _ k₁ hk₁ => ?_) (fun _ h => h)
  refine partial_bind (((loadBytes_nic 4 _).bind (fun _ => Keeps.pure _)) k₁ hk₁)
    (fun n k₂ hk₂ => ?_) (fun _ h => h)
  refine partial_bind (Keeps.forRange (fun _ => storeByte_nic) 0 _ k₂ hk₂)
    (fun _ k₃ hk₃ => ?_) (fun _ h => h)
  refine ⟨rfl, ?_⟩
  change E1000.mk _ _ _ _ _ _ _ = _
  rw [hk₃]

end Kernel

end Jos

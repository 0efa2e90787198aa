import Jos.NetworkCard

/-!
# No packet is lost on the way to the card

The driver takes a descriptor with `DD` to be free; to the card, a ring whose head is
the tail is empty.  The two agree as long as the driver does not fill the last free
descriptor: then the packets that were accepted and not sent are those from the head
to the tail.
-/

namespace Jos

open Bytes Ring

/-- A call of `e1000_transmit` that takes a descriptor leaves another one free, and the
packet fits its buffer. -/
def TxRoom (r : NicRun) : NicEvent → Prop
  | .transmit data =>
      (r.nic.txDescArray r.nic.tdt).status &&& statDd ≠ 0#8 →
        (r.nic.tdt + 1) % txdescs ≠ r.nic.tdh ∧ data.length ≤ txPktSize
  | _ => True

/-- What the driver and the card agree on. -/
structure TxSound (r : NicRun) : Prop where
  accepted : r.accepted = r.sent ++ r.nic.pending txdescs
  kept : ∀ data n, TxRoom r (.transmit data) → r.nic.toE1000.transmit data = some n →
    ∀ i, r.nic.Owns txdescs i → n.txDescArray i = r.nic.txDescArray i ∧
      n.packetOf i = r.nic.packetOf i

/-- Descriptor `i` has a packet for the card. -/
def E1000.Carries (n : E1000) (i : Nat) (p : List U8) : Prop :=
  n.packetOf i = p ∧ p.length ≤ txPktSize

/-- The packets `q` wait in the ring. -/
structure TxInv (r : NicRun) (q : List (List U8)) : Prop where
  accepted : r.accepted = r.sent ++ q
  tdh : r.nic.tdh = r.sent.length % txdescs
  tdt : r.nic.tdt = r.accepted.length % txdescs
  room : q.length < txdescs
  carries : Span r.nic.Carries txdescs r.sent.length q

section Steps

variable {r : NicRun} {q : List (List U8)} {data p : List U8} {n : Nic} {e e' : E1000}
  {rx : Nat}

theorem TxInv.start : TxInv (.start n) [] where
  accepted := rfl
  tdh := rfl
  tdt := rfl
  room := by decide
  carries := trivial

/-- The number of packets that wait can be read off the registers. -/
theorem TxInv.pendingCount (h : TxInv r q) : r.nic.pendingCount txdescs = q.length := by
  have hroom := h.room
  unfold Nic.pendingCount
  rw [h.tdh, h.tdt, h.accepted, List.length_append]
  unfold txdescs at *
  omega

theorem TxInv.pending (h : TxInv r q) : r.nic.pending txdescs = q := by
  have hspan : Span (fun c x => r.nic.packetOf c = x) txdescs r.nic.tdh q := by
    refine (h.carries.congr (fun _ _ _ hx => hx.1)).rebase ?_
    rw [h.tdh, Nat.mod_mod]
  unfold Nic.pending
  rw [h.pendingCount]
  exact hspan.items_eq

/-- Packets of other descriptors are kept. -/
theorem transmit_carries (h : e.transmit data = some e') (hfits : data.length ≤ txPktSize)
    {i : Nat} (hi : i ≠ e.tdt) (hp : e.Carries i p) : e'.Carries i p := by
  obtain ⟨-, rfl⟩ := transmit_cases h
  refine ⟨?_, hp.2⟩
  have hlen : (e.txDescArray i).length.toNat ≤ txPktSize := by
    have hp' := hp.2
    rwa [← hp.1, E1000.packetOf, bytesAt_length] at hp'
  rw [← hp.1]
  unfold E1000.packetOf
  simp only [Function.update_of_ne hi]
  refine bytesAt_setBytes_of_apart ?_
  unfold txPktSize at *
  omega

/-- The new packet is behind the others. -/
theorem transmit_carries_self (h : e.transmit data = some e')
    (hfits : data.length ≤ txPktSize) : e'.Carries e.tdt data := by
  obtain ⟨-, rfl⟩ := transmit_cases h
  refine ⟨?_, hfits⟩
  have hlen : (BitVec.ofNat 16 data.length).toNat = data.length := by
    rw [BitVec.toNat_ofNat]
    unfold txPktSize at hfits
    omega
  unfold E1000.packetOf
  simp only [Function.update_self]
  rw [hlen, bytesAt_setBytes_self]

/-- The tail is not one of the descriptors that the card has. -/
theorem TxInv.tail_ne (h : TxInv r q) {j : Nat} (hj : j < q.length) :
    (r.sent.length + j) % txdescs ≠ r.nic.tdt := by
  have hroom := h.room
  rw [h.tdt, h.accepted, List.length_append]
  exact mod_ne (by omega) (by omega)

theorem TxInv.transmit (h : TxInv r q) (hroom : TxRoom r (.transmit data)) :
    ∃ q', TxInv (r.step txdescs rx (.transmit data)) q' := by
  cases htake : r.nic.toE1000.transmit data with
  | none => exact ⟨q, by simpa only [NicRun.step, htake] using h⟩
  | some e' =>
      obtain ⟨hdd, he'⟩ := transmit_cases htake
      obtain ⟨hfree, hfits⟩ := hroom hdd
      have htail : (r.sent.length + q.length) % txdescs = r.nic.tdt := by
        rw [h.tdt, h.accepted, List.length_append]
      refine ⟨q ++ [data], ?_⟩
      simp only [NicRun.step, htake]
      constructor
      · simp [h.accepted]
      · exact h.tdh
      · rw [he']
        simp [h.tdt]
      · have hlt := h.room
        rw [h.tdt, h.tdh, h.accepted, List.length_append] at hfree
        rw [List.length_append, List.length_singleton]
        unfold txdescs at *
        omega
      · refine h.carries.push h.room (fun c y hc hy => ?_) ?_
        · rw [htail] at hc
          exact transmit_carries htake hfits hc hy
        · rw [htail]
          exact transmit_carries_self htake hfits

theorem TxInv.send (h : TxInv r q) : ∃ q', TxInv (r.step txdescs rx .send) q' := by
  cases hsend : r.nic.send txdescs with
  | none => exact ⟨q, by simpa only [NicRun.step, hsend] using h⟩
  | some out =>
      obtain ⟨hne, rfl⟩ := send_cases hsend
      simp only [NicRun.step, hsend]
      cases q with
      | nil =>
          refine absurd ?_ hne
          rw [h.tdh, h.tdt, h.accepted, List.append_nil]
      | cons p q =>
          have hhead : r.nic.packetOf r.nic.tdh = p := by
            rw [h.tdh]
            exact h.carries.1.1
          refine ⟨q, ?_, ?_, ?_, Nat.lt_of_succ_lt h.room, ?_⟩
          · simp [h.accepted, hhead]
          · simp [h.tdh]
          · exact h.tdt
          · have hspan : Span r.nic.Carries txdescs (r.sent.length + 1) q := h.carries.2
            rw [List.length_append, List.length_singleton]
            refine hspan.congr (fun j y _ hy => ?_)
            refine ⟨?_, hy.2⟩
            rw [← hy.1]
            unfold E1000.packetOf
            -- the status is not part of the packet
            by_cases hc : (r.sent.length + 1 + j) % txdescs = r.nic.tdh
            · simp [hc]
            · simp [Function.update_of_ne hc]

/-- The other ring is not concerned. -/
theorem TxInv.of_same {r' : NicRun} (h : TxInv r q) (haccepted : r'.accepted = r.accepted)
    (hsent : r'.sent = r.sent) (htdh : r'.nic.tdh = r.nic.tdh) (htdt : r'.nic.tdt = r.nic.tdt)
    (hdesc : r'.nic.txDescArray = r.nic.txDescArray)
    (hbuf : r'.nic.txBufferArray = r.nic.txBufferArray) : TxInv r' q where
  accepted := by rw [haccepted, hsent, h.accepted]
  tdh := by rw [htdh, hsent, h.tdh]
  tdt := by rw [htdt, haccepted, h.tdt]
  room := h.room
  carries := by
    rw [hsent]
    refine h.carries.congr (fun _ _ _ hy => ?_)
    unfold E1000.Carries E1000.packetOf
    rw [hdesc, hbuf]
    exact hy

theorem TxInv.step {ev : NicEvent} (h : TxInv r q) (hroom : TxRoom r ev) :
    ∃ q', TxInv (r.step txdescs rx ev) q' := by
  cases ev with
  | transmit data => exact h.transmit hroom
  | send => exact h.send
  | receive =>
      refine ⟨q, ?_⟩
      cases htake : r.nic.toE1000.receive with
      | none => simpa only [NicRun.step, htake] using h
      | some out =>
          obtain ⟨-, -, rfl⟩ := receive_cases htake
          simp only [NicRun.step, htake]
          exact h.of_same rfl rfl rfl rfl rfl rfl
  | arrive p =>
      refine ⟨q, ?_⟩
      cases hstore : r.nic.store rx p with
      | none => simpa only [NicRun.step, hstore] using h
      | some n =>
          obtain ⟨-, rfl⟩ := store_cases hstore
          simp only [NicRun.step, hstore]
          exact h.of_same rfl rfl rfl rfl rfl rfl

theorem TxInv.reached (h : r.Reached txdescs rx n TxRoom) : ∃ q, TxInv r q := by
  induction h with
  | start => exact ⟨[], TxInv.start⟩
  | step _ hroom ih =>
      obtain ⟨q, hq⟩ := ih
      exact hq.step hroom

theorem TxInv.sound (h : TxInv r q) : TxSound r where
  accepted := by rw [h.pending, h.accepted]
  kept := fun data e' hroom htake i howns => by
    obtain ⟨hdd, he'⟩ := transmit_cases htake
    obtain ⟨hfree, hfits⟩ := hroom hdd
    obtain ⟨j, hj, rfl⟩ := howns
    rw [h.pendingCount] at hj
    have hne : (r.nic.tdh + j) % txdescs ≠ r.nic.tdt := by
      rw [h.tdh, Nat.mod_add_mod]
      exact h.tail_ne hj
    have hcarries : r.nic.Carries ((r.nic.tdh + j) % txdescs) (q.get ⟨j, hj⟩) := by
      rw [h.tdh, Nat.mod_add_mod]
      exact h.carries.get hj
    refine ⟨?_, ?_⟩
    · rw [he']
      exact Function.update_of_ne hne _ _
    · have hkept := transmit_carries htake hfits hne hcarries
      exact hkept.1.trans hcarries.1.symm

end Steps

/-- In a run in which the ring is never filled up, every accepted packet waits in the
ring until it is sent, in order, and its descriptor stays as it is. -/
theorem transmit_no_loss {r : NicRun} {n : Nic} {rx : Nat}
    (h : r.Reached txdescs rx n TxRoom) : TxSound r := by
  obtain ⟨q, hq⟩ := TxInv.reached h
  exact hq.sound

/-- A packet is accepted and sent. -/
theorem transmit_no_loss_sent :
    TxSound (((NicRun.start .reset).step txdescs rxdescs (.transmit [1#8])).step
      txdescs rxdescs .send) :=
  transmit_no_loss
    (.step (.step .start (fun _ => ⟨by decide, by decide⟩)) trivial)

/-- After `TXDESCS` packets the ring is empty to a card that has not sent any. -/
theorem not_transmit_no_loss : ¬ ∀ es : List NicEvent,
    TxSound ((NicRun.start .reset).run txdescs rxdescs es) := by
  intro h
  have hlost := (h (List.replicate 32 (.transmit [1#8]))).accepted
  revert hlost
  decide +kernel

end Jos

import Jos.NetworkCard

/-!
# Which packets the driver returns

The packets that wait are those of the descriptors from `next` to the head.  The
driver does not clear `DD`, so it cannot tell an empty ring from a full one after the
first turn; and it does not pass a packet with errors.  In every other state a call
returns the packet that a queue of the good packets would.
-/

namespace Jos

open Bytes Ring

/-- What a queue of the packets without errors holds. -/
def goodPackets (ps : List Packet) : List (List U8) :=
  (ps.filter (fun p => p.errors = 0#8)).map Packet.bytes

/-- A call of `e1000_receive` returns the next packet without errors that the card has
stored, and fails if there is none. -/
def RxExact (r : NicRun) : Prop :=
  r.nic.toE1000.receive.map Prod.fst =
    ((goodPackets r.stored).drop r.returned.length).head?

/-- The number of descriptors from `next` to the head. -/
def Nic.waitingCount (n : Nic) : Nat := (n.rdh + rxdescs - n.next) % rxdescs

/-- If no packet waits, then the driver can see that; and if the first one has errors,
then so have the others. -/
structure RxClear (n : Nic) : Prop where
  empty : n.rdh = n.next → (n.rxDescArray n.next).status &&& statDd = 0#8
  errors : n.rdh ≠ n.next → (n.rxDescArray n.next).errors ≠ 0#8 →
    ∀ i, i < n.waitingCount → (n.rxDescArray ((n.next + i) % rxdescs)).errors ≠ 0#8

/-- Descriptor `i` has a packet for the driver. -/
structure E1000.Filled (n : E1000) (i : Nat) (p : Packet) : Prop where
  done : (n.rxDescArray i).status &&& statDd ≠ 0#8
  errors : (n.rxDescArray i).errors = p.errors
  length : (n.rxDescArray i).length.toNat = p.bytes.length
  bytes : bytesAt n.rxBufferArray (i * rxPktSize) p.bytes.length = p.bytes

/-- The packets `past` have been returned and the packets `ps` wait. -/
structure RxInv (r : NicRun) (past ps : List Packet) : Prop where
  stored : r.stored = past ++ ps
  returned : r.returned = past.map Packet.bytes
  good : ∀ p, p ∈ past → p.errors = 0#8
  next : r.nic.next = past.length % rxdescs
  rdh : r.nic.rdh = (past.length + ps.length) % rxdescs
  rdt : r.nic.rdt = (past.length + (rxdescs - 1)) % rxdescs
  room : ps.length < rxdescs
  filled : Span r.nic.Filled rxdescs past.length ps
  idle : ∀ i, ps.length ≤ i → i < rxdescs →
    (r.nic.rxDescArray ((past.length + i) % rxdescs)).errors = 0#8

section Steps

variable {r : NicRun} {past ps : List Packet} {p : Packet} {e e' : E1000} {n n' : Nic} {tx i : Nat}

theorem RxInv.start : RxInv (.start .reset) [] [] where
  stored := rfl
  returned := rfl
  good := fun _ hp => absurd hp List.not_mem_nil
  next := rfl
  rdh := rfl
  rdt := rfl
  room := by decide
  filled := trivial
  idle := fun _ _ _ => rfl

theorem goodPackets_append : goodPackets (past ++ ps) = goodPackets past ++ goodPackets ps := by
  unfold goodPackets
  rw [List.filter_append, List.map_append]

theorem goodPackets_eq (h : ∀ p, p ∈ ps → p.errors = 0#8) :
    goodPackets ps = ps.map Packet.bytes := by
  unfold goodPackets
  rw [List.filter_eq_self.mpr (fun p hp => decide_eq_true (h p hp))]

theorem goodPackets_eq_nil : goodPackets ps = [] ↔ ∀ p, p ∈ ps → p.errors ≠ 0#8 := by
  unfold goodPackets
  rw [List.map_eq_nil_iff, List.filter_eq_nil_iff]
  simp

/-- What the queue holds after the packets that were returned. -/
theorem RxInv.queue (h : RxInv r past ps) :
    (goodPackets r.stored).drop r.returned.length = goodPackets ps := by
  rw [h.stored, goodPackets_append, goodPackets_eq h.good, h.returned]
  exact List.drop_left

theorem RxInv.empty_iff (h : RxInv r past ps) : r.nic.rdh = r.nic.next ↔ ps = [] := by
  have hroom := h.room
  rw [h.rdh, h.next, ← List.length_eq_zero_iff]
  unfold rxdescs at *
  omega

theorem RxInv.waitingCount (h : RxInv r past ps) : r.nic.waitingCount = ps.length := by
  have hroom := h.room
  unfold Nic.waitingCount
  rw [h.rdh, h.next]
  unfold rxdescs at *
  omega

theorem RxInv.next_cell (h : RxInv r past ps) (i : Nat) :
    (r.nic.next + i) % rxdescs = (past.length + i) % rxdescs := by
  rw [h.next, Nat.mod_add_mod]

/-- A packet without errors is returned. -/
theorem receive_good (h : e.Filled e.next p) (hp : p.errors = 0#8) :
    e.receive = some (p.bytes,
      { e with
        rdt := (e.rdt + 1) % rxdescs
        next := (e.next + 1) % rxdescs }) := by
  unfold E1000.receive
  rw [if_neg h.done, if_neg (by rw [h.errors, hp]; decide), h.length, h.bytes]

/-- A packet with errors is not. -/
theorem receive_bad (h : e.Filled e.next p) (hp : p.errors ≠ 0#8) : e.receive = none := by
  unfold E1000.receive
  rw [if_neg h.done, if_pos (by rwa [h.errors])]

theorem RxInv.exact_iff (h : RxInv r past ps) : RxExact r ↔ RxClear r.nic := by
  unfold RxExact
  rw [h.queue]
  cases ps with
  | nil =>
      have hempty : r.nic.rdh = r.nic.next := h.empty_iff.mpr rfl
      have hgood : (r.nic.rxDescArray r.nic.next).errors = 0#8 := by
        have hidle := h.idle 0 (Nat.le_refl 0) (by decide)
        rwa [Nat.add_zero, ← h.next] at hidle
      constructor
      · intro hnone
        refine ⟨fun _ => ?_, fun hne => absurd hempty hne⟩
        by_contra hdone
        unfold E1000.receive at hnone
        rw [if_neg hdone, if_neg (not_not.mpr hgood)] at hnone
        cases hnone
      · intro hclear
        unfold E1000.receive
        rw [if_pos (hclear.empty hempty)]
        rfl
  | cons p ps =>
      have hfilled : r.nic.Filled r.nic.next p := by
        rw [h.next]
        exact h.filled.1
      have hne : r.nic.rdh ≠ r.nic.next := fun hempty => nomatch h.empty_iff.mp hempty
      by_cases hp : p.errors = 0#8
      · rw [receive_good hfilled hp]
        refine iff_of_true ?_ ⟨fun hempty => absurd hempty hne, fun _ hbad => ?_⟩
        · unfold goodPackets
          simp [hp]
        · exact absurd (hfilled.errors.trans hp) hbad
      · rw [receive_bad hfilled hp]
        have hcells : (∀ q, q ∈ p :: ps → q.errors ≠ 0#8) ↔
            ∀ i, i < r.nic.waitingCount →
              (r.nic.rxDescArray ((r.nic.next + i) % rxdescs)).errors ≠ 0#8 := by
          rw [h.waitingCount]
          refine ⟨fun hbad i hi => ?_, fun hbad q hq => ?_⟩
          · rw [h.next_cell, (h.filled.get hi).errors]
            exact hbad _ (List.get_mem _ _)
          · obtain ⟨⟨i, hi⟩, rfl⟩ := List.mem_iff_get.mp hq
            have hcell := hbad i hi
            rwa [h.next_cell, (h.filled.get hi).errors] at hcell
        have hqueue : (none : Option (List U8 × E1000)).map Prod.fst =
            (goodPackets (p :: ps)).head? ↔ ∀ q, q ∈ p :: ps → q.errors ≠ 0#8 := by
          rw [← goodPackets_eq_nil, ← List.head?_eq_none_iff]
          exact eq_comm
        rw [hqueue, hcells]
        exact ⟨fun hbad => ⟨fun hempty => absurd hempty hne, fun _ _ => hbad⟩,
          fun hclear => hclear.errors hne (by rwa [hfilled.errors])⟩

theorem store_desc (h : n.store rxdescs p = some n') (hi : i ≠ n.rdh) :
    n'.rxDescArray i = n.rxDescArray i := by
  obtain ⟨-, rfl⟩ := store_cases h
  exact Function.update_of_ne hi _ _

/-- Packets of other descriptors are kept. -/
theorem store_filled {q : Packet} (h : n.store rxdescs p = some n') (hi : i ≠ n.rdh)
    (hq : n.Filled i q) : n'.Filled i q := by
  obtain ⟨-, hn'⟩ := store_cases h
  have hsame := store_desc h hi
  refine ⟨?_, ?_, ?_, ?_⟩
  · rw [hsame]
    exact hq.done
  · rw [hsame]
    exact hq.errors
  · rw [hsame]
    exact hq.length
  · rw [hn']
    refine Eq.trans (bytesAt_setBytes_of_apart ?_) hq.bytes
    have hp := p.fits
    have hq' := q.fits
    unfold rxPktSize at *
    omega

/-- The new packet is that of the head. -/
theorem store_filled_self (h : n.store rxdescs p = some n') : n'.Filled n.rdh p := by
  obtain ⟨-, hn'⟩ := store_cases h
  have hself : n'.rxDescArray n.rdh = ⟨BitVec.ofNat 16 p.bytes.length, 0x03#8, p.errors⟩ := by
    rw [hn']
    exact Function.update_self _ _ _
  refine ⟨?_, ?_, ?_, ?_⟩
  · rw [hself]
    change 0x03#8 &&& statDd ≠ 0#8
    decide
  · rw [hself]
  · rw [hself, BitVec.toNat_ofNat]
    have hp := p.fits
    unfold rxPktSize at hp
    exact Nat.mod_eq_of_lt (by omega)
  · rw [hn']
    exact bytesAt_setBytes_self

/-- A packet is stored behind the others. -/
theorem RxInv.arrive (h : RxInv r past ps) (p : Packet) :
    ∃ ps', RxInv (r.step tx rxdescs (.arrive p)) past ps' := by
  cases hstore : r.nic.store rxdescs p with
  | none => exact ⟨ps, by simpa only [NicRun.step, hstore] using h⟩
  | some n' =>
      obtain ⟨hne, rfl⟩ := store_cases hstore
      simp only [NicRun.step, hstore]
      have hroom : ps.length + 1 < rxdescs := by
        have hlt := h.room
        rw [h.rdh, h.rdt] at hne
        unfold rxdescs at *
        omega
      refine ⟨ps ++ [p], ?_, h.returned, h.good, h.next, ?_, h.rdt, ?_, ?_, ?_⟩
      · simp [h.stored]
      · simp [h.rdh, Nat.add_assoc]
      · simpa using hroom
      · refine h.filled.push h.room (fun c y hc hy => ?_) ?_
        · rw [← h.rdh] at hc
          exact store_filled hstore hc hy
        · rw [← h.rdh]
          exact store_filled_self hstore
      · intro i hle hlt
        rw [List.length_append, List.length_singleton] at hle
        have hcell : (past.length + i) % rxdescs ≠ r.nic.rdh := by
          rw [h.rdh]
          exact (mod_ne (by omega) (by omega)).symm
        exact (congrArg RxDesc.errors (store_desc hstore hcell)).trans
          (h.idle i (by omega) hlt)

/-- A packet is returned. -/
theorem RxInv.receive (h : RxInv r past ps) (hclear : RxClear r.nic) :
    ∃ past' ps', RxInv (r.step tx rxdescs .receive) past' ps' := by
  cases htake : r.nic.toE1000.receive with
  | none => exact ⟨past, ps, by simpa only [NicRun.step, htake] using h⟩
  | some out =>
      obtain ⟨hdone, hgood, rfl⟩ := receive_cases htake
      simp only [NicRun.step, htake]
      cases ps with
      | nil => exact absurd (hclear.empty (h.empty_iff.mpr rfl)) hdone
      | cons p ps =>
          have hfilled : r.nic.Filled r.nic.next p := by
            rw [h.next]
            exact h.filled.1
          refine ⟨past ++ [p], ps, ?_, ?_, ?_, ?_, ?_, ?_, Nat.lt_of_succ_lt h.room, ?_, ?_⟩
          · simp [h.stored]
          · rw [hfilled.length, hfilled.bytes]
            simp [h.returned]
          · intro q hq
            rcases List.mem_append.mp hq with hq | hq
            · exact h.good q hq
            · rw [List.mem_singleton.mp hq, ← hfilled.errors]
              exact hgood
          · simp [h.next]
          · rw [h.rdh, List.length_append, List.length_cons, List.length_singleton]
            exact congrArg (· % rxdescs) (by omega)
          · rw [h.rdt, mod_succ, List.length_append, List.length_singleton]
            exact congrArg (· % rxdescs) (by omega)
          · rw [List.length_append]
            have hspan : Span r.nic.Filled rxdescs (past.length + 1) ps := h.filled.2
            exact hspan.congr (fun _ _ _ hy => ⟨hy.done, hy.errors, hy.length, hy.bytes⟩)
          · intro i hle hlt
            rw [List.length_append, List.length_singleton, Nat.add_assoc, Nat.add_comm 1 i]
            by_cases hlast : i + 1 = rxdescs
            · -- the descriptor that the driver has just passed
              rw [hlast, Nat.add_mod_right, ← h.next]
              exact hgood
            · exact h.idle (i + 1) (by simpa using hle) (by omega)

theorem RxInv.of_same {r' : NicRun} (h : RxInv r past ps) (hstored : r'.stored = r.stored)
    (hreturned : r'.returned = r.returned) (hnext : r'.nic.next = r.nic.next)
    (hrdh : r'.nic.rdh = r.nic.rdh) (hrdt : r'.nic.rdt = r.nic.rdt)
    (hdesc : r'.nic.rxDescArray = r.nic.rxDescArray)
    (hbuf : r'.nic.rxBufferArray = r.nic.rxBufferArray) : RxInv r' past ps where
  stored := hstored.trans h.stored
  returned := hreturned.trans h.returned
  good := h.good
  next := hnext.trans h.next
  rdh := hrdh.trans h.rdh
  rdt := hrdt.trans h.rdt
  room := h.room
  filled := h.filled.congr (fun _ _ _ hy => by
    obtain ⟨hdone, herrors, hlength, hbytes⟩ := hy
    rw [← hdesc] at hdone herrors hlength
    rw [← hbuf] at hbytes
    exact ⟨hdone, herrors, hlength, hbytes⟩)
  idle := by
    rw [hdesc]
    exact h.idle

theorem RxInv.step {ev : NicEvent} (h : RxInv r past ps)
    (hclear : ev = .receive → RxClear r.nic) :
    ∃ past' ps', RxInv (r.step tx rxdescs ev) past' ps' := by
  cases ev with
  | transmit data =>
      refine ⟨past, ps, ?_⟩
      cases htake : r.nic.toE1000.transmit data with
      | none => simpa only [NicRun.step, htake] using h
      | some e' =>
          obtain ⟨-, rfl⟩ := transmit_cases htake
          simp only [NicRun.step, htake]
          exact h.of_same rfl rfl rfl rfl rfl rfl rfl
  | send =>
      refine ⟨past, ps, ?_⟩
      cases hsend : r.nic.send tx with
      | none => simpa only [NicRun.step, hsend] using h
      | some out =>
          obtain ⟨-, rfl⟩ := send_cases hsend
          simp only [NicRun.step, hsend]
          exact h.of_same rfl rfl rfl rfl rfl rfl rfl
  | receive => exact h.receive (hclear rfl)
  | arrive p => exact ⟨past, h.arrive p⟩

/-- As long as the calls that were made were exact, or clear, it is known which packets
wait. -/
theorem RxInv.run (tx : Nat) (es : List NicEvent)
    (h : ∀ pre, pre ++ [.receive] <+: es → ∀ past ps,
      RxInv ((NicRun.start .reset).run tx rxdescs pre) past ps →
      RxClear ((NicRun.start .reset).run tx rxdescs pre).nic) :
    ∃ past ps, RxInv ((NicRun.start .reset).run tx rxdescs es) past ps := by
  induction es using List.reverseRecOn with
  | nil => exact ⟨[], [], RxInv.start⟩
  | append_singleton es ev ih =>
      obtain ⟨past, ps, hinv⟩ := ih (fun pre hpre =>
        h pre (hpre.trans (List.prefix_append es [ev])))
      unfold NicRun.run at *
      rw [List.foldl_append]
      refine hinv.step (fun hev => ?_)
      subst hev
      exact h es (List.prefix_refl _) past ps hinv

end Steps

/-- The calls of a run are exact if and only if each of them is made in a state in which
the driver can tell what waits. -/
theorem receive_exactly_once (tx : Nat) (es : List NicEvent) :
    (∀ pre, pre ++ [.receive] <+: es →
      RxExact ((NicRun.start .reset).run tx rxdescs pre)) ↔
    (∀ pre, pre ++ [.receive] <+: es →
      RxClear ((NicRun.start .reset).run tx rxdescs pre).nic) := by
  constructor
  · intro h pre hpre
    have hsub : ∀ pre', pre' ++ [NicEvent.receive] <+: pre → pre' ++ [.receive] <+: es :=
      fun pre' hpre' => hpre'.trans ((List.prefix_append _ _).trans hpre)
    obtain ⟨past, ps, hinv⟩ := RxInv.run tx pre
      (fun pre' hpre' past ps hinv => hinv.exact_iff.mp (h pre' (hsub pre' hpre')))
    exact hinv.exact_iff.mp (h pre hpre)
  · intro h pre hpre
    have hsub : ∀ pre', pre' ++ [NicEvent.receive] <+: pre → pre' ++ [.receive] <+: es :=
      fun pre' hpre' => hpre'.trans ((List.prefix_append _ _).trans hpre)
    obtain ⟨past, ps, hinv⟩ := RxInv.run tx pre
      (fun pre' hpre' _ _ _ => h pre' (hsub pre' hpre'))
    exact hinv.exact_iff.mpr (h pre hpre)

/-- After `RXDESCS` packets, and as many calls, one more call returns the first packet
again. -/
theorem not_receive_exactly_once : ¬ ∀ (es pre : List NicEvent), pre ++ [.receive] <+: es →
    RxExact ((NicRun.start .reset).run txdescs rxdescs pre) := by
  intro h
  have hstale := h _ (List.replicate 128
    [NicEvent.arrive ⟨[1#8], 0#8, by decide⟩, .receive]).flatten (List.prefix_refl _)
  revert hstale
  unfold RxExact
  decide +kernel

end Jos

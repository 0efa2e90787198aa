import Jos.NetworkCard

/-!
# Where the rings of the card end

The field of the length registers counts in units of 128 bytes, which are eight
descriptors.  The driver sets it to the number of descriptors, so the card goes on
behind the end of the arrays: its turn is eight times as long as the driver's.
-/

namespace Jos

/-- A step with the rings that the registers tell the card. -/
def NicRun.cardStep (r : NicRun) (ev : NicEvent) : NicRun :=
  r.step (ringOf r.nic.tdlen) (ringOf r.nic.rdlen) ev

/-- The state after `e1000_transmit_init`, `e1000_receive_init` and some events. -/
def NicRun.programmed (n : Nic) (es : List NicEvent) : NicRun := es.foldl cardStep (start n)

/-- The card keeps to the arrays. -/
structure RingsInside (r : NicRun) : Prop where
  tx : ∀ i, i ∈ r.txUsed → i < txdescs
  rx : ∀ i, i ∈ r.rxUsed → i < rxdescs

/-- The descriptors of a ring are used in turn. -/
def usedInTurn (ring k : Nat) : List Nat := (List.range k).map (· % ring)

/-- What the card has used so far. -/
structure TurnInv (r : NicRun) : Prop where
  tdlen : ringOf r.nic.tdlen = 8 * txdescs
  rdlen : ringOf r.nic.rdlen = 8 * rxdescs
  tdh : r.nic.tdh = r.sent.length % (8 * txdescs)
  rdh : r.nic.rdh = r.stored.length % (8 * rxdescs)
  txUsed : r.txUsed = usedInTurn (8 * txdescs) r.sent.length
  rxUsed : r.rxUsed = usedInTurn (8 * rxdescs) r.stored.length

section Turns

variable {ring size k : Nat} {r : NicRun} {n : Nic} {reg : U32} {ev : NicEvent}

/-- What is stored under a mask is read back. -/
theorem masked_or {x mask : U32} (hx : x &&& mask = x) :
    ((reg &&& ~~~mask) ||| x) &&& mask = x := by
  have hcut : ~~~mask &&& mask = 0#32 := by
    ext i hi
    simp
  rw [BitVec.and_or_distrib_right, BitVec.and_assoc, hcut, hx]
  simp

/-- The register counts descriptors eightfold. -/
theorem ringOf_setLen {m : Nat} (hm : m < 2 ^ 13) :
    ringOf (setLen reg (BitVec.ofNat 32 m)) = 8 * m := by
  have hfield : ((BitVec.ofNat 32 m &&& 0x1FFF#32) <<< 7) &&& 0x000FFF80#32 =
      (BitVec.ofNat 32 m &&& 0x1FFF#32) <<< 7 := by
    have hshift : (0x000FFF80#32 : U32) = 0x1FFF#32 <<< 7 := by decide
    rw [hshift, ← BitVec.shiftLeft_and_distrib, BitVec.and_assoc, BitVec.and_self]
  have hlow : (BitVec.ofNat 32 m &&& 0x1FFF#32).toNat = m := by
    have hmod := Nat.and_two_pow_sub_one_eq_mod m 13
    rw [BitVec.toNat_and, BitVec.toNat_ofNat, Nat.mod_eq_of_lt (by omega)]
    exact hmod.trans (Nat.mod_eq_of_lt hm)
  unfold ringOf setLen
  rw [masked_or hfield, BitVec.toNat_shiftLeft, hlow, Nat.shiftLeft_eq]
  omega

theorem usedInTurn_succ : usedInTurn ring (k + 1) = usedInTurn ring k ++ [k % ring] := by
  unfold usedInTurn
  rw [List.range_succ, List.map_append]
  rfl

/-- The card leaves an array of `size` descriptors when it has used all of them. -/
theorem usedInTurn_inside (hsize : size < ring) :
    (∀ i, i ∈ usedInTurn ring k → i < size) ↔ k ≤ size := by
  unfold usedInTurn
  constructor
  · intro h
    by_contra hlt
    have hin := h (size % ring) (List.mem_map_of_mem (List.mem_range.mpr (by omega)))
    rw [Nat.mod_eq_of_lt hsize] at hin
    omega
  · intro hle i hi
    obtain ⟨j, hj, rfl⟩ := List.mem_map.mp hi
    have hlt := List.mem_range.mp hj
    exact Nat.lt_of_le_of_lt (Nat.mod_le j ring) (by omega)

theorem TurnInv.start : TurnInv (.start n) where
  tdlen := ringOf_setLen (by decide)
  rdlen := ringOf_setLen (by decide)
  tdh := rfl
  rdh := rfl
  txUsed := rfl
  rxUsed := rfl

theorem TurnInv.step (h : TurnInv r) : TurnInv (r.cardStep ev) := by
  unfold NicRun.cardStep
  rw [h.tdlen, h.rdlen]
  cases ev with
  | transmit data =>
      cases htake : r.nic.toE1000.transmit data with
      | none => simpa only [NicRun.step, htake] using h
      | some e =>
          simp only [NicRun.step, htake]
          exact ⟨h.tdlen, h.rdlen, h.tdh, h.rdh, h.txUsed, h.rxUsed⟩
  | send =>
      cases hsend : r.nic.send (8 * txdescs) with
      | none => simpa only [NicRun.step, hsend] using h
      | some out =>
          obtain ⟨-, rfl⟩ := send_cases hsend
          simp only [NicRun.step, hsend]
          refine ⟨h.tdlen, h.rdlen, ?_, h.rdh, ?_, h.rxUsed⟩
          · simp [h.tdh]
          · rw [List.length_append, List.length_singleton, usedInTurn_succ, h.txUsed, h.tdh]
  | receive =>
      cases htake : r.nic.toE1000.receive with
      | none => simpa only [NicRun.step, htake] using h
      | some out =>
          simp only [NicRun.step, htake]
          exact ⟨h.tdlen, h.rdlen, h.tdh, h.rdh, h.txUsed, h.rxUsed⟩
  | arrive p =>
      cases hstore : r.nic.store (8 * rxdescs) p with
      | none => simpa only [NicRun.step, hstore] using h
      | some n =>
          obtain ⟨-, rfl⟩ := store_cases hstore
          simp only [NicRun.step, hstore]
          refine ⟨h.tdlen, h.rdlen, h.tdh, ?_, h.txUsed, ?_⟩
          · simp [h.rdh]
          · rw [List.length_append, List.length_singleton, usedInTurn_succ, h.rxUsed, h.rdh]

theorem TurnInv.programmed (es : List NicEvent) : TurnInv (.programmed n es) := by
  unfold NicRun.programmed
  have hrun : ∀ r, TurnInv r → TurnInv (es.foldl NicRun.cardStep r) := by
    induction es with
    | nil => exact fun _ h => h
    | cons ev es ih => exact fun r h => ih _ h.step
  exact hrun _ TurnInv.start

end Turns

/-- The card keeps to the arrays as long as it does not come to the end of one. -/
theorem rings_inside (n : Nic) (es : List NicEvent) :
    RingsInside (.programmed n es) ↔
      (NicRun.programmed n es).sent.length ≤ txdescs ∧
      (NicRun.programmed n es).stored.length ≤ rxdescs := by
  have h : TurnInv (.programmed n es) := TurnInv.programmed es
  have htx : txdescs < 8 * txdescs := by decide
  have hrx : rxdescs < 8 * rxdescs := by decide
  rw [← usedInTurn_inside htx, ← usedInTurn_inside hrx, ← h.txUsed, ← h.rxUsed]
  exact ⟨fun h => ⟨h.tx, h.rx⟩, fun h => ⟨h.1, h.2⟩⟩

/-- After `TXDESCS` packets the card sends descriptor `TXDESCS`, which is none. -/
theorem not_rings_inside : ¬ ∀ es : List NicEvent, RingsInside (.programmed .reset es) := by
  intro h
  have hin := (h ((List.replicate 33 [NicEvent.transmit [1#8], .send]).flatten)).tx 32
  revert hin
  decide +kernel

end Jos

import Jos.UserReads

/-!
# Packets and the buffers of the card

`e1000_transmit` copies a packet of any length into the buffer of the current
descriptor, which has room for `TX_PKT_SIZE` bytes, and notes the length in 16
bits.  Neither it nor `sys_pkt_try_send` looks at the length, and the network
server sends up to 2000 bytes.
-/

namespace Jos

open Programs

/-- The kernel can read the whole packet. -/
def Kernel.Readable (k : Kernel) (c : Nat) (data len : U32) : Prop :=
  ∀ i, i < len.toNat → ∃ b, k.userByte c (data + BitVec.ofNat 32 i) = some b

/-- `tx_buffer_array[current]` has byte `j` of the array. -/
def InTxBuffer (current j : Nat) : Prop :=
  current * txPktSize ≤ j ∧ j < (current + 1) * txPktSize

/-- A call wrote only into the buffer of the current descriptor, and if it took
the packet, the descriptor has its length and the buffer its bytes. -/
structure SentWhole (k : Kernel) (c : Nat) (data len : U32) (r : Int) (k' : Kernel) : Prop where
  inside : ∀ j, ¬ InTxBuffer k.e1000.tdt j →
    k'.e1000.txBufferArray j = k.e1000.txBufferArray j
  length : r = 0 → (k'.e1000.txDescArray k.e1000.tdt).length.toNat = len.toNat
  fits : r = 0 → len.toNat ≤ txPktSize
  bytes : r = 0 → ∀ i, i < len.toNat →
    k.userByte c (data + BitVec.ofNat 32 i) =
      some (k'.e1000.txBufferArray (k.e1000.tdt * txPktSize + i))

/-- How a call for a packet that can be read ends. -/
inductive PacketSent (k : Kernel) (c : Nat) (data len : U32) : Int → Kernel → Prop where
  | busy {k' : Kernel} :
      (k.e1000.txDescArray k.e1000.tdt).status &&& statDd = 0#8 →
      k'.e1000 = k.e1000 → PacketSent k c data len (-eTransmitRetry) k'
  | taken {k' : Kernel} :
      (k.e1000.txDescArray k.e1000.tdt).status &&& statDd ≠ 0#8 →
      (k'.e1000.txDescArray k.e1000.tdt).length = len.setWidth 16 →
      (∀ j, ¬ (k.e1000.tdt * txPktSize ≤ j ∧ j < k.e1000.tdt * txPktSize + len.toNat) →
        k'.e1000.txBufferArray j = k.e1000.txBufferArray j) →
      (∀ i, i < len.toNat → k.userByte c (data + BitVec.ofNat 32 i) =
        some (k'.e1000.txBufferArray (k.e1000.tdt * txPktSize + i))) →
      PacketSent k c data len 0 k'

section Sending

variable {k k' : Kernel} {c : Nat} {data len : U32}

/-- The loop of `memcpy`, when the packet can be read. -/
theorem copyIn_returns {base n : Nat}
    (hread : ∀ i, i < n → ∃ b, k.userByte c (data + BitVec.ofNat 32 i) = some b) :
    Returns (Prog.forRange 0 n (fun i => do
        let b ← loadByte c (data + BitVec.ofNat 32 i)
        Prog.modify (fun k => k.modifyNic (fun n =>
          { n with txBufferArray := Function.update n.txBufferArray (base + i) b }))))
      (fun _ k' => k'.e1000.txDescArray = k.e1000.txDescArray ∧ k'.e1000.tdt = k.e1000.tdt ∧
        (∀ j, ¬ (base ≤ j ∧ j < base + n) →
          k'.e1000.txBufferArray j = k.e1000.txBufferArray j) ∧
        ∀ i, i < n → k.userByte c (data + BitVec.ofNat 32 i) =
          some (k'.e1000.txBufferArray (base + i))) k := by
  -- after `i` turns the first `i` bytes are in the buffer
  refine wp_forRange (fun i k' => k'.vm = k.vm ∧
    k'.e1000.txDescArray = k.e1000.txDescArray ∧ k'.e1000.tdt = k.e1000.tdt ∧
    (∀ j, ¬ (base ≤ j ∧ j < base + i) →
      k'.e1000.txBufferArray j = k.e1000.txBufferArray j) ∧
    ∀ j, j < i → k.userByte c (data + BitVec.ofNat 32 j) =
      some (k'.e1000.txBufferArray (base + j)))
    0 n (fun i k₁ _ hi h => ?_) (fun k₁ h => ?_)
    ⟨rfl, rfl, rfl, fun _ _ => rfl, fun j hj => absurd hj (Nat.not_lt_zero j)⟩
  · obtain ⟨hvm, hdesc, htdt, hout, hin⟩ := h
    obtain ⟨b, hb⟩ := hread i (by omega)
    have hb₁ : k₁.userByte c (data + BitVec.ofNat 32 i) = some b := by
      rw [← hb, Kernel.userByte, Kernel.userByte, hvm]
    refine wp_ret_bind (loadByte_reads hb₁) ?_
    refine ⟨hvm, hdesc, htdt, fun j hj => ?_, fun j hj => ?_⟩
    · have hne : j ≠ base + i := by omega
      rw [← hout j (by omega)]
      exact Function.update_of_ne hne _ _
    · by_cases hji : j = i
      · subst hji
        rw [hb]
        change some b = some (Function.update k₁.e1000.txBufferArray (base + j) b (base + j))
        rw [Function.update_self]
      · have hne : base + j ≠ base + i := by omega
        rw [hin j (by omega)]
        change _ = some (Function.update k₁.e1000.txBufferArray (base + i) b (base + j))
        rw [Function.update_of_ne hne]
  · rw [Nat.zero_add] at h
    exact h.2

/-- What `e1000_transmit` does with a packet that can be read. -/
theorem e1000Transmit_returns (hread : k.Readable c data len) :
    Returns (e1000Transmit c data len) (PacketSent k c data len) k := by
  unfold e1000Transmit
  refine (wp_get_bind).mpr ?_
  refine wp_ite (fun hbusy => .busy hbusy rfl) (fun hfree => ?_)
  rw [wp_modify_bind]
  refine returns_bind (copyIn_returns hread) (fun _ k₁ h => ?_)
  obtain ⟨hdesc, htdt, hout, hin⟩ := h
  refine .taken hfree ?_ hout hin
  change (k₁.e1000.txDescArray k.e1000.tdt).length = _
  rw [hdesc]
  change (Function.update k.e1000.txDescArray k.e1000.tdt _ k.e1000.tdt).length = _
  rw [Function.update_self]

/-- The system call is no different once the check has passed. -/
theorem sysPktTrySend_returns (hpass : k.Passes c data len pteU)
    (hread : k.Readable c data len) :
    Returns (sysPktTrySend c data len) (PacketSent k c data len) k := by
  obtain ⟨cur, d, m, hcur, hd, hcheck⟩ := hpass
  refine wp_ret_bind (theCurenv_run hcur) ?_
  refine wp_ret_bind (userMemAssert_passes hd hcheck) ?_
  have hread₁ : (k.log (.checked data len (pteU ||| pteU))).Readable c data len := hread
  refine Returns.mono (e1000Transmit_returns hread₁) (fun r k' h => ?_)
  cases h with
  | busy hbusy hsame => exact .busy hbusy hsame
  | taken hfree hlength hout hin => exact .taken hfree hlength hout hin

/-- A packet that fits is sent whole. -/
theorem PacketSent.whole {r : Int} (h : PacketSent k c data len r k')
    (hok : (k.e1000.txDescArray k.e1000.tdt).status &&& statDd = 0#8 ∨
      len.toNat ≤ txPktSize) : SentWhole k c data len r k' := by
  cases h with
  | busy _ hsame =>
      have hr : -eTransmitRetry ≠ 0 := by decide
      exact ⟨fun _ _ => by rw [hsame], fun h => absurd h hr, fun h => absurd h hr,
        fun h => absurd h hr⟩
  | taken hfree hlength hout hin =>
      have hfits := hok.resolve_left hfree
      have hsize : txPktSize = 1518 := rfl
      refine ⟨fun j hj => hout j (fun h => hj ?_), fun _ => ?_, fun _ => hfits, fun _ => hin⟩
      · have hend : (k.e1000.tdt + 1) * txPktSize = k.e1000.tdt * txPktSize + txPktSize :=
          Nat.succ_mul _ _
        exact ⟨h.1, by omega⟩
      · rw [hlength, BitVec.toNat_setWidth]
        omega

/-- A packet that is sent whole fits. -/
theorem PacketSent.of_whole {r : Int} (h : PacketSent k c data len r k')
    (hwhole : SentWhole k c data len r k') :
    (k.e1000.txDescArray k.e1000.tdt).status &&& statDd = 0#8 ∨ len.toNat ≤ txPktSize := by
  cases h with
  | busy hbusy _ => exact Or.inl hbusy
  | taken _ _ _ _ => exact Or.inr (hwhole.fits rfl)

theorem fits_of_whole (hpass : k.Passes c data len pteU) (hread : k.Readable c data len)
    (h : Returns (sysPktTrySend c data len) (SentWhole k c data len) k) :
    (k.e1000.txDescArray k.e1000.tdt).status &&& statDd = 0#8 ∨ len.toNat ≤ txPktSize := by
  obtain ⟨r, k', hrun, hsent⟩ := returns_iff.mp (sysPktTrySend_returns hpass hread)
  exact hsent.of_whole (h.value hrun)

/-- A packet that can be read is sent whole, and nothing else written, if and
only if the card is busy or the packet fits into a buffer. -/
theorem pkt_send_whole (hpass : k.Passes c data len pteU) (hread : k.Readable c data len) :
    Returns (sysPktTrySend c data len) (SentWhole k c data len) k ↔
      (k.e1000.txDescArray k.e1000.tdt).status &&& statDd = 0#8 ∨ len.toNat ≤ txPktSize :=
  ⟨fits_of_whole hpass hread, fun hok =>
    (sysPktTrySend_returns hpass hread).mono (fun _ _ h => h.whole hok)⟩

/-- The page with byte `i` from the start of a page on. -/
theorem userByte_page {va : U32} {p i : Nat} (hva : va.toNat % 4096 = 0) (hi : i < 4096)
    (hp : k.vm.kernelPage (k.vm.cr3 c) va false = some p) :
    ∃ b, k.userByte c (va + BitVec.ofNat 32 i) = some b := by
  have hsum : (va + BitVec.ofNat 32 i).toNat = va.toNat + i :=
    toNat_add_ofNat (by omega)
  have hdx : pdx (va + BitVec.ofNat 32 i) = pdx va := by
    rw [pdx_eq, pdx_eq, hsum]
    omega
  have htx : ptx (va + BitVec.ofNat 32 i) = ptx va := by
    rw [ptx_eq, ptx_eq, hsum]
    omega
  have hpage : k.vm.kernelPage (k.vm.cr3 c) (va + BitVec.ofNat 32 i) false = some p := by
    rw [← hp]
    unfold PhysMem.kernelPage
    rw [hdx, htx]
    simp
  exact ⟨_, by rw [Kernel.userByte, hpage]; rfl⟩

/-- A machine whose environment has a page for packets. -/
theorem packet_page {len : U32} (hlen : len.toNat ≤ 4096)
    (hsome : (execution 16 1 1 [.start 0, callEvent 0 4 0 0x800000#32 7 0 0]).any (fun k =>
      k.passes 0 0x800000#32 len pteU && (k.vm.kernelPage (k.vm.cr3 0) 0x800000#32 false).isSome &&
        decide ((k.e1000.txDescArray k.e1000.tdt).status &&& statDd ≠ 0#8)) = true) :
    ∃ k : Kernel, k.Passes 0 0x800000#32 len pteU ∧ k.Readable 0 0x800000#32 len ∧
      (k.e1000.txDescArray k.e1000.tdt).status &&& statDd ≠ 0#8 := by
  obtain ⟨k, -, hthen⟩ := (Option.any_eq_true _ _).mp hsome
  rw [Bool.and_eq_true, Bool.and_eq_true] at hthen
  obtain ⟨⟨hpass, hpage⟩, hfree⟩ := hthen
  obtain ⟨p, hp⟩ := Option.isSome_iff_exists.mp hpage
  exact ⟨k, .of_passes hpass, fun i hi => userByte_page (by decide) (by omega) hp,
    of_decide_eq_true hfree⟩

/-- A packet of 64 bytes. -/
theorem pkt_send_whole_small : ∃ k : Kernel, k.Passes 0 0x800000#32 64#32 pteU ∧
    Returns (sysPktTrySend 0 0x800000#32 64#32) (SentWhole k 0 0x800000#32 64#32) k := by
  have hlen : (64#32).toNat ≤ 4096 := by decide
  obtain ⟨k, hpass, hread, -⟩ := packet_page hlen (by decide +kernel)
  exact ⟨k, hpass, (pkt_send_whole hpass hread).mpr (Or.inr (by decide))⟩

/-- A packet of 2000 bytes, which the network server sends, is taken and does not
fit. -/
theorem pkt_send_long : ∃ k : Kernel, k.Passes 0 0x800000#32 2000#32 pteU ∧
    k.Readable 0 0x800000#32 2000#32 ∧
    ¬ Returns (sysPktTrySend 0 0x800000#32 2000#32) (SentWhole k 0 0x800000#32 2000#32) k := by
  have hlen : (2000#32).toNat ≤ 4096 := by decide
  obtain ⟨k, hpass, hread, hfree⟩ := packet_page hlen (by decide +kernel)
  refine ⟨k, hpass, hread, fun h => ?_⟩
  rcases fits_of_whole hpass hread h with hbusy | hfits
  · exact hfree hbusy
  · exact absurd hfits (by decide)

end Sending

end Jos

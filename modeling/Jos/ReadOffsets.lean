import Jos.FileKeeps
import Jos.FormattedDisk

/-!
# Reading at any offset

`file_read` compares a signed position with an unsigned end.  If the offset is negative,
the loop may not run at all although bytes are reported, or run once with a place before
the first block.  `read_exact` is the result: it says for which arguments the number of
bytes is right.
-/

namespace Jos

open Programs Bytes Fs

/-- The number of bytes that `file_read` returns if its loop comes to an end. -/
def readCount (v : Bytes.Memory) (f : Nat) (count offset : U32) : U32 :=
  if count ≤ fileSize v f - offset then count else fileSize v f - offset

/-- The value of `file_read` after its loop. -/
def readResult (c : U32) : FsResult Unit → U32
  | .error e => e.code
  | .ok () => c

/-- Errors are negative. -/
theorem FsErr.code_neg (e : FsErr) : e.code.toInt < 0 := by
  cases e <;> decide

/-- What `file_read` reports is what it has copied. -/
structure ReadsExactly (v v' : Bytes.Memory) (f buf : Nat) (count offset r : U32) : Prop where
  copied : v' = readTo v f offset.toNat buf r.toNat
  inside : r ≠ 0#32 → 0 ≤ offset.toInt ∧ offset.toInt + r.toNat ≤ (fileSize v f).toInt
  length : 0 ≤ offset.toInt → offset.toInt < (fileSize v f).toInt →
    (r.toNat : Int) = min (count.toNat : Int) ((fileSize v f).toInt - offset.toInt)
  beyond : (fileSize v f).toInt ≤ offset.toInt → r = 0#32

/-- The arguments for which `file_read` does not do what it should. -/
structure ReadFails (v : Bytes.Memory) (f : Nat) (count offset : U32) : Prop where
  negative : offset.toInt < 0
  below : offset.toInt < (fileSize v f).toInt
  nonzero : count ≠ 0#32
  /-- What is reported is no error. -/
  small : (readCount v f count offset).toNat < 2 ^ 31
  /-- Either the end wraps around, or the first turn finds a block and copies from before
  it. -/
  turn : 2 ^ 32 - offset.toNat ≤ (readCount v f count offset).toNat ∨
    (-4096 < offset.toInt ∧ ((slotOf f 0).val v ≠ 0 ∨ ∃ b, Free v b))

section Signs

variable {pos last c : U32}

theorem toInt_neg (h : pos.toInt < 0) : 2 ^ 31 ≤ pos.toNat ∧ pos.toInt = pos.toNat - 2 ^ 32 := by
  rw [BitVec.toInt_eq_toNat_cond] at h ⊢
  split at h <;> omega

theorem toInt_nonneg (h : 0 ≤ pos.toInt) : pos.toNat < 2 ^ 31 ∧ pos.toInt = pos.toNat := by
  rw [BitVec.toInt_eq_toNat_cond] at h ⊢
  split at h <;> omega

theorem toInt_sdiv : (pos.sdiv 4096#32).toInt = pos.toInt.tdiv 4096 :=
  BitVec.toInt_sdiv_of_ne_or_ne _ _ (Or.inr (by decide))

theorem tdiv_neg {a : Int} (h : a < 0) : a.tdiv 4096 = -((-a) / 4096) := by
  rw [← Int.tdiv_eq_ediv_of_nonneg (by omega), Int.neg_tdiv, neg_neg]

/-- A position far below zero has a block number that is too large. -/
theorem sdiv_far (h : pos.toInt ≤ -4096) : ndirect + nindirect ≤ (pos.sdiv 4096#32).toNat := by
  have hdiv : (pos.sdiv 4096#32).toInt = pos.toInt.tdiv 4096 := toInt_sdiv
  have hneg : (pos.sdiv 4096#32).toInt < 0 := by
    rw [hdiv, tdiv_neg (by omega)]
    omega
  have hnat := (toInt_neg hneg).1
  unfold ndirect nindirect
  omega

/-- A position just below zero is taken for one in the first block. -/
theorem sdiv_near (hlo : -4096 < pos.toInt) (hneg : pos.toInt < 0) :
    (pos.sdiv 4096#32).toNat = 0 := by
  have hzero : (pos.sdiv 4096#32).toInt = 0 := by
    rw [toInt_sdiv, tdiv_neg hneg]
    omega
  have hnat := (toInt_nonneg (Int.le_of_eq hzero.symm)).2
  omega

/-- Just below zero, a turn takes all bytes that are left. -/
theorem chunk_near (hlo : -4096 < pos.toInt) (hneg : pos.toInt < 0) (hlt : pos < last) :
    chunk pos last = last - pos := by
  have hrem : pos.srem 4096#32 = pos := by
    refine BitVec.eq_of_toInt_eq ?_
    rw [BitVec.toInt_srem]
    have hmod : pos.toInt.tmod 4096 = pos.toInt := by
      rw [Int.tmod_def, tdiv_neg hneg]
      omega
    exact hmod
  obtain ⟨hnat, hint⟩ := toInt_neg hneg
  have hlast := last.isLt
  have hlt' : pos.toNat < last.toNat := hlt
  unfold chunk
  dsimp only
  rw [hrem, if_neg]
  intro hle
  have hle' : (4096#32 - pos).toNat ≤ (last - pos).toNat := hle
  rw [BitVec.toNat_sub, BitVec.toNat_sub] at hle'
  simp only [BitVec.toNat_ofNat] at hle'
  omega

end Signs

section Loops

variable {s s' : Fs} {f i buf n : Nat} {write : Bool} {pos last count offset c : U32}

namespace Fs

/-- The loop is over. -/
theorem copyFrom_done (h : ¬ pos < last) :
    Returns (copyFrom f write last buf pos n) (fun r s' => r = .ok () ∧ s' = s) s := by
  cases n with
  | zero => exact ⟨rfl, rfl⟩
  | succ n =>
      unfold copyFrom
      rw [if_neg h]
      exact ⟨rfl, rfl⟩

theorem fileGetBlock_large (h : ndirect + nindirect ≤ i) :
    Returns (fileGetBlock f i) (fun r s' => r = .error .inval ∧ s' = s) s := by
  unfold fileGetBlock fileBlockWalk
  rw [if_pos h]
  exact ⟨rfl, rfl⟩

/-- The first turn finds no block for a position far below zero. -/
theorem copyFrom_far (hlt : pos < last) (hn : 0 < n) (hfar : pos.toInt ≤ -4096) :
    Returns (copyFrom f write last buf pos n) (fun r s' => r = .error .inval ∧ s' = s) s := by
  obtain ⟨m, rfl⟩ : ∃ m, n = m + 1 := ⟨n - 1, by omega⟩
  unfold copyFrom
  rw [if_pos hlt]
  refine returns_bind (fileGetBlock_large (sdiv_far hfar)) (fun r s₁ h => ?_)
  obtain ⟨rfl, rfl⟩ := h
  exact ⟨rfl, rfl⟩

/-- With no block, and none free, there is an error. -/
theorem fileGetBlock_full (hs : Ready s) (howned : Owned s.view) (hf : Reach s.view f)
    (hzero : (slotOf f 0).val s.view = 0) (hfull : ∀ b, ¬ Free s.view b) :
    Returns (fileGetBlock f 0) (fun r _ => r = .error .noDisk) s := by
  have hlive : Live s.view (slotOf f 0) := hf.live (Nat.zero_lt_succ 9)
  unfold fileGetBlock
  refine returns_bind (fileBlockWalk_returns hs howned hf hlive.exist) (fun r s₁ h => ?_)
  obtain ⟨hloads₁, rfl⟩ := h
  refine returns_bind (loadWord_returns (hs.loads hloads₁) hlive.aligned
    ((hlive.fine hs howned).loads hloads₁)) (fun w s₂ h => ?_)
  obtain ⟨hloads₂, rfl⟩ := h
  have hloads := hloads₁.trans hloads₂
  have hw : word s₁.view ((slotOf f 0).va s.view) = 0#32 := by
    rw [hloads₁.view]
    exact BitVec.eq_of_toNat_eq hzero
  rw [if_pos hw]
  refine returns_bind (allocBlock_returns (hs.loads hloads)) (fun r s₃ h => ?_)
  obtain ⟨-, hr⟩ := h
  cases r with
  | none => exact rfl
  | some b =>
      rw [hloads.view] at hr
      exact absurd hr.2 (hfull b)

/-- Otherwise it is found, if the program goes on. -/
theorem fileGetBlock_first (hs : Ready s) (howned : Owned s.view) (hf : Reach s.view f)
    (hsome : (slotOf f 0).val s.view ≠ 0 ∨ ∃ b, Free s.view b) :
    wp (fileGetBlock f 0) (Partial (fun r _ => ∃ blk, r = .ok blk) (fun _ => False)) s := by
  have hany : Stable (fun _ => True) := ⟨fun _ h => h, fun _ _ _ h => h, fun _ h => h, fun _ h => h⟩
  have hlive : Live s.view (slotOf f 0) := hf.live (Nat.zero_lt_succ 9)
  unfold fileGetBlock
  refine wp_seq (fileBlockWalk_returns hs howned hf hlive.exist) (fun r s₁ h => ?_)
  obtain ⟨hloads₁, rfl⟩ := h
  refine wp_seq (loadWord_returns (hs.loads hloads₁) hlive.aligned
    ((hlive.fine hs howned).loads hloads₁)) (fun w s₂ h => ?_)
  obtain ⟨hloads₂, rfl⟩ := h
  have hloads := hloads₁.trans hloads₂
  rw [hloads₁.view]
  refine wp_ite (fun hzero => ?_) (fun _ => ?_)
  · refine wp_seq (allocBlock_returns (hs.loads hloads)) (fun r s₃ h => ?_)
    obtain ⟨-, hr⟩ := h
    cases r with
    | none =>
        rw [hloads.view] at hr
        rcases hsome with hne | ⟨b, hb⟩
        · exact absurd (congrArg BitVec.toNat hzero) hne
        · exact absurd hb (hr.2 b)
    | some b =>
        refine partial_bind (keeps_note hany _ _ trivial) (fun _ s₃ _ => ?_) (fun _ h => h)
        refine partial_bind (keeps_storeWord hany _ _ _ trivial) (fun _ s₄ _ => ?_) (fun _ h => h)
        refine partial_bind (keeps_diskaddr hany _ _ trivial) (fun _ s₅ _ => ?_) (fun _ h => h)
        refine partial_bind (keeps_flushBlock hany _ _ trivial) (fun _ s₆ _ => ?_) (fun _ h => h)
        refine partial_bind (keeps_loadWord hany _ _ trivial) (fun _ s₇ _ => ?_) (fun _ h => h)
        exact partial_bind (keeps_diskaddr hany _ _ trivial) (fun blk _ _ => ⟨blk, rfl⟩)
          (fun _ h => h)
  · exact partial_bind (keeps_diskaddr hany _ _ trivial) (fun blk _ _ => ⟨blk, rfl⟩) (fun _ h => h)

/-- Just below zero, there is one turn. -/
theorem copyFrom_near (hs : Ready s) (howned : Owned s.view) (hf : Reach s.view f)
    (hsome : (slotOf f 0).val s.view ≠ 0 ∨ ∃ b, Free s.view b)
    (hlo : -4096 < pos.toInt) (hneg : pos.toInt < 0) (hlt : pos < last) :
    wp (copyFrom f write last buf pos n) (Partial (fun r _ => r = .ok ()) (fun _ => False)) s := by
  have hany : Stable (fun _ => True) := ⟨fun _ h => h, fun _ _ _ h => h, fun _ h => h, fun _ h => h⟩
  cases n with
  | zero => exact rfl
  | succ n =>
      unfold copyFrom
      rw [if_pos hlt, sdiv_near hlo hneg]
      refine partial_bind (fileGetBlock_first hs howned hf hsome) (fun r s₁ h => ?_) (fun _ h => h)
      obtain ⟨blk, rfl⟩ := h
      refine partial_bind (keeps_note hany _ _ trivial) (fun _ s₂ _ => ?_) (fun _ h => h)
      refine partial_bind (keeps_memmove hany _ _ _ _ trivial) (fun _ s₃ _ => ?_) (fun _ h => h)
      have hend : pos + chunk pos last = last := by
        rw [chunk_near hlo hneg hlt]
        rw [BitVec.add_comm]
        exact BitVec.sub_add_cancel last pos
      rw [hend]
      exact wp_mono (copyFrom_done (BitVec.lt_irrefl last)) (fun _ _ h => h.1) (fun _ h => h)
        (fun _ _ => trivial)

theorem copyFrom_full (hs : Ready s) (howned : Owned s.view) (hf : Reach s.view f)
    (hzero : (slotOf f 0).val s.view = 0) (hfull : ∀ b, ¬ Free s.view b)
    (hlo : -4096 < pos.toInt) (hneg : pos.toInt < 0) (hlt : pos < last) (hn : 0 < n) :
    Returns (copyFrom f write last buf pos n) (fun r _ => r = .error .noDisk) s := by
  obtain ⟨m, rfl⟩ : ∃ m, n = m + 1 := ⟨n - 1, by omega⟩
  unfold copyFrom
  rw [if_pos hlt, sdiv_near hlo hneg]
  refine returns_bind (fileGetBlock_full hs howned hf hzero hfull) (fun r s₁ h => ?_)
  subst h
  exact rfl

/-- `file_read` up to its loop. -/
theorem fileRead_loop {Q : Post Fs U32} (hs : Ready s) (howned : Owned s.view)
    (hf : Reach s.view f) (hlt : offset.toInt < (fileSize s.view f).toInt)
    (h : ∀ s₁, Loads s s₁ → wp (copyFrom f false (offset + readCount s.view f count offset) buf
      offset (readCount s.view f count offset).toNat)
      ⟨fun r s' => Q.ret (readResult (readCount s.view f count offset) r) s', Q.exit, Q.stop⟩ s₁) :
    wp (fileRead f buf count offset) Q s := by
  unfold fileRead
  refine wp_seq (loadWord_field hs howned (a := 128) hf (by decide) (by decide))
    (fun w s₁ h₁ => ?_)
  obtain ⟨hloads, rfl⟩ := h₁
  have hsize : word s.view (f + 128) = fileSize s.view f := rfl
  rw [hsize, if_neg]
  · refine (wp_bind _ _ _).mpr (wp_mono (h s₁ hloads) (fun r s' hr => ?_) (fun _ h => h)
      (fun _ h => h))
    cases r with
    | error e => exact hr
    | ok u => exact hr
  · rw [BitVec.sle_iff_toInt_le]
    omega

theorem fileRead_beyond (hs : Ready s) (howned : Owned s.view) (hf : Reach s.view f)
    (hle : (fileSize s.view f).toInt ≤ offset.toInt) :
    Returns (fileRead f buf count offset) (fun r s' => r = 0#32 ∧ s'.view = s.view) s := by
  unfold fileRead
  refine returns_bind (loadWord_field hs howned (a := 128) hf (by decide) (by decide))
    (fun w s₁ h₁ => ?_)
  obtain ⟨hloads, rfl⟩ := h₁
  have hsize : word s.view (f + 128) = fileSize s.view f := rfl
  rw [hsize, if_pos (BitVec.sle_iff_toInt_le.mpr hle)]
  exact ⟨rfl, hloads.view⟩

/-- The end wraps around. -/
theorem fileRead_wraps (hs : Ready s) (howned : Owned s.view) (hf : Reach s.view f)
    (hlt : offset.toInt < (fileSize s.view f).toInt)
    (hwrap : ¬ offset < offset + readCount s.view f count offset) :
    Returns (fileRead f buf count offset) (fun r s' =>
      r = readCount s.view f count offset ∧ s'.view = s.view) s := by
  refine fileRead_loop hs howned hf hlt (fun s₁ hloads => ?_)
  refine Returns.mono (copyFrom_done hwrap) (fun r s₂ h => ?_)
  obtain ⟨rfl, rfl⟩ := h
  exact ⟨rfl, hloads.view⟩

end Fs

/-! ## What is reported -/

theorem readTo_zero {v : Bytes.Memory} {k : Nat} : readTo v f k buf 0 = v := by
  funext x
  exact if_neg (by omega)

/-- Nothing is reported for an offset outside the file. -/
theorem readsExactly_zero {v : Bytes.Memory}
    (h : offset.toInt < 0 ∨ (fileSize v f).toInt ≤ offset.toInt) :
    ReadsExactly v v f buf count offset 0#32 where
  copied := readTo_zero.symm
  inside := fun hne => absurd rfl hne
  length := fun hle hlt => by omega
  beyond := fun _ => rfl

theorem readsExactly_inside {v v' : Bytes.Memory} {r : U32} (hoffset : 0 ≤ offset.toInt)
    (hr : r.toNat = min count.toNat (fileLength v f - offset.toNat))
    (hview : v' = readTo v f offset.toNat buf r.toNat) :
    ReadsExactly v v' f buf count offset r := by
  obtain ⟨hnat, hint⟩ := toInt_nonneg hoffset
  unfold fileLength at hr
  refine ⟨hview, fun hne => ⟨hoffset, ?_⟩, fun _ hlt => by omega, fun hle => ?_⟩
  · have hpos : 0 < r.toNat := Nat.pos_of_ne_zero (fun hzero => hne (BitVec.eq_of_toNat_eq hzero))
    omega
  · exact BitVec.eq_of_toNat_eq (by rw [hr]; simp; omega)

/-- Whether the end wraps around. -/
theorem end_lt (hneg : offset.toInt < 0) :
    offset < offset + c ↔ 0 < c.toNat ∧ c.toNat < 2 ^ 32 - offset.toNat := by
  obtain ⟨hnat, -⟩ := toInt_neg hneg
  have hoff := offset.isLt
  have hc := c.isLt
  rw [BitVec.lt_def, BitVec.toNat_add]
  omega

variable {v : Bytes.Memory}

theorem readCount_zero (hzero : count = 0#32) : readCount v f count offset = 0#32 := by
  unfold readCount
  have hle : 0#32 ≤ fileSize v f - offset := Nat.zero_le _
  rw [hzero, if_pos hle]

theorem readCount_ne (hlt : offset.toInt < (fileSize v f).toInt) (hcount : count ≠ 0#32) :
    readCount v f count offset ≠ 0#32 := by
  unfold readCount
  split
  · exact hcount
  · intro hzero
    have heq : fileSize v f = offset := by
      have hsum := BitVec.sub_add_cancel (fileSize v f) offset
      rw [hzero, BitVec.zero_add] at hsum
      exact hsum.symm
    rw [heq] at hlt
    omega

/-- `file_read` reports what it has copied unless `ReadFails`. -/
theorem read_exact (hs : Ready s) (howned : Owned s.view) (hf : Reach s.view f)
    (hwhole : Whole s.view f)
    (hbuf : ∀ x, buf ≤ x → x < buf + min count.toNat (fileLength s.view f - offset.toNat) →
      ¬ InDisk x) :
    Returns (fileRead f buf count offset) (fun r s' => r.toInt < 0 ∨
      ReadsExactly s.view s'.view f buf count offset r) s ↔
    ¬ ReadFails s.view f count offset := by
  constructor
  · rintro hreturns ⟨hneg, hbelow, hcount, hsmall, hturn⟩
    have hne := readCount_ne hbelow hcount
    have hvalue : wp (fileRead f buf count offset)
        (Partial (fun r _ => r = readCount s.view f count offset) (fun _ => False)) s := by
      refine fileRead_loop hs howned hf hbelow (fun s₁ hloads => ?_)
      by_cases hlt : offset < offset + readCount s.view f count offset
      · have hroom := ((end_lt hneg).mp hlt).2
        obtain ⟨hlo, hsome⟩ := hturn.resolve_left (Nat.not_le.mpr hroom)
        have hs₁ := hs.loads hloads
        rw [← hloads.view] at howned hf hsome
        exact wp_mono (copyFrom_near hs₁ howned hf hsome hlo hneg hlt)
          (fun r _ hr => by rw [hr]; rfl) (fun _ h => h) (fun _ _ => trivial)
      · exact wp_mono (copyFrom_done hlt) (fun r _ hr => by rw [hr.1]; rfl) (fun _ h => h)
          (fun _ _ => trivial)
    obtain ⟨r, s', hrun, hr⟩ := returns_iff.mp hreturns
    obtain rfl : r = readCount s.view f count offset := wp_ret hvalue hrun
    rcases hr with herr | hexact
    · have hnat := (toInt_neg herr).1
      omega
    · have hle := (hexact.inside hne).1
      omega
  · intro hnot
    by_cases hoffset : 0 ≤ offset.toInt
    · refine Returns.mono (fileRead_returns hs howned hf hwhole (toInt_nonneg hoffset).1 hbuf)
        (fun r s' h => Or.inr (readsExactly_inside hoffset h.1 h.2.2))
    have hneg : offset.toInt < 0 := Int.lt_of_not_ge hoffset
    by_cases hbeyond : (fileSize s.view f).toInt ≤ offset.toInt
    · refine Returns.mono (fileRead_beyond hs howned hf hbeyond) (fun r s' h => Or.inr ?_)
      rw [h.1, h.2]
      exact readsExactly_zero (Or.inl hneg)
    have hbelow : offset.toInt < (fileSize s.view f).toInt := Int.lt_of_not_ge hbeyond
    by_cases hlt : offset < offset + readCount s.view f count offset
    · -- the loop runs, and its first turn is in error
      obtain ⟨hpos, hroom⟩ := (end_lt hneg).mp hlt
      have hnat := (toInt_neg hneg).1
      refine fileRead_loop hs howned hf hbelow (fun s₁ hloads => ?_)
      have hs₁ := hs.loads hloads
      by_cases hfar : offset.toInt ≤ -4096
      · refine Returns.mono (copyFrom_far hlt hpos hfar) (fun r s₂ h => Or.inl ?_)
        rw [h.1]
        exact FsErr.code_neg .inval
      · have hcount : count ≠ 0#32 := by
          intro hzero
          rw [readCount_zero hzero] at hpos
          exact absurd hpos (by decide)
        have hfull : ¬ ((slotOf f 0).val s.view ≠ 0 ∨ ∃ b, Free s.view b) := fun hsome =>
          hnot ⟨hneg, hbelow, hcount, by omega, Or.inr ⟨by omega, hsome⟩⟩
        obtain ⟨hzero, hnone⟩ := not_or.mp hfull
        rw [← hloads.view] at howned hf hzero hnone
        refine Returns.mono (copyFrom_full hs₁ howned hf (not_not.mp hzero)
          (not_exists.mp hnone) (by omega) hneg hlt hpos) (fun r s₂ h => Or.inl ?_)
        rw [h]
        exact FsErr.code_neg .noDisk
    · -- the loop does not run
      refine Returns.mono (fileRead_wraps hs howned hf hbelow hlt) (fun r s' h => ?_)
      obtain ⟨rfl, hview⟩ := h
      by_cases hcount : count = 0#32
      · rw [readCount_zero hcount, hview]
        exact Or.inr (readsExactly_zero (Or.inl hneg))
      · refine Or.inl ?_
        have hne := readCount_ne hbelow hcount
        have hpos : 0 < (readCount s.view f count offset).toNat :=
          Nat.pos_of_ne_zero (fun hzero => hne (BitVec.eq_of_toNat_eq hzero))
        have hwrap : 2 ^ 32 - offset.toNat ≤ (readCount s.view f count offset).toNat :=
          Nat.le_of_not_lt (fun hroom => hlt ((end_lt hneg).mpr ⟨hpos, hroom⟩))
        have hlarge : 2 ^ 31 ≤ (readCount s.view f count offset).toNat :=
          Nat.le_of_not_lt (fun hsmall => hnot ⟨hneg, hbelow, hcount, hsmall, Or.inl hwrap⟩)
        rw [BitVec.toInt_eq_toNat_cond, if_neg (by omega)]
        have hlt := (readCount s.view f count offset).isLt
        omega

theorem read_exact_three : ∃ s f, Returns (fileRead f 0 2#32 1#32) (fun r s' => r.toInt < 0 ∨
    ReadsExactly s.view s'.view f 0 2#32 1#32 r) s ↔ ¬ ReadFails s.view f 2#32 1#32 :=
  ⟨threeFs, blkVa 4, read_exact threeFs_mount.ready threeFs_mount.owned threeFs_file.1
    threeFs_file.2.2.2 (fun x _ hlt => by
      have hsmall : x < 2 := by
        simp only [BitVec.toNat_ofNat] at hlt
        omega
      unfold InDisk diskmap
      omega)⟩

/-- Two bytes at offset `-1` of a file of three bytes are reported, but none is copied. -/
theorem not_read_exact : ¬ ∀ (s : Fs) (f buf : Nat) (count offset : U32), Ready s →
    Owned s.view → Reach s.view f → Whole s.view f →
    (∀ x, buf ≤ x → x < buf + min count.toNat (fileLength s.view f - offset.toNat) → ¬ InDisk x) →
    Returns (fileRead f buf count offset) (fun r s' => r.toInt < 0 ∨
      ReadsExactly s.view s'.view f buf count offset r) s := by
  intro hall
  obtain ⟨hf, -, hsize, hwhole⟩ := threeFs_file
  have hcount : readCount threeFs.view (blkVa 4) 2#32 (-1#32) = 2#32 := by
    unfold readCount
    rw [hsize]
    decide
  have hwraps : Returns (fileRead (blkVa 4) 0 2#32 (-1#32)) (fun r s' =>
      r = readCount threeFs.view (blkVa 4) 2#32 (-1#32) ∧ s'.view = threeFs.view) threeFs :=
    fileRead_wraps threeFs_mount.ready threeFs_mount.owned hf (by rw [hsize]; decide)
      (by rw [hcount]; decide)
  have hexact := hall threeFs (blkVa 4) 0 2#32 (-1#32) threeFs_mount.ready threeFs_mount.owned hf
    hwhole (fun x _ hlt => by
      have hsmall : x < 2 := by
        simp only [BitVec.toNat_ofNat] at hlt
        omega
      unfold InDisk diskmap
      omega)
  obtain ⟨r, s', hrun, hr⟩ := returns_iff.mp hexact
  obtain ⟨rfl, -⟩ : r = readCount threeFs.view (blkVa 4) 2#32 (-1#32) ∧ _ := wp_ret hwraps hrun
  rw [hcount] at hr
  rcases hr with herr | hexact
  · exact absurd herr (by decide)
  · exact absurd (hexact.inside (by decide)).1 (by decide)

end Loops

end Jos

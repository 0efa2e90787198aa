import Jos.FileTree

/-!
# Reading blocks that are in use

A disk is `Ready` once `fs_init` has returned: the super block and the first block of
the bitmap are in memory, and the reserved blocks are in use.  Nothing then goes wrong
when a block that is in use is read in, and so the accesses of `fs/bc.c` return.
-/

namespace Jos

open Programs Bytes

/-- What is known of a run that returns, also of one that is known to return. -/
theorem returns_of_wp {σ α : Type} {m : Prog σ α} {Q : Post σ α} {R : α → σ → Prop} {s : σ}
    (h : wp m Q s) (h' : Returns m R s) : Returns m (fun a s' => Q.ret a s' ∧ R a s') s := by
  obtain ⟨a, s', hrun, hR⟩ := returns_iff.mp h'
  exact returns_iff.mpr ⟨a, s', hrun, wp_ret h hrun, hR⟩

/-- A block of the disk that is not free. -/
structure InUse (v : Bytes.Memory) (b : Nat) : Prop where
  lt : b < diskBlocks v
  used : ¬ Free v b

/-- The file server is ready. -/
structure Ready (s : Fs) : Prop where
  super : s.mapped 1 = true
  bits : s.mapped 2 = true
  checked : Checked s.view

/-- An address that can be used: its block is in memory or in use. -/
def Fine (s : Fs) (va : Nat) : Prop :=
  InDisk va → s.mapped (blockOf va) = true ∨ InUse s.view (blockOf va)

section Reads

variable {s s' : Fs} {v v' : Bytes.Memory} {b va n : Nat}

theorem Ready.loads (hs : Ready s) (h : Loads s s') : Ready s' where
  super := h.mapped 1 hs.super
  bits := h.mapped 2 hs.bits
  checked := by
    rw [h.view]
    exact hs.checked

/-- The block of the bitmap that has the bit of a block of the disk is in use. -/
theorem Ready.bitmap_inUse (hs : Ready s) (hb : b < diskBlocks s.view)
    (hun : s.mapped (2 + b / 32768) = false) : InUse s.view (2 + b / 32768) := by
  have hfar : b / 32768 ≠ 0 := by
    intro hzero
    rw [hzero] at hun
    simp [hs.bits] at hun
  refine ⟨by omega, hs.checked.reserved _ ?_⟩
  unfold firstBlock
  omega

theorem Fine.loads (h : Fine s va) (hloads : Loads s s') : Fine s' va := fun hdisk =>
  (h hdisk).elim (fun hm => Or.inl (hloads.mapped _ hm)) (fun huse => Or.inr (hloads.view ▸ huse))

theorem InUse.fine (h : InUse s.view (blockOf va)) : Fine s va := fun _ => Or.inr h

theorem blockOf_bitmapVa : blockOf (bitmapVa b) = 2 + b / 32768 := by
  unfold blockOf bitmapVa diskmap blksize
  omega

namespace Fs

/-- A word of a block in memory is loaded at any depth. -/
theorem loadNested_mapped (hva : va % 4 = 0) (hmapped : s.mapped (blockOf va) = true) :
    (loadNested n va).run s = .ret (word s.view va) s := by
  have hword : word s.mem va = word s.view va := word_view_of_mapped (fun _ => hmapped) hva
  have hno : ¬ s.mapped (blockOf va) = false := by simp [hmapped]
  rw [← hword]
  cases n with
  | zero =>
      unfold loadNested
      rw [Prog.run_bind_ret (Prog.run_get s), Prog.run_bind_ret (Prog.run_when_false hno)]
      rfl
  | succ n =>
      unfold loadNested
      rw [Prog.run_bind_ret (Prog.run_get s), Prog.run_bind_ret (Prog.run_when_false hno)]
      rfl

/-- A way to read words that returns the word of the memory. -/
abbrev Finds (s : Fs) (read : Nat → FsProg U32) (va : Nat) : Prop :=
  ∀ t, Loads s t → Returns (read va) (fun w u => Loads t u ∧ w = word t.view va) t

theorem loadNested_finds (hva : va % 4 = 0) (hmapped : s.mapped (blockOf va) = true) :
    Finds s (loadNested n) va := fun t ht =>
  returns_iff.mpr ⟨_, t, loadNested_mapped hva (ht.mapped _ hmapped), Loads.refl, rfl⟩

/-- `bc_pgfault` for a block that is in use. -/
theorem pgfault_returns (huse : InUse s.view b) (hsuper : s.mapped 1 = true)
    (hun : s.mapped b = false)
    (hbits : ∀ t, Loads s t → t.mapped b = true → Returns (loadNested n (bitmapVa b))
      (fun w u => Loads t u ∧ w = word t.view (bitmapVa b)) t) :
    Returns (pgfault (loadNested n) b) (fun _ s' => Loads s s' ∧ s'.mapped b = true) s := by
  have hread : ∀ t, Loads s t →
      (loadNested n snblocksVa).run t = .ret (word s.view snblocksVa) t := by
    intro t ht
    rw [← ht.view]
    refine loadNested_mapped (by decide) ?_
    rw [blockOf_snblocksVa]
    exact ht.mapped 1 hsuper
  have hlt : ¬ (word s.view snblocksVa).toNat ≤ b := Nat.not_le.mpr huse.lt
  have hin := pageIn_loads hun
  unfold pgfault
  refine wp_ret_bind (hread s Loads.refl) ?_
  refine (wp_bind _ _ _).mpr (wp_when (fun hle => absurd hle hlt) (fun _ => ?_))
  refine wp_modify_bind.mpr (returns_bind
    (R := fun free s' => Loads s s' ∧ s'.mapped b = true ∧ free = false) ?_
    (fun free s₂ h => wp_when (fun hfree => ?_) (fun _ => ⟨h.1, h.2.1⟩)))
  · unfold isFree
    refine wp_ret_bind (hread _ hin) ?_
    rw [if_neg hlt]
    refine returns_bind (hbits _ hin (Function.update_self _ _ _)) (fun w s₂ h => ?_)
    obtain ⟨hloads, rfl⟩ := h
    refine ⟨hin.trans hloads, hloads.mapped b (Function.update_self _ _ _), ?_⟩
    rw [hin.view]
    cases hbit : (Bytes.word s.view (bitmapVa b)).getLsbD (b % 32) with
    | false => rfl
    | true => exact absurd ⟨huse.lt, hbit⟩ huse.used
  · rw [h.2.2] at hfree
    cases hfree

theorem loadNested_bits (hs : Ready s) (hb : b < diskBlocks s.view) :
    Finds s (loadNested 1) (bitmapVa b) := by
  intro t ht
  have ht' := hs.loads ht
  have hb' : b < diskBlocks t.view := by
    rw [ht.view]
    exact hb
  cases hm : t.mapped (blockOf (bitmapVa b)) with
  | true => exact loadNested_finds bitmapVa_aligned hm t Loads.refl
  | false =>
      have hblocks : diskBlocks s.view ≤ 786432 := hs.checked.blocks
      rw [blockOf_bitmapVa] at hm
      have huse := ht'.bitmap_inUse hb' hm
      have hfirst : blockOf (bitmapVa (2 + b / 32768)) = 2 := by
        rw [blockOf_bitmapVa]
        omega
      have hbits : Finds t (loadNested 0) (bitmapVa (2 + b / 32768)) :=
        loadNested_finds bitmapVa_aligned (by rw [hfirst]; exact ht'.bits)
      unfold loadNested
      refine wp_get_bind.mpr ((wp_bind _ _ _).mpr (wp_when (fun _ => ?_) (fun hno => ?_)))
      · rw [blockOf_bitmapVa]
        refine Returns.mono (pgfault_returns huse ht'.super hm (fun u hu _ => hbits u hu))
          (fun _ u h => ⟨h.1, ?_⟩)
        rw [← h.1.view]
        refine word_view_of_mapped (fun _ => ?_) bitmapVa_aligned
        rw [blockOf_bitmapVa]
        exact h.2
      · rw [blockOf_bitmapVa] at hno
        exact absurd hm hno

theorem touch_returns (hs : Ready s) (hfine : Fine s va) :
    Returns (touch va) (fun _ s' => Loads s s' ∧
      (InDisk va → s'.mapped (blockOf va) = true)) s := by
  unfold touch
  refine wp_get_bind.mpr (wp_when (fun h => ?_) (fun hno => ⟨Loads.refl, fun hdisk => ?_⟩))
  · have huse : InUse s.view (blockOf va) := (hfine h.1).resolve_left (by simp [h.2])
    exact Returns.mono
      (pgfault_returns huse hs.super h.2 (fun u hu _ => loadNested_bits hs huse.lt u hu))
      (fun _ _ h => ⟨h.1, fun _ => h.2⟩)
  · cases hm : s.mapped (blockOf va) with
    | true => rfl
    | false => exact absurd ⟨hdisk, hm⟩ hno

theorem loadByte_returns (hs : Ready s) (hfine : Fine s va) :
    Returns (loadByte va) (fun x s' => Loads s s' ∧ x = s.view va) s := by
  have htotal : Returns (loadByte va) (fun _ _ => True) s :=
    returns_bind (touch_returns hs hfine) (fun _ _ _ => trivial)
  exact Returns.mono (returns_of_wp loadByte_wp htotal) (fun _ _ h => ⟨h.1.1, h.1.2.1⟩)

theorem loadWord_returns (hs : Ready s) (hva : va % 4 = 0) (hfine : Fine s va) :
    Returns (loadWord va) (fun w s' => Loads s s' ∧ w = Bytes.word s.view va) s := by
  have htotal : Returns (loadWord va) (fun _ _ => True) s :=
    returns_bind (touch_returns hs hfine) (fun _ _ _ => trivial)
  exact Returns.mono (returns_of_wp (loadWord_wp hva) htotal) (fun _ _ h => ⟨h.1.1, h.1.2.1⟩)

/-- A word of a block in memory is loaded. -/
theorem loadWord_mapped (hva : va % 4 = 0) (hmapped : s.mapped (blockOf va) = true) :
    Returns (loadWord va) (fun w s' => s' = s ∧ w = Bytes.word s.view va) s := by
  have hno : ¬ (InDisk va ∧ s.mapped (blockOf va) = false) := by simp [hmapped]
  have hword : Bytes.word s.mem va = Bytes.word s.view va :=
    word_view_of_mapped (fun _ => hmapped) hva
  unfold loadWord touch
  refine (wp_bind _ _ _).mpr (wp_get_bind.mpr (wp_when (fun h => absurd h hno) (fun _ => ?_)))
  exact ⟨rfl, hword⟩

/-- The super block is in memory. -/
theorem loadWord_super (hsuper : s.mapped 1 = true) :
    Returns (loadWord snblocksVa) (fun w s' => s' = s ∧ w = Bytes.word s.view snblocksVa) s :=
  loadWord_mapped (by decide) (by rw [blockOf_snblocksVa]; exact hsuper)

/-- The word of the bitmap for a block of the disk can be used. -/
theorem bitmap_fine (hs : Ready s) (hb : b < diskBlocks s.view) : Fine s (bitmapVa b) := by
  intro _
  rw [blockOf_bitmapVa]
  cases hm : s.mapped (2 + b / 32768) with
  | true => exact Or.inl rfl
  | false => exact Or.inr (hs.bitmap_inUse hb hm)

/-- `block_is_free`. -/
theorem blockIsFree_returns (hs : Ready s) :
    Returns (blockIsFree b) (fun r s' => Loads s s' ∧ r = decide (Free s.view b)) s := by
  have htotal : Returns (blockIsFree b) (fun _ _ => True) s := by
    unfold blockIsFree isFree
    refine returns_bind (loadWord_super hs.super) (fun w s₁ h => ?_)
    obtain ⟨rfl, rfl⟩ := h
    refine wp_ite (fun _ => trivial) (fun hlt => ?_)
    exact returns_bind (loadWord_returns hs bitmapVa_aligned
      (bitmap_fine hs (Nat.lt_of_not_le hlt))) (fun _ _ _ => trivial)
  exact Returns.mono (returns_of_wp (isFree_wp (fun s va hva _ =>
    wp_mono (loadWord_wp hva) (fun _ _ h => ⟨h.1, h.2.1⟩) (fun _ h => h) (fun _ h => h))) htotal)
    (fun _ _ h => h.1)

/-- `diskaddr` of a block of the disk, with the super block in memory. -/
theorem diskaddr_mapped (hsuper : s.mapped 1 = true) (hne : b ≠ 0)
    (hlt : b < diskBlocks s.view) :
    Returns (diskaddr b) (fun r s' => s' = s ∧ r = blkVa b) s := by
  unfold diskaddr
  refine returns_bind (loadWord_super hsuper) (fun w s₁ h => ?_)
  obtain ⟨rfl, rfl⟩ := h
  refine (wp_bind _ _ _).mpr (wp_when (fun hbad => ?_) (fun _ => ⟨rfl, rfl⟩))
  rcases hbad with hzero | hle
  · exact hne hzero
  · exact absurd hlt (Nat.not_lt.mpr hle)

theorem diskaddr_returns (hs : Ready s) (hne : b ≠ 0) (hlt : b < diskBlocks s.view) :
    Returns (diskaddr b) (fun r s' => s' = s ∧ r = blkVa b) s :=
  diskaddr_mapped hs.super hne hlt

/-- The store of a word in a block that is in memory. -/
theorem storeWord_mapped {w : U32} (hva : va % 4 = 0)
    (hmapped : s.mapped (blockOf va) = true) :
    Returns (storeWord va w) (fun _ s' => Stores s s' (setWord s.view va w) va 4) s := by
  have htotal : Returns (storeWord va w) (fun _ _ => True) s := by
    unfold storeWord touch
    refine (wp_bind _ _ _).mpr (wp_get_bind.mpr (wp_when (fun h => ?_) (fun _ => trivial)))
    simp [hmapped] at h
  exact Returns.mono (returns_of_wp (storeWord_wp hva) htotal) (fun _ _ h => h.1)

/-- A range of addresses whose blocks are in use. -/
theorem touchRange_returns (hs : Ready s)
    (hfine : ∀ x, va ≤ x → x < va + n → Fine s x) :
    Returns (touchRange va n) (fun _ s' => Loads s s') s := by
  have hblocks : ∀ p, va / blksize ≤ p → p ≤ (va + n - 1) / blksize → 0 < n →
      Fine s (p * blksize) := by
    intro p hle hlt hn hdisk
    have hpage : ∃ x, va ≤ x ∧ x < va + n ∧ x / blksize = p := by
      unfold blksize at *
      by_cases hva : va ≤ p * 4096
      · exact ⟨p * 4096, hva, by omega, by omega⟩
      · exact ⟨va, Nat.le_refl va, by omega, by omega⟩
    obtain ⟨x, hle', hlt', hx⟩ := hpage
    have hin : InDisk x ∧ blockOf x = blockOf (p * blksize) := by
      unfold InDisk blockOf diskmap disksize blksize at *
      omega
    rw [← hin.2]
    exact hfine x hle' hlt' hin.1
  unfold touchRange
  refine wp_when (fun hn => ?_) (fun _ => Loads.refl)
  refine wp_forRange (fun _ s' => Loads s s') _ _ (fun p s' hle hlt h => ?_) (fun _ h => h)
    Loads.refl
  refine Returns.mono (touch_returns (hs.loads h) (Fine.loads ?_ h)) (fun _ _ h' => h.trans h'.1)
  rw [← Nat.add_sub_assoc (Nat.le_succ_of_le (Nat.div_le_div_right (by omega)))] at hlt
  exact hblocks p hle (by omega) hn

theorem memmove_returns {dst src : Nat} (hs : Ready s)
    (hsrc : ∀ x, src ≤ x → x < src + n → Fine s x)
    (hdst : ∀ x, dst ≤ x → x < dst + n → Fine s x) :
    Returns (memmove dst src n) (fun _ s' => Stores s s' (move s.view dst src n) dst n) s := by
  have htotal : Returns (memmove dst src n) (fun _ _ => True) s := by
    unfold memmove
    refine returns_bind (touchRange_returns hs hsrc) (fun _ s₁ h₁ => ?_)
    exact returns_bind
      (touchRange_returns (hs.loads h₁) (fun x hle hlt => (hdst x hle hlt).loads h₁))
      (fun _ _ _ => trivial)
  exact Returns.mono (returns_of_wp memmove_wp htotal) (fun _ _ h => h.1)

theorem storeWord_returns {w : U32} (hs : Ready s) (hva : va % 4 = 0) (hfine : Fine s va) :
    Returns (storeWord va w) (fun _ s' => Stores s s' (setWord s.view va w) va 4) s := by
  have htotal : Returns (storeWord va w) (fun _ _ => True) s :=
    returns_bind (touch_returns hs hfine) (fun _ _ _ => trivial)
  exact Returns.mono (returns_of_wp (storeWord_wp hva) htotal) (fun _ _ h => h.1)

/-- What a flush leaves: the same memory for the program. -/
structure Flushed (s s' : Fs) : Prop where
  view : s'.view = s.view
  mapped : s'.mapped = s.mapped

theorem flushBlock_returns (hdisk : InDisk va) :
    Returns (flushBlock va) (fun _ s' => Flushed s s') s := by
  have hwp : wp (flushBlock va) ⟨fun _ s' => Flushed s s', fun _ => False, fun _ => False⟩ s := by
    refine wp_mono flushBlock_wp (fun _ s' h => ?_) (fun _ h => h) (fun _ h => h.2 hdisk)
    rcases h.2 with ⟨rfl, -⟩ | ⟨hmapped, -, rfl⟩
    · exact ⟨rfl, rfl⟩
    · exact ⟨view_writeBack hmapped, rfl⟩
  exact hwp

end Fs

end Reads

end Jos

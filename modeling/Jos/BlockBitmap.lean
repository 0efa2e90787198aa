import Mathlib.Order.Bounds.Basic
import Jos.BlockAllocation

/-!
# The block bitmap, whatever it says

`alloc_block` hands out the first free block also when the bitmap spans many blocks and
marks reserved blocks free.  A block of the bitmap that is not in memory is read in when the
scan comes to its bits; its own bit has been passed by then, so that the check in
`bc_pgfault` finds it in use.
-/

namespace Jos

open Programs Bytes Fs

namespace BlockBitmap

/-- The bit of a block. -/
def bit (v : Bytes.Memory) (b : Nat) : Bool := (word v (bitmapVa b)).getLsbD (b % 32)

/-- After `fs_init` the super block and the first block of the bitmap are in memory; the
bitmap fits on the disk, and the disk in the disk map. -/
structure Initialised (s : Fs) : Prop where
  super : s.mapped 1 = true
  bits : s.mapped 2 = true
  fits : firstBlock s.view ≤ diskBlocks s.view
  blocks : diskBlocks s.view ≤ disksize / blksize

/-- Block `b` is handed out: it was the least free one, only its bit is cleared, and the
block with its bit is what is written to the disk. -/
structure Allocated (s s' : Fs) (b : Nat) : Prop where
  least : IsLeast {c | Free s.view c} b
  bit : ∀ c, bit s'.view c = (bit s.view c && decide (c ≠ b))
  rest : ∀ x, x < bitmapVa b ∨ bitmapVa b + 4 ≤ x → s'.view x = s.view x
  flushed : s'.trace = (.flushed (blockOf (bitmapVa b)), s'.toStore) :: s.trace
  disk : ∀ x, s'.disk x =
    if x / blksize = blockOf (bitmapVa b) then s'.view (diskmap + x) else s.disk x

/-- No block is free, and nothing has changed. -/
structure Full (s s' : Fs) : Prop where
  none : ∀ c, ¬ Free s.view c
  view : s'.view = s.view
  disk : s'.disk = s.disk
  trace : s'.trace = s.trace

section

variable {s s' : Fs} {v : Bytes.Memory} {b c n : Nat}

theorem Initialised.loads (hs : Initialised s) (h : Loads s s') : Initialised s' where
  super := h.mapped 1 hs.super
  bits := h.mapped 2 hs.bits
  fits := h.view ▸ hs.fits
  blocks := h.view ▸ hs.blocks

theorem Allocated.loads {s₁ : Fs} (h : Allocated s₁ s' b) (hloads : Loads s s₁) :
    Allocated s s' b where
  least := hloads.view ▸ h.least
  bit := hloads.view ▸ h.bit
  rest := hloads.view ▸ h.rest
  flushed := hloads.trace ▸ h.flushed
  disk := hloads.disk ▸ h.disk

theorem Full.loads {s₁ : Fs} (h : Full s₁ s') (hloads : Loads s s₁) : Full s s' where
  none := hloads.view ▸ h.none
  view := h.view.trans hloads.view
  disk := h.disk.trans hloads.disk
  trace := h.trace.trans hloads.trace

/-- The bits of the blocks before one that is scanned, among them the one of the block that
its own bit is in. -/
theorem Initialised.bitmap_inUse (hs : Initialised s) (hb : b < diskBlocks s.view)
    (hlow : ∀ c, c < b → ¬ Free s.view c) (hun : s.mapped (2 + b / 32768) = false) :
    InUse s.view (2 + b / 32768) := by
  have hfar : b / 32768 ≠ 0 := by
    intro hzero
    rw [hzero] at hun
    simp [hs.bits] at hun
  have hbefore : 2 + b / 32768 < b := by omega
  exact ⟨by omega, hlow _ hbefore⟩

/-- The word with the next bit of the scan can be read. -/
theorem touch_bitmap (hs : Initialised s) (hb : b < diskBlocks s.view)
    (hlow : ∀ c, c < b → ¬ Free s.view c) :
    Returns (touch (bitmapVa b)) (fun _ s' => Loads s s' ∧
      s'.mapped (blockOf (bitmapVa b)) = true) s := by
  have hblocks : diskBlocks s.view ≤ 786432 := hs.blocks
  have hin : InDisk (bitmapVa b) := bitmapVa_inDisk (by omega)
  unfold touch
  refine wp_get_bind.mpr (wp_when (fun h => ?_) (fun hno => ⟨Loads.refl, ?_⟩))
  · have hun := h.2
    rw [blockOf_bitmapVa] at hun ⊢
    have huse := hs.bitmap_inUse hb hlow hun
    -- its own bit is in the first block of the bitmap
    have hfirst : blockOf (bitmapVa (2 + b / 32768)) = 2 := by
      rw [blockOf_bitmapVa]
      omega
    have hbits : Finds s (loadNested 1) (bitmapVa (2 + b / 32768)) :=
      loadNested_finds bitmapVa_aligned (by rw [hfirst]; exact hs.bits)
    exact pgfault_returns huse hs.super hun (fun u hu _ => hbits u hu)
  · cases hm : s.mapped (blockOf (bitmapVa b)) with
    | true => rfl
    | false => exact absurd ⟨hin, hm⟩ hno

theorem loadWord_bitmap (hs : Initialised s) (hb : b < diskBlocks s.view)
    (hlow : ∀ c, c < b → ¬ Free s.view c) :
    Returns (loadWord (bitmapVa b)) (fun w s' => Loads s s' ∧
      w = Bytes.word s.view (bitmapVa b) ∧ s'.mapped (blockOf (bitmapVa b)) = true) s := by
  unfold loadWord
  refine returns_bind (touch_bitmap hs hb hlow) (fun _ s₁ h => ?_)
  refine ⟨h.1, ?_, h.2⟩
  rw [← h.1.view]
  exact word_view_of_mapped (fun _ => h.2) bitmapVa_aligned

/-- `block_is_free`, in the scan. -/
theorem blockIsFree_scan (hs : Initialised s) (hb : b < diskBlocks s.view)
    (hlow : ∀ c, c < b → ¬ Free s.view c) :
    Returns (blockIsFree b) (fun r s' => Loads s s' ∧ r = decide (Free s.view b) ∧
      s'.mapped (blockOf (bitmapVa b)) = true) s := by
  unfold blockIsFree isFree
  refine returns_bind (loadWord_super hs.super) (fun w s₁ h => ?_)
  obtain ⟨rfl, rfl⟩ := h
  have hlt : b < (Bytes.word s₁.view snblocksVa).toNat := hb
  rw [if_neg (Nat.not_le.mpr hlt)]
  refine returns_bind (loadWord_bitmap hs hb hlow) (fun w s₂ h => ?_)
  obtain ⟨hloads, rfl, hmapped⟩ := h
  refine ⟨hloads, ?_, hmapped⟩
  unfold Free
  simp [hlt]

theorem blockOf_blkVa : blockOf (blkVa b) = b := by
  unfold blockOf blkVa
  rw [Nat.add_sub_cancel_left]
  exact Nat.mul_div_cancel b (by decide)

/-- `flush_block` of a block that was written to. -/
theorem flushBlock_dirty (hdisk : InDisk (blkVa b)) (hmapped : s.mapped b = true)
    (hdirty : s.dirty b = true) :
    Returns (flushBlock (blkVa b)) (fun _ s' => s' = { s with
      toStore := s.writeBack b
      trace := (.flushed b, s.writeBack b) :: s.trace }) s := by
  refine wp_mono flushBlock_wp (fun _ s' h => ?_) (fun _ h => h) (fun _ h => h.2 hdisk)
  rw [blockOf_blkVa] at h
  rcases h.2 with ⟨-, hclean | hunmapped⟩ | ⟨-, -, heq⟩
  · simp [hdirty] at hclean
  · simp [hmapped] at hunmapped
  · exact heq

/-- A store in a word of the bitmap leaves the number of blocks. -/
theorem diskBlocks_setWord (w : U32) : diskBlocks (setWord v (bitmapVa b) w) = diskBlocks v := by
  unfold diskBlocks
  refine congrArg BitVec.toNat (word_setWord_of_apart (Or.inl ?_))
  rw [bitmapVa_eq]
  exact Nat.le_trans snblocksVa_lt (Nat.le_add_right _ _)

/-- A block that was written to is dirty. -/
theorem Stores.dirty_bitmap (h : Stores s s' v (bitmapVa b) 4) :
    s'.dirty (blockOf (bitmapVa b)) = true := by
  obtain ⟨s₁, -, -, hdirty⟩ := h.dirty
  rw [hdirty, blockOf_bitmapVa]
  have hin : 0 < 4 ∧ bitmapVa b < diskmap + (2 + b / 32768 + 1) * blksize ∧
      diskmap + (2 + b / 32768) * blksize < bitmapVa b + 4 := by
    unfold bitmapVa blksize
    omega
  simp [hin]

/-- The end of `alloc_block`, when block `b` is the first free one. -/
theorem takeBlock_returns (hs : Initialised s) (hfree : IsLeast {c | Free s.view c} b)
    (hmapped : s.mapped (blockOf (bitmapVa b)) = true) :
    Returns (do
      let w ← loadWord (bitmapVa b)
      storeWord (bitmapVa b) (w &&& ~~~(1#32 <<< (b % 32)))
      let va ← diskaddr (2 + b / 32 / nindirect)
      flushBlock va
      pure (some b))
      (fun r s' => r = some b ∧ Initialised s' ∧ Allocated s s' b) s := by
  have hlt : b < diskBlocks s.view := hfree.1.1
  have hblocks : diskBlocks s.view ≤ 786432 := hs.blocks
  have hfits := hs.fits
  have hdiv : 2 + b / 32 / nindirect = blockOf (bitmapVa b) := by
    rw [blockOf_bitmapVa]
    unfold nindirect
    omega
  have hbits : blockOf (bitmapVa b) < diskBlocks s.view := by
    rw [blockOf_bitmapVa]
    unfold firstBlock at hfits
    omega
  have hne : blockOf (bitmapVa b) ≠ 0 := by
    rw [blockOf_bitmapVa]
    omega
  refine returns_bind (loadWord_mapped bitmapVa_aligned hmapped) (fun w s₁ h₁ => ?_)
  obtain ⟨rfl, rfl⟩ := h₁
  refine returns_bind (storeWord_mapped bitmapVa_aligned hmapped) (fun _ s₂ h₂ => ?_)
  have hview : s₂.view = takeBit s₁.view b := h₂.view
  have hsame : diskBlocks s₂.view = diskBlocks s₁.view := by
    rw [hview]
    exact diskBlocks_setWord _
  rw [hdiv]
  refine returns_bind (diskaddr_mapped (h₂.mapped 1 hs.super) hne (by rw [hsame]; exact hbits))
    (fun va s₃ h₃ => ?_)
  obtain ⟨rfl, rfl⟩ := h₃
  have hdisk : InDisk (blkVa (blockOf (bitmapVa b))) := by
    unfold InDisk blkVa disksize blksize
    omega
  refine returns_bind (flushBlock_dirty hdisk (h₂.mapped _ hmapped) (Stores.dirty_bitmap h₂))
    (fun _ s₄ h₄ => ?_)
  have hsees : s₄.view = takeBit s₁.view b := by
    rw [h₄, ← hview]
    exact view_writeBack (h₂.mapped _ hmapped)
  have hagain : diskBlocks s₄.view = diskBlocks s₁.view := by
    rw [hsees]
    exact diskBlocks_setWord _
  refine ⟨rfl, ⟨?_, ?_, ?_, ?_⟩, hfree, fun c => ?_, fun x hx => ?_, ?_, fun x => ?_⟩
  · rw [h₄]
    exact h₂.mapped 1 hs.super
  · rw [h₄]
    exact h₂.mapped 2 hs.bits
  · unfold firstBlock
    rw [hagain]
    exact hs.fits
  · rw [hagain]
    exact hs.blocks
  · rw [hsees]
    exact bit_clear
  · rw [hsees]
    exact setWord_of_apart hx
  · rw [h₄, ← h₂.trace]
  · rw [hsees, ← hview, h₄]
    change (if x / blksize = _ then s₃.mem (diskmap + x) else s₃.disk x) = _
    by_cases hx : x / blksize = blockOf (bitmapVa b)
    · rw [if_pos hx, if_pos hx]
      have hblock : blockOf (diskmap + x) = blockOf (bitmapVa b) := by
        unfold blockOf
        rw [Nat.add_sub_cancel_left]
        exact hx
      exact (view_of_mapped (fun _ => by rw [hblock]; exact h₂.mapped _ hmapped)).symm
    · rw [if_neg hx, if_neg hx, h₂.disk]

/-- The scan of `alloc_block`, from a block before which none is free. -/
theorem allocFrom_least (hs : Initialised s) (hn : b + n = diskBlocks s.view)
    (hlow : ∀ c, c < b → ¬ Free s.view c) :
    Returns (allocFrom b n) (fun r s' => Initialised s' ∧ match r with
      | none => Full s s'
      | some c => Allocated s s' c) s := by
  induction n generalizing b s with
  | zero =>
      refine ⟨hs, fun c hf => hlow c ?_ hf, rfl, rfl, rfl⟩
      have hc := hf.lt
      omega
  | succ n ih =>
      unfold allocFrom
      refine returns_bind (blockIsFree_scan hs (by omega) hlow) (fun free s₁ h₁ => ?_)
      obtain ⟨hloads, rfl, hmapped⟩ := h₁
      have hs₁ := hs.loads hloads
      refine wp_ite (fun hfree => ?_) (fun hfree => ?_)
      · have hleast : IsLeast {c | Free s₁.view c} b := by
          rw [hloads.view]
          refine ⟨of_decide_eq_true hfree, fun c hc => ?_⟩
          exact Nat.le_of_not_lt (fun hcb => hlow c hcb hc)
        refine Returns.mono (takeBlock_returns hs₁ hleast hmapped) (fun r s₂ h₂ => ?_)
        obtain ⟨rfl, hs₂, halloc⟩ := h₂
        exact ⟨hs₂, halloc.loads hloads⟩
      · replace hfree : ¬ Free s.view b := fun h => hfree (decide_eq_true h)
        have hnext : ∀ c, c < b + 1 → ¬ Free s₁.view c := by
          intro c hc
          rw [hloads.view]
          by_cases hcb : c = b
          · rw [hcb]
            exact hfree
          · exact hlow c (by omega)
        refine Returns.mono (ih hs₁ (by rw [hloads.view]; omega) hnext) (fun r s₂ h₂ => ?_)
        refine ⟨h₂.1, ?_⟩
        cases r with
        | none => exact h₂.2.loads hloads
        | some c => exact h₂.2.loads hloads

/-- `alloc_block`. -/
theorem allocBlock_least (hs : Initialised s) :
    Returns allocBlock (fun r s' => Initialised s' ∧ match r with
      | none => Full s s'
      | some c => Allocated s s' c) s := by
  unfold allocBlock
  refine returns_bind (loadWord_super hs.super) (fun w s₁ h => ?_)
  obtain ⟨rfl, rfl⟩ := h
  exact allocFrom_least hs (Nat.zero_add _) (fun c hc => absurd hc (Nat.not_lt_zero c))

/-! ## The start -/

/-- `check_bitmap` reads the first word of the bitmap at the latest when it looks at block 1. -/
theorem assertUsed_wp (hb : b < diskBlocks s.view) :
    wp (assertUsed b) (LoadPost s (fun _ s' => s'.mapped (blockOf (bitmapVa b)) = true)) s := by
  unfold assertUsed blockIsFree isFree
  have hlt : b < 2 ^ 32 := Nat.lt_trans hb (word s.view snblocksVa).isLt
  refine (wp_bind _ _ _).mpr ((wp_bind _ _ _).mpr ?_)
  refine wp_mono (loadWord_wp (by decide)) (fun w s₁ h₁ => ?_) (fun _ h => h) (fun _ h => h)
  obtain ⟨hloads₁, rfl, -⟩ := h₁
  have hin : ¬ (word s.view snblocksVa).toNat ≤ b := Nat.not_le.mpr hb
  refine wp_ite (fun hle => absurd hle hin) (fun _ => ?_)
  refine (wp_bind _ _ _).mpr (wp_mono (loadWord_wp bitmapVa_aligned) (fun w s₂ h₂ => ?_)
    (fun _ h => h) (fun _ h => hloads₁.trans h))
  obtain ⟨hloads₂, -, hmapped⟩ := h₂
  have hloads := hloads₁.trans hloads₂
  exact wp_when (fun _ => hloads) (fun _ => ⟨hloads, hmapped (bitmapVa_inDisk hlt)⟩)

/-- What `fs_init` checks, once the super block is in memory. -/
theorem checks_initialised (hsuper : s.mapped 1 = true)
    (hfits : firstBlock s.view ≤ diskBlocks s.view) :
    wp (checkSuper >>= fun _ => checkBitmap)
      ⟨fun _ s' => Initialised s', fun _ => False, fun _ => True⟩ s := by
  have htwo := firstBlock_ge (v := s.view)
  have hused : ∀ t b, Loads s t → b < diskBlocks s.view → wp (assertUsed b)
      ⟨fun _ t' => Loads s t' ∧ t'.mapped (blockOf (bitmapVa b)) = true, fun _ => False,
        fun _ => True⟩ t := by
    intro t b ht hb
    exact wp_mono (assertUsed_wp (by rw [ht.view]; exact hb)) (fun _ t' h => ⟨ht.trans h.1, h.2⟩)
      (fun _ h => h) (fun _ _ => trivial)
  unfold checkSuper checkBitmap
  refine (wp_bind _ _ _).mpr ((wp_bind _ _ _).mpr ?_)
  refine wp_mono (loadWord_wp (by decide)) (fun w s₁ h₁ => ?_) (fun _ h => h) (fun _ _ => trivial)
  refine (wp_bind _ _ _).mpr (wp_when (fun _ => trivial) (fun _ => (wp_bind _ _ _).mpr ?_))
  refine wp_mono (loadWord_wp (by decide)) (fun w s₂ h₂ => ?_) (fun _ h => h) (fun _ _ => trivial)
  obtain ⟨hloads₂, rfl, -⟩ := h₂
  have ht₂ := h₁.1.trans hloads₂
  refine wp_when (fun _ => trivial) (fun hblocks => (wp_bind _ _ _).mpr ?_)
  rw [h₁.1.view] at hblocks
  refine wp_mono (loadWord_wp (by decide)) (fun w s₃ h₃ => ?_) (fun _ h => h) (fun _ _ => trivial)
  obtain ⟨hloads₃, rfl, -⟩ := h₃
  rw [ht₂.view]
  refine (wp_bind _ _ _).mpr (wp_forRange (fun _ t => Loads s t) _ _ (fun i t' _ hi ht' => ?_)
    (fun t' ht' => ?_) (ht₂.trans hloads₃))
  · have hbit : 2 + i < diskBlocks s.view := by
      unfold firstBlock diskBlocks at *
      omega
    exact wp_mono (hused t' (2 + i) ht' hbit) (fun _ _ h => h.1) (fun _ h => h) (fun _ h => h)
  · -- block 0 keeps what is in memory, and block 1 brings the bitmap in
    refine (wp_bind _ _ _).mpr (wp_mono (hused t' 0 ht' (by omega)) (fun _ t₀ h₀ => ?_)
      (fun _ h => h) (fun _ h => h))
    refine wp_mono (hused t₀ 1 h₀.1 (by omega)) (fun _ t₁ h₁' => ?_) (fun _ h => h) (fun _ h => h)
    obtain ⟨hloads, hbits⟩ := h₁'
    refine ⟨hloads.mapped 1 hsuper, hbits, ?_, ?_⟩
    · rw [hloads.view]
      exact hfits
    · rw [hloads.view]
      exact Nat.le_of_not_lt hblocks

/-- When `fs_init` returns, the blocks it has checked are in memory. -/
theorem fsInit_initialised (hun : s.mapped 1 = false)
    (hfits : firstBlock s.view ≤ diskBlocks s.view) (hrun : fsInit.run s = .ret () s') :
    Initialised s' := by
  have hin := pageIn_loads hun
  have hmapped : (s.pageIn 1).mapped 1 = true := by
    unfold Store.pageIn
    exact Function.update_self 1 true s.mapped
  refine wp_ret (Q := ⟨fun _ s' => Initialised s', fun _ => False, fun _ => True⟩) ?_ hrun
  exact wp_modify_bind.mpr (checks_initialised hmapped (by rw [hin.view]; exact hfits))

/-! ## Runs -/

/-- A call that returned. -/
inductive Call where
  /-- `alloc_block` has handed out a block, or none. -/
  | alloc (r : Option Nat)
  | free (b : Nat)
deriving DecidableEq

/-- Calls after each other. -/
inductive Calls : Fs → List Call → Fs → Prop where
  | nil (s : Fs) : Calls s [] s
  | alloc {s s₁ s' : Fs} {r : Option Nat} {calls : List Call} (h : allocBlock.run s = .ret r s₁)
      (hrest : Calls s₁ calls s') : Calls s (.alloc r :: calls) s'
  | free {s s₁ s' : Fs} {b : Nat} {calls : List Call} (h : (freeBlock b).run s = .ret () s₁)
      (hrest : Calls s₁ calls s') : Calls s (.free b :: calls) s'

/-- A bit that `free_block` sets: the others stay. -/
theorem freeBlock_bits (hs : Initialised s) (h : (freeBlock b).run s = .ret () s') :
    Initialised s' ∧ ∀ c, bit s'.view c = (bit s.view c || decide (c = b)) := by
  have hwp : wp (freeBlock b) ⟨fun _ s' => Initialised s' ∧ s'.view = freeBit s.view b,
      fun _ => False, fun _ => True⟩ s := by
    unfold freeBlock
    refine (wp_bind _ _ _).mpr (wp_when (fun _ => trivial) (fun _ => ?_))
    refine (wp_bind _ _ _).mpr (wp_mono (loadWord_wp bitmapVa_aligned) (fun w s₁ h₁ => ?_)
      (fun _ h => h) (fun _ _ => trivial))
    obtain ⟨hloads, rfl, -⟩ := h₁
    have hs₁ := hs.loads hloads
    refine wp_mono (storeWord_wp bitmapVa_aligned) (fun _ s₂ h₂ => ?_) (fun _ h => h)
      (fun _ _ => trivial)
    have hview : s₂.view = freeBit s.view b := by
      rw [h₂.view, hloads.view]
      rfl
    have hsame : diskBlocks s₂.view = diskBlocks s.view := by
      rw [hview]
      exact diskBlocks_setWord _
    refine ⟨⟨h₂.mapped 1 hs₁.super, h₂.mapped 2 hs₁.bits, ?_, ?_⟩, hview⟩
    · unfold firstBlock
      rw [hsame]
      exact hs.fits
    · rw [hsame]
      exact hs.blocks
  obtain ⟨hs', hview⟩ := wp_ret hwp h
  refine ⟨hs', fun c => ?_⟩
  rw [hview]
  exact bit_set

/-- What an `alloc_block` that returned has done. -/
theorem allocBlock_bits (hs : Initialised s) {r : Option Nat} (h : allocBlock.run s = .ret r s') :
    Initialised s' ∧ (∀ c, r = some c → bit s.view c = true) ∧
      ∀ c, bit s'.view c = (bit s.view c && decide (r ≠ some c)) := by
  obtain ⟨hs', hr⟩ := wp_ret (allocBlock_least hs) h
  cases r with
  | none =>
      refine ⟨hs', fun c hc => (by cases hc), fun c => ?_⟩
      have hview : s'.view = s.view := Full.view hr
      simp [hview]
  | some b =>
      have halloc : Allocated s s' b := hr
      refine ⟨hs', fun c hc => ?_, fun c => ?_⟩
      · cases hc
        exact halloc.least.1.2
      · rw [halloc.bit c]
        by_cases hcb : c = b
        · simp [hcb]
        · simp [hcb, Ne.symm hcb]

/-- A block whose bit is clear is not handed out before it is given back, and one whose bit
is set only once. -/
theorem Calls.count_le {calls : List Call} (h : Calls s calls s') (hs : Initialised s)
    (hother : ∀ c, .free c ∈ calls → c ≠ b) :
    calls.count (.alloc (some b)) ≤ if bit s.view b = true then 1 else 0 := by
  induction h with
  | nil s => simp
  | @alloc s s₁ s' r calls hrun _ ih =>
      obtain ⟨hs₁, hset, hbits⟩ := allocBlock_bits hs hrun
      have hrest := ih hs₁ (fun c hc => hother c (List.mem_cons_of_mem _ hc))
      rw [hbits b] at hrest
      by_cases hr : r = some b
      · subst hr
        rw [List.count_cons_self, if_pos (hset b rfl)]
        simp at hrest
        omega
      · have hne : Call.alloc r ≠ .alloc (some b) := fun heq => hr (Call.alloc.inj heq)
        rw [List.count_cons_of_ne hne]
        simpa [hr] using hrest
  | @free s s₁ s' c calls hrun _ ih =>
      obtain ⟨hs₁, hbits⟩ := freeBlock_bits hs hrun
      have hrest := ih hs₁ (fun d hd => hother d (List.mem_cons_of_mem _ hd))
      have hcb : b ≠ c := (hother c List.mem_cons_self).symm
      have hne : Call.free c ≠ .alloc (some b) := fun heq => by cases heq
      rw [hbits b] at hrest
      rw [List.count_cons_of_ne hne]
      simpa [hcb] using hrest

end

/-- `alloc_block` returns, with the least free block, whose bit it clears and writes to the
disk, or with no block if none is free; and a block that was given back is handed out at
most once before it is given back again. -/
theorem allocBlock_first (s : Fs) (hs : Initialised s) :
    Returns allocBlock (fun r s' => match r with
      | none => Full s s'
      | some b => Allocated s s' b) s ∧
    ∀ b s₁ calls s', (freeBlock b).run s = .ret () s₁ → Calls s₁ calls s' →
      (∀ c, .free c ∈ calls → c ≠ b) → calls.count (.alloc (some b)) ≤ 1 := by
  refine ⟨Returns.mono (allocBlock_least hs) (fun r s' h => h.2),
    fun b s₁ calls s' hfree hcalls hother => ?_⟩
  have hcount := hcalls.count_le (freeBlock_bits hs hfree).1 hother
  split at hcount <;> omega

/-- A disk of 40000 blocks in memory, on which only the last block of the first block of the
bitmap is free. -/
@[irreducible] def lastBit : Fs where
  mem := setWord (setWord (fun _ => 0#8) snblocksVa 40000#32) (bitmapVa 32767) (1#32 <<< 31)
  disk := fun _ => 0#8
  mapped := fun _ => true
  dirty := fun _ => false
  trace := []

theorem diskBlocks_lastBit : diskBlocks lastBit.view = 40000 := by decide +kernel

theorem lastBit_initialised : Initialised lastBit where
  super := by
    unfold lastBit
    rfl
  bits := by
    unfold lastBit
    rfl
  fits := by
    unfold firstBlock
    rw [diskBlocks_lastBit]
    decide
  blocks := by
    rw [diskBlocks_lastBit]
    decide

theorem allocBlock_first_lastBit :
    ∃ b s', allocBlock.run lastBit = .ret (some b) s' ∧ b ≤ 32767 ∧
      s'.trace = (.flushed (blockOf (bitmapVa b)), s'.toStore) :: lastBit.trace := by
  have hbit : bit lastBit.view 32767 = true := by decide +kernel
  have hlt : 32767 < diskBlocks lastBit.view := by
    rw [diskBlocks_lastBit]
    decide
  have hfree : Free lastBit.view 32767 := ⟨hlt, hbit⟩
  have hreturns := (allocBlock_first lastBit lastBit_initialised).1
  rw [returns_iff] at hreturns
  obtain ⟨r, s', hrun, hr⟩ := hreturns
  cases r with
  | none =>
      have hfull : Full lastBit s' := hr
      exact absurd hfree (hfull.none _)
  | some b =>
      have halloc : Allocated lastBit s' b := hr
      exact ⟨b, s', hrun, halloc.least.2 hfree, halloc.flushed⟩

end BlockBitmap

end Jos

import Jos.EditFrames

/-!
# Taking blocks and giving them back

What `alloc_block`, `free_block`, `file_block_walk` and `file_get_block` do on a disk
that is in order.  They return whatever the block is that is asked for, as long as a
block that becomes an indirect block is zero.
-/

namespace Jos

open Programs Bytes Fs

/-- The file server can go on with this memory. -/
structure Mount (s : Fs) : Prop where
  super : s.mapped 1 = true
  bits : s.mapped 2 = true
  disk : DiskOk s.view

section Blocks

variable {s s' : Fs} {b n va : Nat}

theorem Mount.ready (hs : Mount s) : Ready s := ⟨hs.super, hs.bits, hs.disk.checked⟩

theorem Mount.owned (hs : Mount s) : Owned s.view := hs.disk.owned

theorem Mount.of_ready (hs : Ready s) (hdisk : DiskOk s.view) : Mount s :=
  ⟨hs.super, hs.bits, hdisk⟩

theorem Mount.loads (hs : Mount s) (h : Loads s s') : Mount s' :=
  ⟨h.mapped 1 hs.super, h.mapped 2 hs.bits, h.view ▸ hs.disk⟩

theorem Ready.stores {v : Bytes.Memory} {dst m : Nat} (hs : Ready s) (h : Stores s s' v dst m)
    (hv : Checked v) : Ready s' :=
  ⟨h.mapped 1 hs.super, h.mapped 2 hs.bits, h.view ▸ hv⟩

theorem Ready.flushed (hs : Ready s) (h : Flushed s s') : Ready s' :=
  ⟨by rw [h.mapped]; exact hs.super, by rw [h.mapped]; exact hs.bits, h.view ▸ hs.checked⟩

theorem Checked.takeBit {v : Bytes.Memory} (h : Checked v) (hb : b < diskBlocks v) :
    Checked (Jos.takeBit v b) :=
  h.of_free (takeBit_bitsOnly hb).diskBlocks (fun _ hf => Or.inl ((free_takeBit hb).mp hf).1)

theorem Checked.freeBit {v : Bytes.Memory} (h : Checked v) (hb : b < diskBlocks v)
    (hlo : firstBlock v ≤ b) : Checked (Jos.freeBit v b) := by
  refine h.of_free (freeBit_bitsOnly hb).diskBlocks (fun c hf => ?_)
  rcases (free_freeBit hb).mp hf with hf | rfl
  · exact Or.inl hf
  · exact Or.inr hlo

/-- An address of the disk, of a block that is on it. -/
theorem inDisk_blkVa (hs : Ready s) (hb : b < diskBlocks s.view) : InDisk (blkVa b) :=
  inDisk_block hs.checked.blocks hb (Nat.le_refl _) (by omega)

namespace Fs

/-- A program that returns, and what is done then. -/
theorem wp_seq {α β : Type} {m : FsProg α} {f : α → FsProg β} {R : α → Fs → Prop}
    {Q : Post Fs β} (hm : Returns m R s) (hf : ∀ a s', R a s' → wp (f a) Q s') :
    wp (m >>= f) Q s := by
  rw [wp_bind]
  exact wp_mono hm (fun a s' hR => hf a s' hR) (fun _ => False.elim) (fun _ => False.elim)

/-- `flush_block(diskaddr(b))`. -/
theorem flushDisk_wp {α : Type} {f : Unit → FsProg α} {Q : Post Fs α} (hs : Ready s)
    (hne : b ≠ 0) (hb : b < diskBlocks s.view)
    (hf : ∀ s', Flushed s s' → Ready s' → wp (f ()) Q s') :
    wp (diskaddr b >>= fun va => flushBlock va >>= f) Q s := by
  refine wp_seq (diskaddr_returns hs hne hb) (fun va s₁ h => ?_)
  obtain ⟨rfl, rfl⟩ := h
  exact wp_seq (flushBlock_returns (inDisk_blkVa hs hb)) (fun _ s₂ h => hf s₂ h (hs.flushed h))

theorem allocFrom_returns (hs : Ready s) (hn : b + n = diskBlocks s.view)
    (hlow : ∀ c, c < b → ¬ Free s.view c) :
    Returns (allocFrom b n) (fun r s' => Ready s' ∧ match r with
      | none => s'.view = s.view ∧ ∀ c, ¬ Free s.view c
      | some c => s'.view = takeBit s.view c ∧ Free s.view c) s := by
  induction n generalizing b s with
  | zero =>
      refine ⟨hs, rfl, fun c hf => hlow c ?_ hf⟩
      have hc := hf.lt
      omega
  | succ n ih =>
      unfold allocFrom
      refine returns_bind (blockIsFree_returns hs) (fun free s₁ h₁ => ?_)
      obtain ⟨hloads, rfl⟩ := h₁
      have hs₁ := hs.loads hloads
      refine wp_ite (fun hfree => ?_) (fun hfree => ?_)
      · replace hfree : Free s.view b := of_decide_eq_true hfree
        have hlt := hfree.lt
        have hfirst : firstBlock s.view ≤ b :=
          Nat.le_of_not_lt (fun h => hs.checked.reserved b h hfree)
        have hdiv : b / 32 / nindirect = b / 32768 := by
          unfold nindirect
          omega
        have hbits : 2 + b / 32768 < diskBlocks s.view := by
          unfold firstBlock at hfirst
          omega
        rw [← hloads.view] at hfree hlt hbits ⊢
        have hfine := bitmap_fine hs₁ hlt
        refine returns_bind (loadWord_returns hs₁ bitmapVa_aligned hfine) (fun w s₂ h₂ => ?_)
        obtain ⟨hloads₂, rfl⟩ := h₂
        have hs₂ := hs₁.loads hloads₂
        have hview : setWord s₂.view (bitmapVa b) (Bytes.word s₁.view (bitmapVa b) &&&
            ~~~(1#32 <<< (b % 32))) = takeBit s₁.view b := by
          rw [hloads₂.view]
          rfl
        refine returns_bind (storeWord_returns hs₂ bitmapVa_aligned (hfine.loads hloads₂))
          (fun _ s₃ h₃ => ?_)
        rw [hview] at h₃
        have hs₃ : Ready s₃ := hs₂.stores h₃ (hs₁.checked.takeBit hlt)
        rw [hdiv]
        refine flushDisk_wp hs₃ (by omega) ?_ (fun s₄ h₄ hs₄ => ⟨hs₄, ?_, hfree⟩)
        · rw [h₃.view, (takeBit_bitsOnly hlt).diskBlocks]
          exact hbits
        · exact h₄.view.trans h₃.view
      · replace hfree : ¬ Free s.view b := fun h => hfree (decide_eq_true h)
        rw [← hloads.view] at hn hlow hfree ⊢
        refine ih hs₁ (by omega) (fun c hc => ?_)
        by_cases hcb : c = b
        · rw [hcb]
          exact hfree
        · exact hlow c (by omega)

/-- `alloc_block`. -/
theorem allocBlock_returns (hs : Ready s) :
    Returns allocBlock (fun r s' => Ready s' ∧ match r with
      | none => s'.view = s.view ∧ ∀ c, ¬ Free s.view c
      | some c => s'.view = takeBit s.view c ∧ Free s.view c) s := by
  unfold allocBlock
  refine returns_bind (loadWord_super hs.super) (fun w s₁ h => ?_)
  obtain ⟨rfl, rfl⟩ := h
  exact allocFrom_returns hs (Nat.zero_add _) (fun c hc => absurd hc (Nat.not_lt_zero c))

/-- `free_block`. -/
theorem freeBlock_returns (hs : Ready s) (hb : b < diskBlocks s.view)
    (hlo : firstBlock s.view ≤ b) :
    Returns (freeBlock b) (fun _ s' => Ready s' ∧ s'.view = freeBit s.view b) s := by
  have htwo := firstBlock_ge (v := s.view)
  unfold freeBlock
  refine (wp_bind _ _ _).mpr (wp_when (fun hzero => by omega) (fun _ => ?_))
  have hfine := bitmap_fine hs hb
  refine returns_bind (loadWord_returns hs bitmapVa_aligned hfine) (fun w s₁ h₁ => ?_)
  obtain ⟨hloads, rfl⟩ := h₁
  refine Returns.mono (storeWord_returns (hs.loads hloads) bitmapVa_aligned (hfine.loads hloads))
    (fun _ s₂ h₂ => ?_)
  have hview : setWord s₁.view (bitmapVa b) (Bytes.word s.view (bitmapVa b) |||
      1#32 <<< (b % 32)) = freeBit s.view b := by
    rw [hloads.view]
    rfl
  rw [hview] at h₂
  exact ⟨(hs.loads hloads).stores h₂ (hs.checked.freeBit hb hlo), h₂.view⟩

end Fs

end Blocks

end Jos

import Jos.BlockAllocation
import Jos.FileKeeps
import Mathlib.Data.Finset.Card
import Mathlib.Data.Finset.Range

/-!
# Getting the blocks of files

`file_get_block` takes blocks from the bitmap without clearing them.  A block that
becomes an indirect block, or a block of a directory, has to be clear already.  Which
blocks are taken for what is noted in the trace, and so `Noted` is about the runs whose
notes are all as they should be; if every note is, it says that the program returns.
-/

namespace Jos

open Programs Bytes Fs

/-- All notes of the trace are as they should be. -/
def Clean (Ok : FsNote → Store → Prop) (s : Fs) : Prop := ∀ p, p ∈ s.trace → Ok p.1 p.2

/-- What is known of a return with a clean trace.  The program may stop only where a note
can be wrong. -/
def Noted {α : Type} (Ok : FsNote → Store → Prop) (R : α → Fs → Prop) : Post Fs α where
  ret := fun r s' => Clean Ok s' → R r s'
  exit := fun _ => False
  stop := fun _ => ¬ ∀ n st, Ok n st

section Notes

variable {α β : Type} {Ok : FsNote → Store → Prop} {m : FsProg α} {f : α → FsProg β}
  {R R' : α → Fs → Prop} {Q : β → Fs → Prop} {s s' : Fs}

theorem noted_of_returns (h : Returns m R s) : wp m (Noted Ok R) s :=
  wp_mono h (fun _ _ hR _ => hR) (fun _ => False.elim) (fun _ => False.elim)

theorem Noted.mono (h : wp m (Noted Ok R) s) (hR : ∀ a s', R a s' → R' a s') :
    wp m (Noted Ok R') s :=
  wp_mono h (fun a s' hr hc => hR a s' (hr hc)) (fun _ hx => hx) (fun _ hx => hx)

/-- If no note can be wrong, the program returns. -/
theorem Noted.returns (h : wp m (Noted Ok R) s) (hok : ∀ n st, Ok n st) : Returns m R s :=
  wp_mono h (fun _ _ hr => hr (fun _ _ => hok _ _)) (fun _ hx => hx)
    (fun _ hx => hx hok)

theorem Noted.value {a : α} (h : wp m (Noted Ok R) s) (hrun : m.run s = .ret a s')
    (hc : Clean Ok s') : R a s' := wp_ret h hrun hc

/-- A program with a note that is wrong. -/
theorem noted_of_grows (hgrow : ∀ t, Keeps (fun s => t <:+ s.trace) m) {n : FsNote} {st : Store}
    (hmem : (n, st) ∈ s.trace) (hbad : ¬ Ok n st) : wp m (Noted Ok R) s :=
  wp_mono (hgrow s.trace s List.suffix_rfl) (fun _ _ hsuffix hc =>
    absurd (hc _ (hsuffix.subset hmem)) hbad) (fun _ hx => hx) (fun _ _ hall => hbad (hall n st))

theorem noted_bind (hm : wp m (Noted Ok R) s)
    (hgrow : ∀ a t, Keeps (fun s => t <:+ s.trace) (f a))
    (hf : ∀ a s', R a s' → wp (f a) (Noted Ok Q) s') : wp (m >>= f) (Noted Ok Q) s := by
  rw [wp_bind]
  refine wp_mono hm (fun a s' hR => ?_) (fun _ hx => hx) (fun _ hx => hx)
  by_cases hc : Clean Ok s'
  · exact hf a s' (hR hc)
  · obtain ⟨p, hp⟩ := Classical.not_forall.mp hc
    obtain ⟨hmem, hbad⟩ := Classical.not_imp.mp hp
    exact noted_of_grows (hgrow a) hmem hbad

/-- The trace grows besides. -/
theorem noted_grows (h : wp m (Noted Ok R) s) (hgrow : ∀ t, Keeps (fun s => t <:+ s.trace) m) :
    wp m (Noted Ok (fun r s' => R r s' ∧ s.trace <:+ s'.trace)) s := by
  have hsuffix := hgrow s.trace s List.suffix_rfl
  unfold wp at h hsuffix ⊢
  cases hrun : m.run s with
  | ret a s' =>
      rw [hrun] at h hsuffix
      exact fun hc => ⟨h hc, hsuffix⟩
  | exit s' =>
      rw [hrun] at h
      exact h
  | stop s' =>
      rw [hrun] at h
      exact h

theorem noted_note {f : Unit → FsProg β} {n : FsNote}
    (hgrow : ∀ t, Keeps (fun s => t <:+ s.trace) (f ()))
    (hf : Ok n s.toStore →
      wp (f ()) (Noted Ok Q) { s with trace := (n, s.toStore) :: s.trace }) :
    wp (note n >>= f) (Noted Ok Q) s := by
  refine wp_modify_bind.mpr ?_
  by_cases hok : Ok n s.toStore
  · exact hf hok
  · exact noted_of_grows hgrow List.mem_cons_self hok

end Notes

/-! ## Blocks that are free -/

/-- The number of free blocks. -/
def freeCount (v : Bytes.Memory) : Nat := ((Finset.range (diskBlocks v)).filter (Free v ·)).card

/-- The number of blocks that `file_get_block` takes. -/
def needs (v : Bytes.Memory) (f i : Nat) : Nat :=
  if ndirect ≤ i ∧ indirectOf v f = 0 then 2
  else if (slotOf f i).val v = 0 then 1 else 0

/-- The indirect block that is needed is missing. -/
def NoIndirect (v : Bytes.Memory) (f i : Nat) : Prop := ndirect ≤ i ∧ indirectOf v f = 0

/-- What `file_block_walk` returns when it may take an indirect block. -/
def WalkResult (v v' : Bytes.Memory) (f i : Nat) : FsResult Nat → Prop
  | .ok va => (slotOf f i).Exists v' ∧ va = (slotOf f i).va v' ∧
      (NoIndirect v f i → freeCount v = freeCount v' + 1) ∧ (¬ NoIndirect v f i → v' = v)
  | .error .inval => ndirect + nindirect ≤ i ∧ v' = v
  | .error .noDisk => NoIndirect v f i ∧ freeCount v = 0 ∧ v' = v
  | .error _ => False

/-- What `file_get_block` returns. -/
def GetResult (v v' : Bytes.Memory) (f i : Nat) : FsResult Nat → Prop
  | .ok blk => (∃ b, Holds v' (slotOf f i) b ∧ blk = blkVa b) ∧
      freeCount v ≤ freeCount v' + needs v f i
  | .error .inval => ndirect + nindirect ≤ i ∧ v' = v
  | .error .noDisk => freeCount v < needs v f i
  | .error _ => False

/-- The block that was taken is as it was when it was noted. -/
def Took (Ok : FsNote → Store → Prop) (f i b : Nat) (v : Bytes.Memory) : Prop :=
  ∃ st, Ok (.took f i b) st ∧ ∀ x, blkVa b ≤ x → x < blkVa b + 4096 → v x = st.view x

/-- The edits of `file_get_block`. -/
def GetEdit (f i : Nat) (e : FileEdit) : Prop :=
  (∃ b, e = .takeIndirect f b) ∨ ∃ b, e = .take f i b

section Counting

variable {v v' : Bytes.Memory} {b : Nat}

theorem mem_freeBlocks :
    b ∈ (Finset.range (diskBlocks v)).filter (Free v ·) ↔ Free v b := by
  rw [Finset.mem_filter, Finset.mem_range]
  exact ⟨And.right, fun h => ⟨h.lt, h⟩⟩

theorem needs_noIndirect {f i : Nat} (h : NoIndirect v f i) : needs v f i = 2 := if_pos h

theorem needs_zero {f i : Nat} (h : ¬ NoIndirect v f i) (hzero : (slotOf f i).val v = 0) :
    needs v f i = 1 := by
  exact (if_neg h).trans (if_pos hzero)

/-- One block is taken. -/
theorem freeCount_take (hb : Free v b) (hfree : ∀ c, Free v' c ↔ Free v c ∧ c ≠ b) :
    freeCount v = freeCount v' + 1 := by
  have hset : (Finset.range (diskBlocks v')).filter (Free v' ·) =
      ((Finset.range (diskBlocks v)).filter (Free v ·)).erase b := by
    ext c
    rw [mem_freeBlocks, Finset.mem_erase, mem_freeBlocks, hfree]
    exact and_comm
  have hmem := mem_freeBlocks.mpr hb
  unfold freeCount
  rw [hset, Finset.card_erase_of_mem hmem]
  exact (Nat.succ_pred_eq_of_pos (Finset.card_pos.mpr ⟨b, hmem⟩)).symm

theorem freeCount_eq_zero : freeCount v = 0 ↔ ∀ b, ¬ Free v b := by
  unfold freeCount
  rw [Finset.card_eq_zero, Finset.eq_empty_iff_forall_notMem]
  exact forall_congr' (fun b => not_congr mem_freeBlocks)

theorem freeCount_congr (hfree : ∀ c, Free v' c ↔ Free v c) : freeCount v' = freeCount v := by
  have hset : (Finset.range (diskBlocks v')).filter (Free v' ·) =
      (Finset.range (diskBlocks v)).filter (Free v ·) := by
    ext c
    rw [mem_freeBlocks, mem_freeBlocks, hfree]
  unfold freeCount
  rw [hset]

end Counting

/-! ## `file_block_walk` and `file_get_block` -/

section Getting

variable {Ok : FsNote → Store → Prop} {s s' : Fs} {v : Bytes.Memory} {f i b va n : Nat}

/-- Notes leave the memory as it was. -/
theorem Mount.note (hs : Mount s) {t : List (FsNote × Store)} : Mount { s with trace := t } :=
  ⟨hs.super, hs.bits, hs.disk⟩

theorem Ready.note (hs : Ready s) {t : List (FsNote × Store)} : Ready { s with trace := t } :=
  ⟨hs.super, hs.bits, hs.checked⟩

/-- A block of the disk is the same after a bit of the bitmap has changed. -/
theorem takeBit_block {x : Nat} (hlt : b < diskBlocks v) (hlo : firstBlock v ≤ b)
    (hle : blkVa b ≤ x) : takeBit v b x = v x :=
  takeBit_bitsOnly hlt x (Or.inr (Nat.le_trans (blkVa_not_bitmap hlo) hle))

/-- What happens to the bitmap does not change the type of a file. -/
theorem BitsOnly.isDir {v' : Bytes.Memory} (h : BitsOnly v v') (howned : Owned v)
    (hf : Reach v f) (htype : IsDir v f) : IsDir v' f := by
  have hfar := hf.not_bitmap howned
  have hword : word v' (fTypeVa f) = word v (fTypeVa f) := by
    refine word_congr (fun x hle hlt => h x ?_)
    unfold fTypeVa at *
    omega
  exact hword.trans htype

/-- No bytes of the file system are in a free block. -/
theorem free_not_meta {x : Nat} (h : DiskOk v) (hb : Free v b) (hle : blkVa b ≤ x)
    (hlt : x < blkVa b + 4096) : ¬ Meta v x := by
  refine not_meta_of_block (h.free_ge hb) ?_ ?_ hle hlt
  · rintro c hc rfl
    obtain ⟨dir, i, -, -, hholds⟩ := hc.holds
    exact h.unheld hb _ hholds
  · rintro g c hc rfl
    exact h.unheld hb _ hc

/-- A slot can be used if its block is still in use. -/
theorem Live.fine_of_bits {v₁ : Bytes.Memory} {p : Slot} (hs : Ready s) (hbits : BitsOnly v₁ s.view)
    (h : DiskOk v₁) (hp : Live v₁ p)
    (hused : ∀ c, blkVa c ≤ p.va v₁ → p.va v₁ < blkVa c + 4096 → (∃ q, Holds v₁ q c) →
      ¬ Free s.view c) : Fine s (p.va v₁) := by
  have hblocks := hbits.diskBlocks
  have hin : ∀ c q, blkVa c ≤ p.va v₁ → p.va v₁ < blkVa c + 4096 → Holds v₁ q c →
      Fine s (p.va v₁) := by
    intro c q hle hlt hq
    refine InUse.fine ?_
    rw [blockOf_blkVa hle hlt]
    exact ⟨hblocks ▸ (h.owned.range _ _ hq).2, hused c hle hlt ⟨q, hq⟩⟩
  rcases hp.cases with ⟨f, k, hf, hk, hva, -⟩ | ⟨f, j, hj, hblock, -, hva⟩
  · rcases hf.shape with rfl | ⟨b, j, hb, hj, -, rfl⟩
    · refine fun _ => Or.inl ?_
      have hone : blockOf (p.va v₁) = 1 := by
        unfold blockOf
        unfold rootVa superVa diskmap blksize at *
        omega
      rw [hone]
      exact hs.super
    · obtain ⟨dir, i, -, -, hholds⟩ := hb.holds
      unfold fileVa blkfiles at *
      exact hin b _ (by omega) (by omega) hholds
  · exact hin _ _ (by omega) (by omega) hblock

namespace Fs

/-- A block that was just taken is put into a slot, and written to the disk. -/
theorem install_wp {α : Type} {f : Unit → FsProg α} {Q : Post Fs α} {p : Slot} (hs : Ready s)
    (hv : DiskOk v) (hb : Free v b) (hview : s.view = takeBit v b) (hp : Live v p)
    (hdisk : DiskOk (setWord (takeBit v b) (p.va v) (BitVec.ofNat 32 b)))
    (hf : ∀ s', Mount s' → s'.view = setWord (takeBit v b) (p.va v) (BitVec.ofNat 32 b) →
      wp (f ()) Q s') :
    wp (storeWord (p.va v) (BitVec.ofNat 32 b) >>= fun _ =>
      diskaddr b >>= fun va => flushBlock va >>= f) Q s := by
  have hlt := hb.lt
  have hlo := hv.free_ge hb
  have htwo := firstBlock_ge (v := v)
  have hfine : Fine s (p.va v) := by
    refine Live.fine_of_bits hs ?_ hv hp (fun c _ _ hheld hc => ?_)
    · rw [hview]
      exact takeBit_bitsOnly hlt
    · rw [hview] at hc
      obtain ⟨q, hq⟩ := hheld
      exact hv.owned.used q c hq ((free_takeBit hlt).mp hc).1
  refine wp_seq (storeWord_returns hs hp.aligned hfine) (fun _ s₁ h₁ => ?_)
  rw [hview] at h₁
  have hs₁ : Ready s₁ := hs.stores h₁ hdisk.checked
  have hblocks : diskBlocks s₁.view = diskBlocks v := by
    rw [h₁.view]
    exact (slotStore_bits (takeBit_bitsOnly hlt)).diskBlocks hv.owned hp
  refine flushDisk_wp hs₁ (by omega) (by omega) (fun s₂ h₂ hs₂ => ?_)
  have hview₂ := h₂.view.trans h₁.view
  exact hf s₂ (Mount.of_ready hs₂ (hview₂ ▸ hdisk)) hview₂

/-- What is asked of the notes when a block is got: a new indirect block has to be zero,
and a new block of a directory has no names. -/
structure GetRule (Ok : FsNote → Store → Prop) (v : Bytes.Memory) (f i : Nat) : Prop where
  indirect : NoIndirect v f i → ∀ b st, Ok (.tookIndirect f b) st → ZeroBlock st.view b
  dir : IsDir v f → i < dirNblocks v f ∧
    ∀ b st, IsDir st.view f → Ok (.took f i b) st → NoNames st.view b

theorem fileBlockWalk_wp (hs : Mount s) (hf : Reach s.view f) (hrule : GetRule Ok s.view f i) :
    wp (fileBlockWalk f i true) (Noted Ok (fun r s' => Mount s' ∧
      Edits (fun e => ∃ b, e = .takeIndirect f b) s.view s'.view ∧
      WalkResult s.view s'.view f i r)) s := by
  by_cases hmiss : NoIndirect s.view f i
  · unfold fileBlockWalk
    refine wp_ite (fun hle => noted_of_returns ⟨hs, .refl, hle, rfl⟩) (fun hlt => ?_)
    refine wp_ite (fun hdirect => absurd hmiss.1 (Nat.not_le.mpr hdirect)) (fun _ => ?_)
    refine wp_seq (loadWord_field hs.ready hs.owned (a := 176) hf (by decide) (by decide))
      (fun w s₁ h₁ => ?_)
    obtain ⟨hloads, rfl⟩ := h₁
    have hzero : word s.view (f + 176) = 0#32 := BitVec.eq_of_toNat_eq hmiss.2
    rw [if_neg (fun hne => hne hzero), if_neg (by decide)]
    have hs₁ := hs.loads hloads
    rw [← hloads.view] at hf hrule hmiss ⊢
    refine wp_seq (allocBlock_returns hs₁.ready) (fun r s₂ h₂ => ?_)
    obtain ⟨hs₂, hr⟩ := h₂
    cases r with
    | none =>
        obtain ⟨hview, hnone⟩ := hr
        refine noted_of_returns ⟨Mount.of_ready hs₂ (hview ▸ hs₁.disk), ?_, hmiss,
          freeCount_eq_zero.mpr hnone, hview⟩
        rw [hview]
        exact .refl
    | some b =>
        obtain ⟨hview, hb⟩ := hr
        have hlt := hb.lt
        have hlo := hs₁.disk.free_ge hb
        have hsmall : b < 2 ^ 32 := Nat.lt_trans hlt (BitVec.isLt _)
        have hw : (BitVec.ofNat 32 b).toNat = b := by
          rw [BitVec.toNat_ofNat, Nat.mod_eq_of_lt hsmall]
        refine noted_note (fun t => ?_) (fun hok => ?_)
        · exact (keeps_storeWord stable_grows _ _).bind (fun _ =>
            (keeps_diskaddr stable_grows b).bind (fun va =>
              (keeps_flushBlock stable_grows va).bind (fun _ =>
                (keeps_diskaddr stable_grows b).bind (fun _ => Keeps.pure _))))
        have hblock : ZeroBlock s₁.view b := by
          intro x hle hlt'
          rw [← takeBit_block hlt hlo hle, ← hview]
          exact hrule.indirect hmiss b s₂.toStore hok x hle hlt'
        obtain ⟨hdisk, hgains⟩ := Edit.takeIndirect_gains hs₁.disk hf hmiss.2 hb hw hblock
        have hlive : Live s₁.view (.indirect f) := ⟨hf, trivial⟩
        refine install_wp (p := .indirect f) hs₂.note hs₁.disk hb hview hlive hdisk
          (fun s₃ hs₃ hview₃ => ?_)
        have hfree : ∀ c, Free s₃.view c ↔ Free s₁.view c ∧ c ≠ b := fun c => by
          rw [hview₃]
          exact take_free hs₁.disk hlive hb
        have hview₃' : s₃.view = setWord (takeBit s₁.view b) (fIndirectVa f) (BitVec.ofNat 32 b) :=
          hview₃
        have hind : indirectOf s₃.view f = b := by
          unfold indirectOf
          rw [hview₃', word_setWord_self, hw]
        have htwo := firstBlock_ge (v := s₁.view)
        refine wp_seq (diskaddr_returns hs₃.ready (by omega) ?_) (fun va s₄ h₄ => ?_)
        · rw [hview₃']
          exact Nat.lt_of_lt_of_eq hlt ((slotStore_bits (p := .indirect f)
            (takeBit_bitsOnly hlt)).diskBlocks hs₁.owned hlive).symm
        · obtain ⟨rfl, rfl⟩ := h₄
          have hslot : slotOf f i = .entry f (i - ndirect) :=
            if_neg (Nat.not_lt.mpr hmiss.1)
          refine noted_of_returns ⟨hs₃, ?_, ?_, ?_, fun _ => freeCount_take hb hfree,
            fun h => absurd hmiss h⟩
          · rw [hview₃']
            exact .one ⟨b, rfl⟩ (.takeIndirect hf hmiss.2 hb hw hblock)
          · rw [hslot]
            refine ⟨?_, ?_⟩
            · rw [hind]
              omega
            · have hle := hmiss.1
              omega
          · rw [hslot]
            unfold Slot.va
            simp only
            rw [hind]
  · by_cases hbig : ndirect + nindirect ≤ i
    · unfold fileBlockWalk
      rw [if_pos hbig]
      exact noted_of_returns ⟨hs, .refl, hbig, rfl⟩
    · have hexist : (slotOf f i).Exists s.view := by
        unfold slotOf
        split
        · assumption
        · refine ⟨fun hzero => hmiss ⟨by omega, hzero⟩, by omega⟩
      refine noted_of_returns (Returns.mono (fileBlockWalk_returns hs.ready hs.owned hf hexist)
        (fun r s₁ h => ?_))
      obtain ⟨hloads, rfl⟩ := h
      have hs₁ := hs.loads hloads
      rw [← hloads.view] at hexist hmiss ⊢
      exact ⟨hs₁, .refl, hexist, rfl, fun h => absurd h hmiss, fun _ => rfl⟩

/-- What `file_get_block` does when a slot is zero. -/
theorem takeSlot_wp (hs : Mount s) (hlive : Live s.view (slotOf f i))
    (hzero : (slotOf f i).val s.view = 0)
    (hrule : IsDir s.view f → i < dirNblocks s.view f ∧
      ∀ b st, IsDir st.view f → Ok (.took f i b) st → NoNames st.view b) :
    wp (do
      let r ← allocBlock
      match r with
      | none => pure (.error .noDisk)
      | some bn => do
          note (.took f i bn)
          storeWord ((slotOf f i).va s.view) (BitVec.ofNat 32 bn)
          let va ← diskaddr bn
          flushBlock va
          let w ← loadWord ((slotOf f i).va s.view)
          let blk ← diskaddr w.toNat
          pure (.ok blk)) (Noted Ok (fun (r : FsResult Nat) s' => Mount s' ∧
        (r = .error .noDisk ∧ s'.view = s.view ∧ freeCount s.view = 0 ∨
          ∃ b, r = .ok (blkVa b) ∧ Holds s'.view (slotOf f i) b ∧
            Edit s.view (.take f i b) s'.view ∧ freeCount s.view = freeCount s'.view + 1 ∧
            Took Ok f i b s'.view))) s := by
  have hf := hlive.reach
  rw [slotOf_file] at hf
  refine wp_seq (allocBlock_returns hs.ready) (fun r s₁ h₁ => ?_)
  obtain ⟨hs₁, hr⟩ := h₁
  cases r with
  | none =>
      obtain ⟨hview, hnone⟩ := hr
      exact noted_of_returns ⟨Mount.of_ready hs₁ (hview ▸ hs.disk),
        Or.inl ⟨rfl, hview, freeCount_eq_zero.mpr hnone⟩⟩
  | some b =>
      obtain ⟨hview, hb⟩ := hr
      have hlt := hb.lt
      have hlo := hs.disk.free_ge hb
      have hw : (BitVec.ofNat 32 b).toNat = b := by
        rw [BitVec.toNat_ofNat, Nat.mod_eq_of_lt (Nat.lt_trans hlt (BitVec.isLt _))]
      refine noted_note (fun t => ?_) (fun hok => ?_)
      · exact (keeps_storeWord stable_grows _ _).bind (fun _ =>
          (keeps_diskaddr stable_grows b).bind (fun va => (keeps_flushBlock stable_grows va).bind
            (fun _ => (keeps_loadWord stable_grows _).bind (fun _ =>
              (keeps_diskaddr stable_grows _).bind (fun _ => Keeps.pure _)))))
      have hcond : IsDir s.view f → i < dirNblocks s.view f ∧ NoNames s.view b := by
        intro htype
        obtain ⟨hi, hnames⟩ := hrule htype
        refine ⟨hi, fun j hj => ?_⟩
        rw [← takeBit_block (x := fileVa b j) hlt hlo (Nat.le_add_right _ _), ← hview]
        refine hnames b s₁.toStore ?_ hok j hj
        rw [hview]
        exact (takeBit_bitsOnly hlt).isDir hs.owned hf htype
      obtain ⟨hdisk, hgains⟩ := Edit.take_gains hs.disk hf hlive.exist hzero hb hw hcond
      refine install_wp hs₁.note hs.disk hb hview hlive hdisk (fun s₂ hs₂ hview₂ => ?_)
      rw [← hview₂] at hgains
      have hheld : Holds s₂.view (slotOf f i) b :=
        (hgains.holds hlive.reach).mpr (Or.inr ⟨rfl, rfl⟩)
      have hlive₂ : Live s₂.view (slotOf f i) := ⟨hheld.reach, hheld.has.exist⟩
      have hstore : SlotStore s.view s₂.view (slotOf f i) (BitVec.ofNat 32 b) := by
        rw [hview₂]
        exact slotStore_bits (takeBit_bitsOnly hlt)
      have hfine := hlive₂.fine hs₂.ready hs₂.owned
      rw [hstore.va_self hs.owned hlive] at hfine
      refine wp_seq (loadWord_returns hs₂.ready hlive.aligned hfine) (fun w s₃ h₃ => ?_)
      obtain ⟨hloads, rfl⟩ := h₃
      have hs₃ := hs₂.loads hloads
      rw [hstore.word, hw]
      refine wp_seq (diskaddr_returns hs₃.ready hheld.has.ne ?_) (fun va s₄ h₄ => ?_)
      · rw [hloads.view]
        exact (hs₂.owned.range _ _ hheld).2
      · obtain ⟨rfl, rfl⟩ := h₄
        refine noted_of_returns ⟨hs₃, Or.inr ⟨b, rfl, ?_⟩⟩
        rw [hloads.view]
        refine ⟨hheld, ?_, freeCount_take hb (fun c => ?_), s₁.toStore, hok, fun x hle hlt' => ?_⟩
        · rw [hview₂]
          exact .take hf hlive.exist hzero hb hw hcond
        · rw [hview₂]
          exact take_free hs.disk hlive hb
        · rw [hview₂, hview]
          refine setWord_of_apart ?_
          have hnot : ∀ k, k < 4 → (slotOf f i).va s.view + k ≠ x := by
            rintro k hk rfl
            exact free_not_meta hs.disk hb hle hlt'
              (hlive.meta (Nat.le_add_right _ _) (Nat.add_lt_add_left hk _))
          have h₀ := hnot 0 (by decide)
          have h₁ := hnot 1 (by decide)
          have h₂ := hnot 2 (by decide)
          have h₃ := hnot 3 (by decide)
          omega

theorem fileGetBlock_wp (hs : Mount s) (hf : Reach s.view f) (hrule : GetRule Ok s.view f i) :
    wp (fileGetBlock f i) (Noted Ok (fun r s' => Mount s' ∧
      Edits (GetEdit f i) s.view s'.view ∧ GetResult s.view s'.view f i r ∧
      ∀ b, Holds s'.view (slotOf f i) b → Holds s.view (slotOf f i) b ∨
        Took Ok f i b s'.view)) s := by
  unfold fileGetBlock
  refine noted_bind (fileBlockWalk_wp hs hf hrule) (fun r t => ?_) (fun r s₁ h₁ => ?_)
  · cases r with
    | error e => exact Keeps.pure _
    | ok pdiskbno =>
        refine (keeps_loadWord stable_grows _).bind (fun _ => Keeps.ite ?_
          ((keeps_diskaddr stable_grows _).bind (fun _ => Keeps.pure _)))
        refine (keeps_allocBlock stable_grows).bind (fun r => ?_)
        cases r with
        | none => exact Keeps.pure _
        | some bn =>
            exact (keeps_note stable_grows _).bind (fun _ => (keeps_storeWord stable_grows _ _).bind
              (fun _ => (keeps_diskaddr stable_grows bn).bind (fun va =>
                (keeps_flushBlock stable_grows va).bind (fun _ =>
                  (keeps_loadWord stable_grows _).bind (fun _ =>
                    (keeps_diskaddr stable_grows _).bind (fun _ => Keeps.pure _))))))
  obtain ⟨hs₁, hwalked, hwalk⟩ := h₁
  have hedits : Edits (GetEdit f i) s.view s₁.view := hwalked.mono (fun e he => Or.inl he)
  have hold : ∀ b, Holds s₁.view (slotOf f i) b → Holds s.view (slotOf f i) b := fun b hb =>
    hwalked.holds_of hs.disk hb (fun _ _ _ ⟨_, hc⟩ => by cases hc)
      (fun _ hc => (slotOf_ne_indirect hc).elim)
  cases r with
  | error e =>
      cases e with
      | inval => exact noted_of_returns ⟨hs₁, hedits, hwalk, fun b hb => Or.inl (hold b hb)⟩
      | noDisk =>
          refine noted_of_returns ⟨hs₁, hedits, ?_, fun b hb => Or.inl (hold b hb)⟩
          have hneeds : needs s.view f i = 2 := if_pos hwalk.1
          show freeCount s.view < needs s.view f i
          rw [hneeds, hwalk.2.1]
          decide
      | notFound => exact hwalk.elim
      | badPath => exact hwalk.elim
      | fileExists => exact hwalk.elim
  | ok va =>
      obtain ⟨hexist, rfl, hmiss, hhave⟩ := hwalk
      have hkind : ∀ e, GetEdit f i e → (∀ n, e ≠ .resize f n) ∧ e ≠ .grow f := by
        rintro e (⟨b, rfl⟩ | ⟨b, rfl⟩)
        · exact ⟨fun n => by simp, by simp⟩
        · exact ⟨fun n => by simp, by simp⟩
      have hf₁ := hedits.reach hs.disk hf
      have hsize := hedits.fileSize hs.disk hf hkind
      have hdir : IsDir s₁.view f → IsDir s.view f := (hedits.isDir hs.disk hf).mp
      have hnblocks : dirNblocks s₁.view f = dirNblocks s.view f := by
        unfold dirNblocks
        rw [show word s₁.view (fSizeVa f) = word s.view (fSizeVa f) from hsize]
      have hlive := hf₁.live hexist
      have hfine := hlive.fine hs₁.ready hs₁.owned
      refine wp_seq (loadWord_returns hs₁.ready hlive.aligned hfine) (fun w s₂ h₂ => ?_)
      obtain ⟨hloads, rfl⟩ := h₂
      have hs₂ := hs₁.loads hloads
      rw [← hloads.view] at hedits hexist hmiss hhave hf₁ hnblocks hlive hdir hold ⊢
      have hval : (word s₂.view ((slotOf f i).va s₂.view)).toNat = (slotOf f i).val s₂.view := rfl
      refine wp_ite (fun hzero => ?_) (fun hne => ?_)
      · replace hzero : (slotOf f i).val s₂.view = 0 := by
          rw [← hval, hzero]
          rfl
        refine Noted.mono (takeSlot_wp hs₂ hlive hzero (fun htype => ?_)) (fun r s₃ h₃ => ?_)
        · obtain ⟨hi, hnames⟩ := hrule.dir (hdir htype)
          exact ⟨by rw [hnblocks]; exact hi, hnames⟩
        obtain ⟨hs₃, ⟨rfl, hview, hcount⟩ | ⟨b, rfl, hheld, hedit, hcount, htook⟩⟩ := h₃
        · refine ⟨hs₃, hview ▸ hedits, ?_, fun b hb => Or.inl (hold b (hview ▸ hb))⟩
          show freeCount s.view < needs s.view f i
          by_cases hno : NoIndirect s.view f i
          · rw [needs_noIndirect hno, hmiss hno, hcount]
            decide
          · rw [hhave hno] at hcount hzero
            rw [needs_zero hno hzero, hcount]
            decide
        · refine ⟨hs₃, .step hedits (Or.inr ⟨b, rfl⟩) hedit, ⟨⟨b, hheld, rfl⟩, ?_⟩,
            fun c hc => Or.inr ?_⟩
          swap
          · obtain rfl : c = b := hc.has.val.symm.trans hheld.has.val
            exact htook
          by_cases hno : NoIndirect s.view f i
          · rw [needs_noIndirect hno, hmiss hno, hcount]
          · rw [hhave hno] at hcount hzero
            rw [needs_zero hno hzero, hcount]
      · have hhas : (slotOf f i).Has s₂.view ((slotOf f i).val s₂.view) := by
          refine ⟨hexist, rfl, fun hzero => hne ?_⟩
          exact BitVec.eq_of_toNat_eq (hval.trans hzero)
        have hheld : Holds s₂.view (slotOf f i) ((slotOf f i).val s₂.view) := ⟨hlive.reach, hhas⟩
        refine wp_seq (diskaddr_returns hs₂.ready hhas.ne (hs₂.owned.range _ _ hheld).2)
          (fun va s₃ h₃ => ?_)
        obtain ⟨rfl, rfl⟩ := h₃
        refine noted_of_returns ⟨hs₂, hedits, ⟨⟨_, hheld, rfl⟩, ?_⟩, fun b hb =>
          Or.inl (hold b hb)⟩
        by_cases hno : NoIndirect s.view f i
        · rw [needs_noIndirect hno, hmiss hno]
          omega
        · rw [hhave hno]
          exact Nat.le_add_right _ _

end Fs

end Getting

end Jos

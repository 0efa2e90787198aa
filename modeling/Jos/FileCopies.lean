import Jos.FileResizing
import Jos.ReadOffsets

/-!
# The copy loop

The loop of `file_read` and of `file_write`, from a position that is not negative.
`Copied` is what a part of it has done: which blocks were got, which bytes are where, and
which blocks are new.  Parts that follow each other make one (`Copied.trans`).
-/

namespace Jos

open Programs Bytes Fs

/-! ## How many blocks are wanted -/

instance (v : Bytes.Memory) (f i : Nat) : Decidable (NoIndirect v f i) :=
  inferInstanceAs (Decidable (_ ∧ _))

/-- File `f` has a block for index `i`. -/
def Present (v : Bytes.Memory) (f i : Nat) : Prop :=
  i < ndirect + nindirect ∧ ¬ NoIndirect v f i ∧ (slotOf f i).val v ≠ 0

instance (v : Bytes.Memory) (f i : Nat) : Decidable (Present v f i) :=
  inferInstanceAs (Decidable (_ ∧ _))

/-- The number of indices from `i` to `i + n` without a block. -/
def missing (v : Bytes.Memory) (f i : Nat) : Nat → Nat
  | 0 => 0
  | n + 1 => (if Present v f i then 0 else 1) + missing v f (i + 1) n

/-- The number of blocks that are taken to have them all. -/
def wanted (v : Bytes.Memory) (f i n : Nat) : Nat :=
  missing v f i n + if 0 < n ∧ ndirect < i + n ∧ indirectOf v f = 0 then 1 else 0

section Wanting

variable {v v' : Bytes.Memory} {f i n : Nat}

theorem present_iff : Present v f i ↔ ∃ b, (slotOf f i).Has v b := by
  constructor
  · rintro ⟨hlt, hind, hne⟩
    refine ⟨_, ?_, rfl, hne⟩
    unfold slotOf
    split
    · assumption
    · exact ⟨fun hzero => hind ⟨by omega, hzero⟩, by omega⟩
  · rintro ⟨b, hhas⟩
    refine ⟨?_, fun hno => not_has_noIndirect hno hhas, fun hzero => ?_⟩
    · exact Nat.lt_of_not_le (fun hle => not_exists_large hle hhas)
    · exact hhas.ne (hhas.val.symm.trans hzero)

theorem missing_mono (h : ∀ j, Present v f j → Present v' f j) :
    missing v' f i n ≤ missing v f i n := by
  induction n generalizing i with
  | zero => exact Nat.le_refl 0
  | succ n ih =>
      unfold missing
      refine Nat.add_le_add ?_ ih
      by_cases hi : Present v f i
      · rw [if_pos hi, if_pos (h i hi)]
      · rw [if_neg hi]
        split <;> decide

theorem needs_le : needs v f i ≤ wanted v f i (n + 1) := by
  unfold needs wanted missing
  by_cases hno : ndirect ≤ i ∧ indirectOf v f = 0
  · have hpresent : ¬ Present v f i := fun h => h.2.1 hno
    rw [if_pos hno, if_neg hpresent, if_pos ⟨by omega, by omega, hno.2⟩]
    omega
  · rw [if_neg hno]
    by_cases hzero : (slotOf f i).val v = 0
    · have hpresent : ¬ Present v f i := fun h => h.2.2 hzero
      rw [if_pos hzero, if_neg hpresent]
      omega
    · rw [if_neg hzero]
      exact Nat.zero_le _

/-- What is taken for one index is not wanted any more. -/
theorem wanted_step (hpresent : ∀ j, Present v f j → Present v' f j) (hi : Present v' f i)
    (hindirect : indirectOf v' f = 0 → indirectOf v f = 0) :
    wanted v' f (i + 1) n + needs v f i ≤ wanted v f i (n + 1) := by
  have hmono := missing_mono hpresent (i := i + 1) (n := n)
  unfold needs wanted
  rw [show missing v f i (n + 1) =
    (if Present v f i then 0 else 1) + missing v f (i + 1) n from rfl]
  by_cases hno : ndirect ≤ i ∧ indirectOf v f = 0
  · have hpresent' : ¬ Present v f i := fun h => h.2.1 hno
    have hind : indirectOf v' f ≠ 0 := fun hzero => hi.2.1 ⟨hno.1, hzero⟩
    rw [if_pos hno, if_neg hpresent', if_neg (fun hand => hind hand.2.2),
      if_pos ⟨by omega, by omega, hno.2⟩]
    omega
  · rw [if_neg hno]
    have hrest : (if 0 < n ∧ ndirect < i + 1 + n ∧ indirectOf v' f = 0 then 1 else 0) ≤
        if 0 < n + 1 ∧ ndirect < i + (n + 1) ∧ indirectOf v f = 0 then 1 else 0 := by
      split
      · rename_i hand
        rw [if_pos ⟨by omega, by omega, hindirect hand.2.2⟩]
      · exact Nat.zero_le _
    by_cases hzero : (slotOf f i).val v = 0
    · have hpresent' : ¬ Present v f i := fun h => h.2.2 hzero
      rw [if_pos hzero, if_neg hpresent']
      omega
    · rw [if_neg hzero]
      omega

end Wanting

/-! ## What a part of the loop has done -/

/-- Byte `k` of file `f` is written, by one of these notes. -/
def WrittenBy (t : List (FsNote × Store)) (f k : Nat) : Prop :=
  ∃ dst src n st b, (FsNote.copied f dst src n, st) ∈ t ∧ (slotOf f (k / 4096)).Has st.view b ∧
    dst ≤ blkVa b + k % 4096 ∧ blkVa b + k % 4096 < dst + n

/-- The edits of the loop, from byte `lo` to byte `hi`, if it is to go on to `last`. -/
def CopyEdit (f : Nat) (write : Bool) (lo hi last : Nat) (e : FileEdit) : Prop :=
  (∃ i, lo / 4096 ≤ i ∧ 4096 * i < last ∧ GetEdit f i e) ∨
  (write = false ∧ e = .buffer) ∨
  (write = true ∧ ∃ k n, lo ≤ k ∧ k + n ≤ hi ∧ e = .data f k n)

/-- Bytes `lo` to `hi` of file `f` are copied. -/
structure Copied (Ok : FsNote → Store → Prop) (f : Nat) (write : Bool) (buf lo hi last : Nat)
    (s s' : Fs) : Prop where
  edits : Edits (CopyEdit f write lo hi last) s.view s'.view
  outside : ∀ x, ¬ InDisk x → write = true ∨ x < buf ∨ buf + (hi - lo) ≤ x → s'.view x = s.view x
  bytes : ¬ IsDir s.view f → ∀ k, lo ≤ k → k < hi → ∃ b, Holds s'.view (slotOf f (k / 4096)) b ∧
    s'.view (buf + (k - lo)) = s'.view (blkVa b + k % 4096)
  /-- A new block is as it was found, but for the bytes that are written. -/
  fresh : ¬ IsDir s.view f → ∀ i b, Holds s'.view (slotOf f i) b → Holds s.view (slotOf f i) b ∨
    ∃ st, Ok (.took f i b) st ∧ ∀ a, a < 4096 →
      write = false ∨ 4096 * i + a < lo ∨ hi ≤ 4096 * i + a →
      s'.view (blkVa b + a) = st.view (blkVa b + a)
  written : write = true → ∀ k, lo ≤ k → k < hi → WrittenBy s'.trace f k
  grows : s.trace <:+ s'.trace

section Copies

variable {Ok : FsNote → Store → Prop} {f i b buf lo mid hi last m n k : Nat} {write : Bool}
  {s s' s₁ : Fs} {e : FileEdit} {q : Slot}

theorem copyEdit_clear : ¬ CopyEdit f write lo hi last (.clear q) := by
  rintro (⟨i, -, -, ⟨b, hb⟩ | ⟨b, hb⟩⟩ | ⟨-, hb⟩ | ⟨-, k, n, -, -, hb⟩) <;> cases hb

theorem copyEdit_data {g : Nat} (h : CopyEdit f write lo hi last (.data g k n)) :
    g = f ∧ write = true ∧ lo ≤ k ∧ k + n ≤ hi := by
  rcases h with ⟨i, -, -, ⟨b, hb⟩ | ⟨b, hb⟩⟩ | ⟨-, hb⟩ | ⟨hwrite, k, n, hlo, hhi, hb⟩
  · cases hb
  · cases hb
  · cases hb
  · cases hb
    exact ⟨rfl, hwrite, hlo, hhi⟩

theorem copyEdit_size {g : Nat} (h : CopyEdit f write lo hi last e) :
    (∀ n, e ≠ .resize g n) ∧ e ≠ .grow g := by
  rcases h with ⟨i, -, -, ⟨b, rfl⟩ | ⟨b, rfl⟩⟩ | ⟨-, rfl⟩ | ⟨-, k, n, -, -, rfl⟩ <;> simp

theorem CopyEdit.mono {lo' hi' : Nat} (h : CopyEdit f write lo hi last e) (hlo : lo' ≤ lo)
    (hhi : hi ≤ hi') : CopyEdit f write lo' hi' last e := by
  rcases h with ⟨i, hi, hlast, hget⟩ | hbuf | ⟨hwrite, k, n, hk, hn, rfl⟩
  · exact Or.inl ⟨i, Nat.le_trans (Nat.div_le_div_right hlo) hi, hlast, hget⟩
  · exact Or.inr (Or.inl hbuf)
  · exact Or.inr (Or.inr ⟨hwrite, k, n, by omega, by omega, rfl⟩)

section Frames

variable {v v' : Bytes.Memory} {g a : Nat}

theorem Edits.holds_copied (h : Edits (CopyEdit f write lo hi last) v v') (hv : DiskOk v)
    (hq : Holds v q b) : Holds v' q b :=
  h.holds hv hq (fun _ _ he heq => by
    subst heq
    exact absurd he copyEdit_clear)

theorem Edits.byte_copied (h : Edits (CopyEdit f write lo hi last) v v') (hv : DiskOk v)
    (hp : Holds v (slotOf g i) b) (hfile : ¬ IsDir v g) (ha : a < 4096)
    (hout : g ≠ f ∨ write = false ∨ 4096 * i + a < lo ∨ hi ≤ 4096 * i + a) :
    v' (blkVa b + a) = v (blkVa b + a) := by
  refine h.byte hv hp hfile ha (fun e q he heq => ?_) (fun e k n he heq => ?_)
  · subst heq
    exact absurd he copyEdit_clear
  · subst heq
    obtain ⟨hgf, hwrite, hlo, hhi⟩ := copyEdit_data he
    rcases hout with hne | hfalse | hout
    · exact absurd hgf hne
    · rw [hwrite] at hfalse
      cases hfalse
    · omega

end Frames

theorem Copied.refl : Copied Ok f write buf lo lo last s s where
  edits := .refl
  outside := fun _ _ _ => rfl
  bytes := fun _ _ hlo hhi => absurd hhi (Nat.not_lt.mpr hlo)
  fresh := fun _ _ _ hb => Or.inl hb
  written := fun _ _ hlo hhi => absurd hhi (Nat.not_lt.mpr hlo)
  grows := List.suffix_rfl

/-- Two parts that follow each other. -/
theorem Copied.trans (hs : DiskOk s.view) (hf : Reach s.view f) (hlo : lo ≤ mid) (hhi : mid ≤ hi)
    (hbuf : ∀ x, buf ≤ x → x < buf + (hi - lo) → ¬ InDisk x)
    (h : Copied Ok f write buf lo mid last s s₁)
    (h' : Copied Ok f write (buf + (mid - lo)) mid hi last s₁ s') :
    Copied Ok f write buf lo hi last s s' := by
  have hs₁ := h.edits.diskOk hs
  have hdir : ¬ IsDir s.view f → ¬ IsDir s₁.view f := mt (h.edits.isDir hs hf).mp
  refine ⟨(h.edits.mono (fun e he => he.mono (Nat.le_refl lo) hhi)).trans
    (h'.edits.mono (fun e he => he.mono hlo (Nat.le_refl hi))), fun x hx hor => ?_,
    fun hfile k hle hlt => ?_, fun hfile i b hb => ?_, fun hwrite k hle hlt => ?_,
    h.grows.trans h'.grows⟩
  · refine (h'.outside x hx ?_).trans (h.outside x hx ?_)
    · exact hor.imp id (fun hor => hor.imp (fun hlt => by omega) (fun hle => by omega))
    · exact hor.imp id (fun hor => hor.imp id (fun hle => by omega))
  · by_cases hmid : k < mid
    · obtain ⟨b, hheld, hbyte⟩ := h.bytes hfile k hle hmid
      have hbyte' := h'.edits.byte_copied hs₁ hheld (hdir hfile) (Nat.mod_lt k (by decide))
        (Or.inr (Or.inr (Or.inl (by omega))))
      have hout := h'.outside (buf + (k - lo)) (hbuf _ (by omega) (by omega))
        (Or.inr (Or.inl (by omega)))
      exact ⟨b, h'.edits.holds_copied hs₁ hheld, hout.trans (hbyte.trans hbyte'.symm)⟩
    · obtain ⟨b, hheld, hbyte⟩ := h'.bytes (hdir hfile) k (by omega) hlt
      refine ⟨b, hheld, ?_⟩
      rw [← hbyte]
      exact congrArg s'.view (by omega)
  · rcases h'.fresh (hdir hfile) i b hb with hb₁ | ⟨st, hst, hbytes⟩
    · rcases h.fresh hfile i b hb₁ with hb₀ | ⟨st, hst, hbytes⟩
      · exact Or.inl hb₀
      · refine Or.inr ⟨st, hst, fun a ha hout => ?_⟩
        refine (h'.edits.byte_copied hs₁ hb₁ (hdir hfile) ha ?_).trans (hbytes a ha ?_)
        · exact Or.inr (hout.imp id (fun hor => hor.imp (fun hlt => by omega) id))
        · exact hout.imp id (fun hor => hor.imp id (fun hle => by omega))
    · refine Or.inr ⟨st, hst, fun a ha hout => hbytes a ha ?_⟩
      exact hout.imp id (fun hor => hor.imp (fun hlt => by omega) id)
  · by_cases hmid : k < mid
    · obtain ⟨dst, src, n, st, b, hmem, hrest⟩ := h.written hwrite k hle hmid
      exact ⟨dst, src, n, st, b, h'.grows.subset hmem, hrest⟩
    · exact h'.written hwrite k (by omega) hlt

/-- A block was got for the next byte. -/
theorem Copied.got (hs : DiskOk s.view) (hlast : 4096 * (lo / 4096) < last)
    (hedits : Edits (GetEdit f (lo / 4096)) s.view s₁.view)
    (htook : ∀ b, Holds s₁.view (slotOf f (lo / 4096)) b →
      Holds s.view (slotOf f (lo / 4096)) b ∨ Took Ok f (lo / 4096) b s₁.view)
    (hgrows : s.trace <:+ s₁.trace) : Copied Ok f write buf lo lo last s s₁ where
  edits := hedits.mono (fun e he => Or.inl ⟨_, Nat.le_refl _, hlast, he⟩)
  outside := fun x hx _ => hedits.outside hs hx (fun e he => by
    rcases he with ⟨b, rfl⟩ | ⟨b, rfl⟩ <;> simp)
  bytes := fun _ _ hlo hhi => absurd hhi (Nat.not_lt.mpr hlo)
  fresh := fun _ i b hb => by
    by_cases hi : i = lo / 4096
    · subst hi
      refine (htook b hb).imp id (fun ⟨st, hst, hbytes⟩ => ⟨st, hst, fun a ha _ => ?_⟩)
      exact hbytes _ (Nat.le_add_right _ _) (by omega)
    · refine Or.inl (hedits.holds_of hs hb ?_ ?_)
      · rintro g j hslot (⟨c, hc⟩ | ⟨c, hc⟩)
        · cases hc
        · cases hc
          exact hi (slotOf_inj hslot).2
      · rintro g hslot -
        exact slotOf_ne_indirect hslot
  written := fun _ _ hlo hhi => absurd hhi (Nat.not_lt.mpr hlo)
  grows := hgrows

/-- Bytes of a block were read. -/
theorem Copied.readPart (hs : DiskOk s.view) (hb : Holds s.view (slotOf f (lo / 4096)) b)
    (hm : lo % 4096 + m ≤ 4096) (hbuf : ∀ x, buf ≤ x → x < buf + m → ¬ InDisk x)
    (hview : s'.view = move s.view buf (blkVa b + lo % 4096) m) (hgrows : s.trace <:+ s'.trace) :
    Copied Ok f false buf lo (lo + m) last s s' := by
  have hblocks := hs.checked.blocks
  have hrange := hs.owned.range _ _ hb
  have hout : ∀ x, x < buf ∨ buf + m ≤ x → s'.view x = s.view x := fun x hx => by
    rw [hview]
    exact if_neg (by omega)
  have hdisk : DiskEq s.view s'.view := fun x hx => by
    refine hout x ?_
    by_cases hle : buf ≤ x
    · exact Or.inr (Nat.le_of_not_lt (fun hlt => hbuf x hle hlt hx))
    · exact Or.inl (Nat.lt_of_not_le hle)
  have hmeta := hdisk.meta hblocks hs.owned
  refine ⟨.one (Or.inr (Or.inl ⟨rfl, rfl⟩)) (.buffer hdisk), fun x hx hor => hout x ?_,
    fun _ k hle hlt => ⟨b, ?_, ?_⟩, fun _ i c hc => Or.inl ((frame_holds hmeta).mp hc),
    (by simp), hgrows⟩
  · rcases hor with hfalse | hor
    · cases hfalse
    · omega
  · rw [show k / 4096 = lo / 4096 by omega]
    exact (frame_holds hmeta).mpr hb
  · rw [hdisk _ (inDisk_block hblocks hrange.2 (Nat.le_add_right _ _) (by omega)), hview]
    refine (if_pos (by omega)).trans (congrArg s.view (by omega))

/-- Bytes of a block were written. -/
theorem Copied.writePart (hs : DiskOk s.view) (hb : Holds s.view (slotOf f (lo / 4096)) b)
    (hfile : ¬ IsDir s.view f) (hm : lo % 4096 + m ≤ 4096)
    (hbuf : ∀ x, buf ≤ x → x < buf + m → ¬ InDisk x)
    (hview : s'.view = move s.view (blkVa b + lo % 4096) buf m)
    (hnote : ∃ src st, (FsNote.copied f (blkVa b + lo % 4096) src m, st) ∈ s'.trace ∧
      st.view = s.view) (hgrows : s.trace <:+ s'.trace) :
    Copied Ok f true buf lo (lo + m) last s s' := by
  have hblocks := hs.checked.blocks
  have hrange := hs.owned.range _ _ hb
  have hout : ∀ x, x < blkVa b + lo % 4096 ∨ blkVa b + lo % 4096 + m ≤ x →
      s'.view x = s.view x := fun x hx => by
    rw [hview]
    exact if_neg (by omega)
  have hedit : Edit s.view (.data f lo m) s'.view := by
    have hdata : Edit s.view (.data f (4096 * (lo / 4096) + lo % 4096) m) s'.view :=
      .data hb hfile hm hout
    rwa [Nat.div_add_mod] at hdata
  have houtside : ∀ x, ¬ InDisk x → s'.view x = s.view x := fun x hx =>
    hedit.outside hs hx (by simp)
  refine ⟨.one (Or.inr (Or.inr ⟨rfl, lo, m, Nat.le_refl _, Nat.le_refl _, rfl⟩)) hedit,
    fun x hx _ => houtside x hx, fun _ k hle hlt => ⟨b, ?_, ?_⟩, fun _ i c hc => ?_,
    fun _ k hle hlt => ?_, hgrows⟩
  · rw [show k / 4096 = lo / 4096 by omega]
    exact hedit.holds hs hb (by simp)
  · rw [houtside _ (hbuf _ (by omega) (by omega)), hview]
    exact ((if_pos (by omega)).trans (congrArg s.view (by omega))).symm
  · rcases hedit.holds_or hs hc with hc | ⟨g, j, -, heq⟩ | ⟨g, -, heq⟩
    · exact Or.inl hc
    · cases heq
    · cases heq
  · obtain ⟨src, st, hmem, hst⟩ := hnote
    refine ⟨_, src, m, st, b, hmem, ?_, by omega, by omega⟩
    rw [show k / 4096 = lo / 4096 by omega, hst]
    exact hb.has

end Copies

/-! ## The loop -/

section Loop

variable {Ok : FsNote → Store → Prop} {s s' : Fs} {v v' : Bytes.Memory} {f i buf n : Nat}
  {write : Bool} {pos last : U32} {P : FileEdit → Prop}

/-- How the loop ends, after `stop` bytes of the file. -/
def CopyResult (v : Bytes.Memory) (f lo stop last : Nat) : FsResult Unit → Prop
  | .ok () => stop = last
  | .error .inval => stop < last ∧ maxfilesize ≤ stop
  | .error .noDisk => stop < last ∧
      freeCount v < wanted v f (lo / 4096) ((last + 4095) / 4096 - lo / 4096)
  | .error _ => False

/-- Blocks stay. -/
theorem Copied.present {lo hi last : Nat} (h : Copied Ok f write buf lo hi last s s')
    (hs : DiskOk s.view) (hf : Reach s.view f) (hi : Present s.view f i) : Present s'.view f i := by
  obtain ⟨b, hhas⟩ := present_iff.mp hi
  have hheld : Holds s.view (slotOf f i) b := ⟨by rw [slotOf_file]; exact hf, hhas⟩
  exact present_iff.mpr ⟨b, (h.edits.holds_copied hs hheld).has⟩

/-- A block that was got is not wanted any more. -/
theorem Copied.wanted {lo hi last : Nat} (h : Copied Ok f write buf lo hi last s s')
    (hs : DiskOk s.view) (hf : Reach s.view f) (hi : Present s'.view f i) :
    Jos.wanted s'.view f (i + 1) n + needs s.view f i ≤ Jos.wanted s.view f i (n + 1) := by
  refine wanted_step (fun j hj => h.present hs hf hj) hi (fun hzero => ?_)
  by_contra hne
  have hheld : Holds s.view (.indirect f) (indirectOf s.view f) := ⟨hf, trivial, rfl, hne⟩
  have hheld' := h.edits.holds_copied hs hheld
  exact hheld'.has.ne (hheld'.has.val.symm.trans hzero)

namespace Fs

/-- What is asked of the notes stays the same while blocks are got and bytes are copied. -/
theorem GetRule.edits (h : GetRule Ok v f i) (hedits : Edits P v v') (hv : DiskOk v)
    (hf : Reach v f) (hclear : ∀ q, ¬ P (.clear q))
    (hsize : ∀ e, P e → (∀ n, e ≠ .resize f n) ∧ e ≠ .grow f) : GetRule Ok v' f i where
  indirect := fun hno => h.indirect ⟨hno.1, by
    by_contra hne
    have hheld : Holds v (.indirect f) (indirectOf v f) := ⟨hf, trivial, rfl, hne⟩
    have hheld' := hedits.holds hv hheld (fun e q he heq => by
      subst heq
      exact absurd he (hclear q))
    exact hheld'.has.ne (hheld'.has.val.symm.trans hno.2)⟩
  dir := fun htype => by
    obtain ⟨hi, hnames⟩ := h.dir ((hedits.isDir hv hf).mp htype)
    have hword : word v' (fSizeVa f) = word v (fSizeVa f) := hedits.fileSize hv hf hsize
    refine ⟨?_, hnames⟩
    unfold dirNblocks at hi ⊢
    rw [hword]
    exact hi

/-- One turn, once there is a block. -/
theorem copyTurn_wp {α : Type} {g : Unit → FsProg α} {Q : Post Fs α} {b lo m last : Nat}
    (hs : Mount s) (hb : Holds s.view (slotOf f (lo / 4096)) b)
    (hfile : write = true → ¬ IsDir s.view f) (hm : lo % 4096 + m ≤ 4096)
    (hbuf : ∀ x, buf ≤ x → x < buf + m → ¬ InDisk x)
    (hg : ∀ s', Mount s' → Copied Ok f write buf lo (lo + m) last s s' →
      (∀ c, Free s'.view c ↔ Free s.view c) → wp (g ()) Q s') :
    wp (note (.copied f (if write then blkVa b + lo % 4096 else buf)
      (if write then buf else blkVa b + lo % 4096) m) >>= fun _ =>
      memmove (if write then blkVa b + lo % 4096 else buf)
        (if write then buf else blkVa b + lo % 4096) m >>= g) Q s := by
  have hblock : ∀ x, blkVa b + lo % 4096 ≤ x → x < blkVa b + lo % 4096 + m → Fine s x :=
    fun x hle hlt => hb.fine hs.owned (by omega) (by omega)
  have hbuffer : ∀ x, buf ≤ x → x < buf + m → Fine s x := fun x hle hlt hdisk =>
    absurd hdisk (hbuf x hle hlt)
  have hmount : ∀ s' v dst n t, Stores { s with trace := t } s' v dst n →
      Copied Ok f write buf lo (lo + m) last s s' → Mount s' := by
    intro s' v dst n t hstores hpart
    have hdisk := hpart.edits.diskOk hs.disk
    refine Mount.of_ready (hs.ready.note.stores hstores ?_) hdisk
    rw [← hstores.view]
    exact hdisk.checked
  cases write with
  | false =>
      change wp (note (.copied f buf (blkVa b + lo % 4096) m) >>= fun _ =>
        memmove buf (blkVa b + lo % 4096) m >>= g) Q s
      refine wp_modify_bind.mpr (wp_seq (memmove_returns hs.ready.note hblock hbuffer)
        (fun _ s₂ h => ?_))
      have hgrows : s.trace <:+ s₂.trace := by
        rw [h.trace]
        exact List.suffix_cons _ _
      have hpart : Copied Ok f false buf lo (lo + m) last s s₂ :=
        .readPart hs.disk hb hm hbuf h.view hgrows
      refine hg s₂ (hmount s₂ _ _ _ _ h hpart) hpart (fun c => DiskEq.free (fun x hx => ?_))
      rw [h.view]
      exact if_neg (fun hin => hbuf x hin.1 hin.2 hx)
  | true =>
      change wp (note (.copied f (blkVa b + lo % 4096) buf m) >>= fun _ =>
        memmove (blkVa b + lo % 4096) buf m >>= g) Q s
      refine wp_modify_bind.mpr (wp_seq (memmove_returns hs.ready.note hbuffer hblock)
        (fun _ s₂ h => ?_))
      have hgrows : s.trace <:+ s₂.trace := by
        rw [h.trace]
        exact List.suffix_cons _ _
      have hpart : Copied Ok f true buf lo (lo + m) last s s₂ := by
        refine .writePart hs.disk hb (hfile rfl) hm hbuf h.view ⟨buf, s.toStore, ?_, rfl⟩ hgrows
        rw [h.trace]
        exact List.mem_cons_self
      refine hg s₂ (hmount s₂ _ _ _ _ h hpart) hpart (DataWrite.bits (b := b) (fun x hx => ?_)
        (hs.owned.range _ _ hb).1).2
      rw [h.view]
      exact if_neg (by omega)

theorem copyFrom_wp (hs : Mount s) (hf : Reach s.view f)
    (hfile : write = true → ¬ IsDir s.view f) (hpos : pos.toNat < 2 ^ 31)
    (hle : pos.toNat ≤ last.toNat)
    (hrule : ∀ i, pos.toNat / 4096 ≤ i → 4096 * i < last.toNat → GetRule Ok s.view f i)
    (hbuf : ∀ x, buf ≤ x → x < buf + (min last.toNat maxfilesize - pos.toNat) → ¬ InDisk x)
    (hfuel : last.toNat - pos.toNat ≤ n) :
    wp (copyFrom f write last buf pos n) (Noted Ok (fun r s' => Mount s' ∧
      ∃ stop, pos.toNat ≤ stop ∧ stop ≤ last.toNat ∧ stop ≤ max pos.toNat maxfilesize ∧
        Copied Ok f write buf pos.toNat stop last.toNat s s' ∧
        CopyResult s.view f pos.toNat stop last.toNat r)) s := by
  have hmax : maxfilesize = (ndirect + nindirect) * 4096 := rfl
  have hbound : maxfilesize < 2 ^ 31 := by decide
  induction n generalizing buf pos s with
  | zero => exact noted_of_returns ⟨hs, _, Nat.le_refl _, hle, Nat.le_max_left _ _, .refl,
      (by omega : _ = _)⟩
  | succ n ih =>
      by_cases hlt : pos < last
      swap
      · have hdone : pos.toNat = last.toNat := Nat.le_antisymm hle (Nat.le_of_not_lt hlt)
        refine noted_of_returns (Returns.mono (copyFrom_done hlt) (fun r s' h => ?_))
        obtain ⟨rfl, rfl⟩ := h
        exact ⟨hs, _, Nat.le_refl _, hle, Nat.le_max_left _ _, .refl, hdone⟩
      unfold copyFrom
      rw [if_pos hlt, sdiv_nat hpos]
      replace hlt : pos.toNat < last.toNat := hlt
      have hlast : 4096 * (pos.toNat / 4096) < last.toNat := by omega
      refine noted_bind (noted_grows (fileGetBlock_wp hs hf (hrule _ (Nat.le_refl _) hlast))
        (fun t => keeps_fileGetBlock stable_grows _ _)) (fun r t => ?_) (fun r s₁ h₁ => ?_)
      · cases r with
        | error e => exact Keeps.pure _
        | ok blk =>
            exact (keeps_note stable_grows _).bind (fun _ =>
              (keeps_memmove stable_grows _ _ _).bind (fun _ =>
                keeps_copyFrom stable_grows _ _ _ _ _ _))
      obtain ⟨⟨hs₁, hedits, hresult, htook⟩, hgrow⟩ := h₁
      have hgot : Copied Ok f write buf pos.toNat pos.toNat last.toNat s s₁ :=
        .got hs.disk hlast hedits htook hgrow
      cases r with
      | error e =>
          refine noted_of_returns ⟨hs₁, _, Nat.le_refl _, hle, Nat.le_max_left _ _, hgot, ?_⟩
          cases e with
          | inval =>
              have hlarge : ndirect + nindirect ≤ pos.toNat / 4096 := hresult.1
              exact ⟨hlt, by omega⟩
          | noDisk =>
              refine ⟨hlt, Nat.lt_of_lt_of_le hresult ?_⟩
              obtain ⟨k, hk⟩ : ∃ k, (last.toNat + 4095) / 4096 - pos.toNat / 4096 = k + 1 :=
                ⟨(last.toNat + 4095) / 4096 - pos.toNat / 4096 - 1, by omega⟩
              rw [hk]
              exact needs_le
          | notFound => exact hresult.elim
          | badPath => exact hresult.elim
          | fileExists => exact hresult.elim
      | ok blk =>
          obtain ⟨⟨b, hheld, rfl⟩, hcount⟩ := hresult
          have hpresent : Present s₁.view f (pos.toNat / 4096) := present_iff.mpr ⟨b, hheld.has⟩
          have hsmall : pos.toNat / 4096 < ndirect + nindirect := hpresent.1
          have hchunk := chunk_nat hlt hpos
          have hsum : (pos + chunk pos last).toNat = pos.toNat + (chunk pos last).toNat := by
            have hlast' := last.isLt
            rw [BitVec.toNat_add]
            omega
          have hlimit : pos.toNat + (chunk pos last).toNat ≤ min last.toNat maxfilesize := by
            omega
          have hfile₁ : write = true → ¬ IsDir s₁.view f := fun hwrite =>
            mt (hgot.edits.isDir hs.disk hf).mp (hfile hwrite)
          dsimp only
          rw [inBlock_nat hpos]
          generalize hm : (chunk pos last).toNat = m at hchunk hsum hlimit
          refine copyTurn_wp hs₁ hheld hfile₁ (by omega)
            (fun x hle' hlt' => hbuf x hle' (by omega)) (fun s₂ hs₂ (hpart : Copied Ok f write buf
              pos.toNat (pos.toNat + m) last.toNat s₁ s₂) hfree => ?_)
          have hturn : Copied Ok f write buf pos.toNat (pos.toNat + m) last.toNat s s₂ := by
            refine .trans hs.disk hf (Nat.le_refl _) (Nat.le_add_right _ _)
              (fun x hle' hlt' => hbuf x hle' (by omega)) hgot ?_
            rw [Nat.sub_self, Nat.add_zero]
            exact hpart
          have hf₂ := hturn.edits.reach hs.disk hf
          refine Noted.mono (@ih s₂ (buf + m) (pos + chunk pos last) hs₂ hf₂
            (fun hwrite => mt (hturn.edits.isDir hs.disk hf).mp (hfile hwrite)) (by omega)
            (by omega) (fun i hi hlt' => ?_) (fun x hle' hlt' => ?_) (by omega))
            (fun r s₃ h₃ => ?_)
          · exact (hrule i (by rw [hsum] at hi; omega) hlt').edits hturn.edits hs.disk hf
              (fun q => copyEdit_clear) (fun e he => copyEdit_size he)
          · rw [hsum] at hlt'
            exact hbuf x (by omega) (by omega)
          · obtain ⟨hs₃, stop, hlo, hhi, hcap, hrest, hend⟩ := h₃
            rw [hsum] at hlo hcap hrest hend
            refine ⟨hs₃, stop, by omega, hhi, by omega, ?_, ?_⟩
            · refine .trans hs.disk hf (Nat.le_add_right _ m) hlo
                (fun x hle' hlt' => hbuf x hle' (by omega)) hturn ?_
              rw [Nat.add_sub_cancel_left]
              exact hrest
            · cases r with
              | ok u => exact hend
              | error e =>
                  cases e with
                  | inval => exact hend
                  | noDisk =>
                      obtain ⟨hstop, hfew⟩ := hend
                      refine ⟨hstop, ?_⟩
                      have hnext : (pos.toNat + m) / 4096 = pos.toNat / 4096 + 1 := by omega
                      obtain ⟨k, hk⟩ : ∃ k, (last.toNat + 4095) / 4096 - pos.toNat / 4096 = k + 1 :=
                        ⟨(last.toNat + 4095) / 4096 - pos.toNat / 4096 - 1, by omega⟩
                      rw [hnext,
                        show (last.toNat + 4095) / 4096 - (pos.toNat / 4096 + 1) = k by omega,
                        freeCount_congr hfree] at hfew
                      have hstep := hturn.wanted hs.disk hf (n := k) (i := pos.toNat / 4096)
                        (hpart.present hs₁.disk (hgot.edits.reach hs.disk hf) hpresent)
                      rw [hk]
                      omega
                  | notFound => exact hend.elim
                  | badPath => exact hend.elim
                  | fileExists => exact hend.elim

end Fs

end Loop

end Jos

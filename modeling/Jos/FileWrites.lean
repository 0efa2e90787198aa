import Jos.FileCopies

/-!
# What `file_read` and `file_write` do

A file that is no directory, or any file that is read, from an offset that is not negative.
Blocks that are missing are taken on the way, and so both can end early; `Wrote` and
`ReadBack` say what was done up to there.

* `HasByte` is a byte of a file that is in a block.
* `fileWrite_wp` and `fileRead_wp` are the results.
-/

namespace Jos

open Programs Bytes Fs

/-- Byte `k` of file `f` is in a block, and is `x`. -/
def HasByte (v : Bytes.Memory) (f k : Nat) (x : U8) : Prop :=
  ∃ b, Holds v (slotOf f (k / 4096)) b ∧ v (blkVa b + k % 4096) = x

/-- The edits of `file_write`, which sets the size first. -/
def WriteEdit (f lo hi last : Nat) (e : FileEdit) : Prop :=
  (∃ n, e = .resize f n) ∨ CopyEdit f true lo hi last e

/-- Bytes `lo` to `hi` of file `f` were written from `buf`; it was to go on to `last`. -/
structure Wrote (v v' : Bytes.Memory) (f buf lo hi last : Nat) : Prop where
  edits : Edits (WriteEdit f lo hi last) v v'
  size : (fileSize v' f).toNat = max (fileSize v f).toNat last
  bytes : ∀ k, lo ≤ k → k < hi → HasByte v' f k (v (buf + (k - lo)))

/-- How `file_write` ends, after byte `stop`. -/
inductive WriteResult (v : Bytes.Memory) (f lo stop : Nat) (count : U32) : U32 → Prop where
  | done : stop = lo + count.toNat → WriteResult v f lo stop count count
  | large : stop < lo + count.toNat → maxfilesize ≤ stop →
      WriteResult v f lo stop count FsErr.inval.code
  | full : stop < lo + count.toNat →
      freeCount v < wanted v f (lo / 4096) ((lo + count.toNat + 4095) / 4096 - lo / 4096) →
      WriteResult v f lo stop count FsErr.noDisk.code

/-- Bytes `lo` to `hi` of file `f` were read to `buf`; it was to go on to `last`. -/
structure ReadBack (v v' : Bytes.Memory) (f buf lo hi last : Nat) : Prop where
  edits : Edits (CopyEdit f false lo hi last) v v'
  outside : ∀ x, ¬ InDisk x → x < buf ∨ buf + (hi - lo) ≤ x → v' x = v x
  bytes : ¬ IsDir v f → ∀ k x, lo ≤ k → k < hi → HasByte v f k x → v' (buf + (k - lo)) = x

/-- How `file_read` ends: `n` bytes were asked for and are there. -/
inductive ReadResult (v : Bytes.Memory) (f lo stop n : Nat) : U32 → Prop where
  | done {r : U32} : stop = lo + n → r.toNat = n → ReadResult v f lo stop n r
  | large : stop < lo + n → maxfilesize ≤ stop → ReadResult v f lo stop n FsErr.inval.code
  | full : stop < lo + n →
      freeCount v < wanted v f (lo / 4096) ((lo + n + 4095) / 4096 - lo / 4096) →
      ReadResult v f lo stop n FsErr.noDisk.code

section Edits

variable {P : FileEdit → Prop} {v v' : Bytes.Memory} {f g i k lo hi last b c : Nat} {x y : U8}
  {e : FileEdit} {p : Slot}

theorem Holds.unique (h : Holds v p b) (h' : Holds v p c) : b = c :=
  h.has.val.symm.trans h'.has.val

theorem HasByte.reach (h : HasByte v f k x) : Reach v f := by
  obtain ⟨b, hb, -⟩ := h
  simpa using hb.reach

/-- A byte of a file stays if its block is not given back and the byte is not written. -/
theorem Edits.hasByte (h : Edits P v v') (hv : DiskOk v) (hfile : ¬ IsDir v f)
    (hclear : ∀ q, P (.clear q) → slotOf f (k / 4096) ≠ q ∧
      ∀ g j, q = .indirect g → slotOf f (k / 4096) ≠ .entry g j)
    (hdata : ∀ lo n, P (.data f lo n) → k < lo ∨ lo + n ≤ k) (hx : HasByte v f k x) :
    HasByte v' f k x := by
  induction h with
  | refl => exact hx
  | step h hP he ih =>
      have hv₁ := h.diskOk hv
      obtain ⟨b, hb, rfl⟩ := ih
      refine ⟨b, he.holds hv₁ hb (fun q heq => ?_), ?_⟩
      · subst heq
        exact hclear q hP
      · refine he.byte hv₁ hb (mt (h.isDir hv hx.reach).mp hfile) (Nat.mod_lt k (by decide))
          (fun lo n heq => ?_)
        subst heq
        have hout := hdata lo n hP
        omega

/-- Setting a size does not change which blocks are free or whose they are. -/
theorem Edits.resize_same {n : U32} (h : Edits (· = .resize f n) v v') (hv : DiskOk v) :
    (∀ c, Free v' c ↔ Free v c) ∧ ∀ q c, Holds v' q c ↔ Holds v q c := by
  induction h with
  | refl => simp
  | @step v₁ v₂ e h hP he ih =>
      subst hP
      have hv₁ := h.diskOk hv
      cases he with
      | resize hf hfile =>
          constructor
          · exact fun c => ((sizeStore_setWord.bits hv₁.owned hf).2 c).trans (ih.1 c)
          · exact fun q c =>
              (sizeStore_setWord.sameTree hv₁.owned hf hfile).holds.trans (ih.2 q c)

theorem present_holds (hf : Reach v f) : Present v f i ↔ ∃ b, Holds v (slotOf f i) b := by
  rw [present_iff]
  constructor
  · rintro ⟨b, hb⟩
    exact ⟨b, by simpa using hf, hb⟩
  · rintro ⟨b, hb⟩
    exact ⟨b, hb.has⟩

theorem indirectOf_holds (hf : Reach v f) : indirectOf v f ≠ 0 ↔ ∃ b, Holds v (.indirect f) b := by
  constructor
  · intro hne
    exact ⟨_, hf, trivial, rfl, hne⟩
  · rintro ⟨b, hb⟩ hzero
    exact hb.has.ne (hb.has.val.symm.trans hzero)

/-- The number of blocks that are wanted depends on who holds what. -/
theorem wanted_congr {n : Nat} (hf : Reach v f) (hf' : Reach v' f)
    (h : ∀ q c, Holds v' q c ↔ Holds v q c) : wanted v' f i n = wanted v f i n := by
  have hpresent : ∀ j, Present v' f j ↔ Present v f j := by
    intro j
    simp [present_holds hf, present_holds hf', h]
  have hindirect : indirectOf v' f = 0 ↔ indirectOf v f = 0 := by
    have hne : indirectOf v' f ≠ 0 ↔ indirectOf v f ≠ 0 := by
      simp [indirectOf_holds hf, indirectOf_holds hf', h]
    exact not_iff_not.mp hne
  have hmissing : missing v' f i n = missing v f i n :=
    Nat.le_antisymm (missing_mono (fun j hj => (hpresent j).mpr hj))
      (missing_mono (fun j hj => (hpresent j).mp hj))
  unfold wanted
  simp [hmissing, hindirect]

theorem writeEdit_clear {q : Slot} : ¬ WriteEdit f lo hi last (.clear q) := by
  rintro (⟨n, hn⟩ | hcopy)
  · cases hn
  · exact copyEdit_clear hcopy

theorem writeEdit_entry {x : Nat} : ¬ WriteEdit f lo hi last (.entry x) := by
  rintro (⟨n, hn⟩ | ⟨i, -, -, ⟨b, hb⟩ | ⟨b, hb⟩⟩ | ⟨-, hb⟩ | ⟨-, k, n, -, -, hb⟩)
  · cases hn
  · cases hb
  · cases hb
  · cases hb
  · cases hb

theorem writeEdit_size (hne : g ≠ f) (he : WriteEdit f lo hi last e) :
    (∀ n, e ≠ .resize g n) ∧ e ≠ .grow g := by
  rcases he with ⟨n, rfl⟩ | hcopy
  · constructor
    · intro m heq
      cases heq
      exact hne rfl
    · simp
  · exact copyEdit_size hcopy

end Edits

/-! ## What is left alone -/

section Frames

variable {v v' : Bytes.Memory} {f g buf lo hi last k : Nat} {x : U8}

theorem Wrote.reach (h : Wrote v v' f buf lo hi last) (hv : DiskOk v) :
    Reach v' g ↔ Reach v g :=
  h.edits.reach_iff hv (fun e g he heq => by
    subst heq
    exact writeEdit_entry he)

/-- Only the bytes that are written change. -/
theorem Wrote.hasByte (h : Wrote v v' f buf lo hi last) (hv : DiskOk v) (hfile : ¬ IsDir v g)
    (hout : g ≠ f ∨ k < lo ∨ hi ≤ k) (hx : HasByte v g k x) : HasByte v' g k x := by
  refine h.edits.hasByte hv hfile (fun q hq => absurd hq writeEdit_clear) (fun lo' n he => ?_) hx
  rcases he with ⟨m, hm⟩ | hcopy
  · cases hm
  · obtain ⟨hgf, -, hlo, hhi⟩ := copyEdit_data hcopy
    rcases hout with hne | hout
    · exact absurd hgf hne
    · omega

theorem Wrote.other_size (h : Wrote v v' f buf lo hi last) (hv : DiskOk v) (hg : Reach v g)
    (hne : g ≠ f) : fileSize v' g = fileSize v g :=
  h.edits.fileSize hv hg (fun _ he => writeEdit_size hne he)

theorem ReadBack.hasByte (h : ReadBack v v' f buf lo hi last) (hv : DiskOk v)
    (hfile : ¬ IsDir v g) (hx : HasByte v g k x) : HasByte v' g k x := by
  refine h.edits.hasByte hv hfile (fun q hq => absurd hq copyEdit_clear) (fun lo' n he => ?_) hx
  obtain ⟨-, hfalse, -⟩ := copyEdit_data he
  cases hfalse

theorem ReadBack.size (h : ReadBack v v' f buf lo hi last) (hv : DiskOk v) (hg : Reach v g) :
    fileSize v' g = fileSize v g :=
  h.edits.fileSize hv hg (fun _ he => copyEdit_size he)

end Frames

/-! ## The functions -/

section Functions

variable {Ok : FsNote → Store → Prop} {s s' : Fs} {f buf : Nat} {count offset : U32}

namespace Fs

/-- `file_write` makes the file longer, if it has to. -/
theorem growTo_returns {last : U32} (hs : Mount s) (hf : Reach s.view f)
    (hfile : ¬ IsDir s.view f) (hlast : last.toNat < 2 ^ 31) :
    Returns (Prog.when (fileSize s.view f < last) (fileSetSize f last)) (fun _ s' => Mount s' ∧
      Edits (· = .resize f last) s.view s'.view ∧
      (fileSize s'.view f).toNat = max (fileSize s.view f).toNat last.toNat ∧
      ∀ x, ¬ InDisk x → s'.view x = s.view x) s := by
  refine wp_when (fun hlt => ?_) (fun hge => ?_)
  · replace hlt : (fileSize s.view f).toNat < last.toNat := hlt
    have hslt : last.slt (fileSize s.view f) = false := by
      rw [BitVec.slt_eq_decide, BitVec.toInt_eq_toNat_of_lt (by omega),
        BitVec.toInt_eq_toNat_of_lt (by omega)]
      simp
      omega
    refine Returns.mono (fileSetSize_returns hs hf hfile) (fun _ s' h => ?_)
    obtain ⟨hs', hsize, -, hedits⟩ := h
    refine ⟨hs', hedits hslt, ?_, fun x hx => ?_⟩
    · rw [hsize]
      omega
    · refine (hedits hslt).outside hs.disk hx (fun e he => ?_)
      subst he
      simp
  · replace hge : ¬ (fileSize s.view f).toNat < last.toNat := hge
    exact ⟨hs, .refl, by omega, fun _ _ => rfl⟩

variable (Ok) in
/-- `file_write`, if a block that becomes the indirect block is clear. -/
theorem fileWrite_wp (hs : Mount s) (hf : Reach s.view f) (hfile : ¬ IsDir s.view f)
    (hend : offset.toNat + count.toNat < 2 ^ 31)
    (hrule : indirectOf s.view f = 0 → ndirect * 4096 < offset.toNat + count.toNat →
      ∀ b st, Ok (.tookIndirect f b) st → ZeroBlock st.view b)
    (hbuf : ∀ x, buf ≤ x → x < buf + count.toNat → ¬ InDisk x) :
    wp (fileWrite f buf count offset) (Noted Ok (fun r s' => Mount s' ∧
      ∃ stop, offset.toNat ≤ stop ∧ stop ≤ offset.toNat + count.toNat ∧
        Wrote s.view s'.view f buf offset.toNat stop (offset.toNat + count.toNat) ∧
        WriteResult s.view f offset.toNat stop count r)) s := by
  have hlast : (offset + count).toNat = offset.toNat + count.toNat := by
    rw [BitVec.toNat_add]
    omega
  unfold fileWrite
  refine wp_seq (loadWord_field hs.ready hs.owned (a := 128) hf (by decide) (by decide))
    (fun w s₁ h₁ => ?_)
  obtain ⟨hloads, rfl⟩ := h₁
  have hs₁ := hs.loads hloads
  rw [← hloads.view] at hf hfile hrule ⊢
  change wp (Prog.when (fileSize s₁.view f < offset + count) _ >>= _) _ s₁
  refine wp_seq (growTo_returns hs₁ hf hfile (by omega)) (fun _ s₂ h₂ => ?_)
  obtain ⟨hs₂, hedits, hsize, hout⟩ := h₂
  have hf₂ := hedits.reach hs₁.disk hf
  have hfile₂ : ¬ IsDir s₂.view f := mt (hedits.isDir hs₁.disk hf).mp hfile
  obtain ⟨hfree, hholds⟩ := hedits.resize_same hs₁.disk
  have hget : ∀ i, offset.toNat / 4096 ≤ i → 4096 * i < (offset + count).toNat →
      GetRule Ok s₂.view f i := by
    intro i hi hlt
    constructor
    · rintro ⟨hlarge, hzero⟩
      refine hrule ?_ (by unfold ndirect at *; omega)
      by_contra hne
      obtain ⟨b, hb⟩ := (indirectOf_holds hf).mp hne
      exact (indirectOf_holds hf₂).mpr ⟨b, (hholds _ b).mpr hb⟩ hzero
    · exact fun hdir => absurd hdir hfile₂
  refine noted_bind (copyFrom_wp hs₂ hf₂ (fun _ => hfile₂) (by omega) (by omega) hget
    (fun x hle hlt => hbuf x hle (by omega)) (by omega)) (fun r t => ?_) (fun r s₃ h₃ => ?_)
  · cases r with
    | error e => exact Keeps.pure _
    | ok u => exact Keeps.pure _
  obtain ⟨hs₃, stop, hlo, hhi, -, hcopied, hresult⟩ := h₃
  rw [hlast] at hhi hcopied hresult hsize
  have hwrote : Wrote s₁.view s₃.view f buf offset.toNat stop (offset.toNat + count.toNat) := by
    refine ⟨(hedits.mono (fun e he => Or.inl ⟨_, he⟩)).trans
      (hcopied.edits.mono (fun e he => Or.inr he)), ?_, fun k hk hlt => ?_⟩
    · rw [hcopied.edits.fileSize hs₂.disk hf₂ (fun _ he => copyEdit_size he)]
      exact hsize
    · obtain ⟨b, hb, hbyte⟩ := hcopied.bytes hfile₂ k hk hlt
      refine ⟨b, hb, hbyte.symm.trans ?_⟩
      have hx := hbuf (buf + (k - offset.toNat)) (by omega) (by omega)
      exact (hcopied.outside _ hx (Or.inl rfl)).trans (hout _ hx)
  cases r with
  | ok u => exact noted_of_returns ⟨hs₃, stop, hlo, hhi, hwrote, .done hresult⟩
  | error e =>
      refine noted_of_returns ⟨hs₃, stop, hlo, hhi, hwrote, ?_⟩
      cases e with
      | inval => exact .large hresult.1 hresult.2
      | noDisk =>
          refine .full hresult.1 ?_
          rw [← freeCount_congr hfree, ← wanted_congr hf hf₂ hholds]
          exact hresult.2
      | notFound => exact hresult.elim
      | badPath => exact hresult.elim
      | fileExists => exact hresult.elim

/-- `file_write` returns, if the file has its indirect block or needs none.  It fails only if
the file would be too large or the free blocks are too few, and no byte that it should not
write and no other file changes in any case. -/
theorem fileWrite_stores (hs : Mount s) (hf : Reach s.view f) (hfile : ¬ IsDir s.view f)
    (hend : offset.toNat + count.toNat < 2 ^ 31)
    (hindirect : indirectOf s.view f ≠ 0 ∨ offset.toNat + count.toNat ≤ ndirect * 4096)
    (hbuf : ∀ x, buf ≤ x → x < buf + count.toNat → ¬ InDisk x) :
    Returns (fileWrite f buf count offset) (fun r s' => Mount s' ∧
      (fileSize s'.view f).toNat =
        max (fileSize s.view f).toNat (offset.toNat + count.toNat) ∧
      ((r = count ∧ ∀ k, offset.toNat ≤ k → k < offset.toNat + count.toNat →
          HasByte s'.view f k (s.view (buf + (k - offset.toNat)))) ∨
        (r = FsErr.inval.code ∧ maxfilesize < offset.toNat + count.toNat) ∨
        (r = FsErr.noDisk.code ∧ freeCount s.view < wanted s.view f (offset.toNat / 4096)
          ((offset.toNat + count.toNat + 4095) / 4096 - offset.toNat / 4096))) ∧
      (∀ g k x, ¬ IsDir s.view g →
        g ≠ f ∨ k < offset.toNat ∨ offset.toNat + count.toNat ≤ k →
        HasByte s.view g k x → HasByte s'.view g k x) ∧
      ∀ g, Reach s.view g → g ≠ f → fileSize s'.view g = fileSize s.view g) s := by
  have hwp := fileWrite_wp (fun _ _ => True) hs hf hfile hend (fun hzero hlarge => by
    rcases hindirect with hne | hle
    · exact absurd hzero hne
    · omega) hbuf
  refine Returns.mono (Noted.returns hwp (fun _ _ => trivial)) (fun r s' h => ?_)
  obtain ⟨hs', stop, hlo, hhi, hwrote, hresult⟩ := h
  refine ⟨hs', hwrote.size, ?_, fun g k x hg hout hx => ?_, fun g hg hne => ?_⟩
  · cases hresult with
    | done hstop => exact Or.inl ⟨rfl, fun k hle hlt => hwrote.bytes k hle (by omega)⟩
    | large hlt hmax => exact Or.inr (Or.inl ⟨rfl, by omega⟩)
    | full _ hfew => exact Or.inr (Or.inr ⟨rfl, hfew⟩)
  · exact hwrote.hasByte hs.disk hg (by omega) hx
  · exact hwrote.other_size hs.disk hg hne

/-- Two bytes are written into a file of three. -/
theorem fileWrite_stores_three : Returns (fileWrite (blkVa 4) 0 2#32 1#32) (fun r s' => Mount s' ∧
    (fileSize s'.view (blkVa 4)).toNat = max (fileSize threeFs.view (blkVa 4)).toNat 3 ∧
    ((r = 2#32 ∧ ∀ k, 1 ≤ k → k < 3 →
        HasByte s'.view (blkVa 4) k (threeFs.view (0 + (k - 1)))) ∨
      (r = FsErr.inval.code ∧ maxfilesize < 3) ∨
      (r = FsErr.noDisk.code ∧ freeCount threeFs.view < wanted threeFs.view (blkVa 4) 0 1)) ∧
    (∀ g k x, ¬ IsDir threeFs.view g → g ≠ blkVa 4 ∨ k < 1 ∨ 3 ≤ k →
      HasByte threeFs.view g k x → HasByte s'.view g k x) ∧
    ∀ g, Reach threeFs.view g → g ≠ blkVa 4 → fileSize s'.view g = fileSize threeFs.view g)
    threeFs := by
  obtain ⟨hf, hfile, -, -⟩ := threeFs_file
  refine fileWrite_stores threeFs_mount hf hfile (by decide) (Or.inr (by decide)) ?_
  rintro x - hlt ⟨hdisk, -⟩
  simp at hlt
  unfold diskmap at hdisk
  omega

variable (count) in
/-- The number of bytes that `file_read` reads, and where they end. -/
theorem readCount_nat {size : U32} (hoffset : offset.toNat < 2 ^ 31)
    (hlt : ¬ size.sle offset = true) :
    (if count ≤ size - offset then count else size - offset).toNat =
        min count.toNat (size.toInt.toNat - offset.toNat) ∧
      (offset + if count ≤ size - offset then count else size - offset).toNat =
        offset.toNat + min count.toNat (size.toInt.toNat - offset.toNat) ∧
      offset.toNat < size.toInt.toNat := by
  have hint : offset.toInt = offset.toNat := BitVec.toInt_eq_toNat_of_lt (by omega)
  have hpos : (offset.toNat : Int) < size.toInt := by
    rw [BitVec.sle_iff_toInt_le, hint] at hlt
    omega
  have hnat : size.toInt.toNat = size.toNat ∧ size.toNat < 2 ^ 31 := by
    have hbound := size.isLt
    rw [BitVec.toInt_eq_toNat_cond] at hpos ⊢
    split at hpos
    · rename_i hsmall
      simp [hsmall]
      omega
    · omega
  have hleft : (size - offset).toNat = size.toNat - offset.toNat := by
    rw [BitVec.toNat_sub]
    omega
  have hcount : (if count ≤ size - offset then count else size - offset).toNat =
      min count.toNat (size.toInt.toNat - offset.toNat) := by
    split
    · have hle : count.toNat ≤ (size - offset).toNat := ‹_›
      omega
    · have hgt : ¬ count.toNat ≤ (size - offset).toNat := ‹_›
      omega
  refine ⟨hcount, ?_, by omega⟩
  rw [BitVec.toNat_add, hcount]
  omega

/-- What has to hold of the notes of `file_read`. -/
structure ReadRule (Ok : FsNote → Store → Prop) (v : Bytes.Memory) (f : Nat) : Prop where
  indirect : indirectOf v f = 0 → ∀ b st, Ok (.tookIndirect f b) st → ZeroBlock st.view b
  dir : IsDir v f → ∀ i b st, IsDir st.view f → Ok (.took f i b) st → NoNames st.view b

theorem ReadRule.get {v : Bytes.Memory} {i : Nat} (h : ReadRule Ok v f) (hv : DiskOk v)
    (hf : Reach v f) (hi : 4096 * i < fileLength v f) : GetRule Ok v f i where
  indirect := fun hno => h.indirect hno.2
  dir := fun hdir => by
    refine ⟨?_, h.dir hdir i⟩
    obtain ⟨n, hn, hsize⟩ := (hv.dirs f hf hdir).size
    rw [dirNblocks_eq hn hsize]
    have hlength : fileLength v f = 4096 * n := by
      unfold fileLength
      rw [hsize, BitVec.toInt_eq_toNat_of_lt (by rw [BitVec.toNat_ofNat]; omega),
        BitVec.toNat_ofNat]
      omega
    omega

variable (count) in
/-- `file_read`, of any file. -/
theorem fileRead_wp (hs : Mount s) (hf : Reach s.view f) (hrule : ReadRule Ok s.view f)
    (hoffset : offset.toNat < 2 ^ 31)
    (hbuf : ∀ x, buf ≤ x → x < buf + min count.toNat (fileLength s.view f - offset.toNat) →
      ¬ InDisk x) :
    wp (fileRead f buf count offset) (Noted Ok (fun r s' => Mount s' ∧
      ∃ stop n, n = min count.toNat (fileLength s.view f - offset.toNat) ∧
        offset.toNat ≤ stop ∧ stop ≤ offset.toNat + n ∧
        ReadBack s.view s'.view f buf offset.toNat stop (offset.toNat + n) ∧
        ReadResult s.view f offset.toNat stop n r)) s := by
  unfold fileRead
  refine wp_seq (loadWord_field hs.ready hs.owned (a := 128) hf (by decide) (by decide))
    (fun w s₁ h₁ => ?_)
  obtain ⟨hloads, rfl⟩ := h₁
  have hs₁ := hs.loads hloads
  rw [← hloads.view] at hf hrule hbuf ⊢
  rw [show word s₁.view (f + 128) = fileSize s₁.view f from rfl]
  have hnone : ReadBack s₁.view s₁.view f buf offset.toNat offset.toNat offset.toNat :=
    ⟨.refl, fun _ _ _ => rfl, fun _ k _ hle hlt => by omega⟩
  refine wp_ite (fun hle => ?_) (fun hlt => ?_)
  · have hzero : fileLength s₁.view f - offset.toNat = 0 := by
      have hint : offset.toInt = offset.toNat := BitVec.toInt_eq_toNat_of_lt (by omega)
      rw [BitVec.sle_iff_toInt_le, hint] at hle
      unfold fileLength
      omega
    refine noted_of_returns ⟨hs₁, offset.toNat, 0, ?_, Nat.le_refl _, Nat.le_refl _, hnone, ?_⟩
    · simp [hzero]
    · exact .done rfl rfl
  · have hcount := readCount_nat count hoffset hlt
    rw [show (fileSize s₁.view f).toInt.toNat = fileLength s₁.view f from rfl] at hcount
    dsimp only
    generalize (if count ≤ fileSize s₁.view f - offset then count
      else fileSize s₁.view f - offset) = c at hcount ⊢
    obtain ⟨hc, hlast, hpos⟩ := hcount
    generalize hn : min count.toNat (fileLength s₁.view f - offset.toNat) = n at hc hlast hbuf
    refine noted_bind (copyFrom_wp hs₁ hf (fun h => nomatch h) hoffset (by omega)
      (fun i _ hi => hrule.get hs₁.disk hf (by omega)) (fun x hle' hlt' => hbuf x hle' (by omega))
      (by omega)) (fun r t => ?_) (fun r s₂ h₂ => ?_)
    · cases r with
      | error e => exact Keeps.pure _
      | ok u => exact Keeps.pure _
    obtain ⟨hs₂, stop, hlo, hhi, -, hcopied, hresult⟩ := h₂
    rw [hlast] at hhi hcopied hresult
    have hread : ReadBack s₁.view s₂.view f buf offset.toNat stop (offset.toNat + n) := by
      refine ⟨hcopied.edits, fun x hx hor => hcopied.outside x hx (Or.inr hor),
        fun hfile k x hk hlt' hx => ?_⟩
      obtain ⟨b, hb, hbyte⟩ := hcopied.bytes hfile k hk hlt'
      obtain ⟨c', hc', rfl⟩ := hx
      have hheld := hcopied.edits.holds_copied hs₁.disk hc'
      rw [hbyte, hb.unique hheld]
      exact hcopied.edits.byte_copied hs₁.disk hc' hfile (Nat.mod_lt k (by decide))
        (Or.inr (Or.inl rfl))
    cases r with
    | ok u => exact noted_of_returns ⟨hs₂, stop, n, rfl, hlo, hhi, hread, .done hresult hc⟩
    | error e =>
        refine noted_of_returns ⟨hs₂, stop, n, rfl, hlo, hhi, hread, ?_⟩
        cases e with
        | inval => exact .large hresult.1 hresult.2
        | noDisk => exact .full hresult.1 hresult.2
        | notFound => exact hresult.elim
        | badPath => exact hresult.elim
        | fileExists => exact hresult.elim

end Fs

end Functions

end Jos

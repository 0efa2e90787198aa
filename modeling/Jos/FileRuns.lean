import Jos.DirSearches
import Jos.FormattedDisk

/-!
# Runs of the file system

Any sequence of calls of `fs/fs.c`, on any files, on a disk that is in order.

A call that has returned is an entry of a log, with the bytes that went in or came out.
`Files` is a file system without blocks: the sizes and the bytes that are known from the
log alone.  The blocks of the disk refine it.

* `fsRun_ordered`: the disk stays in order, and so no block ever belongs to two files.
* `fsRun_reads_back`: what is read is what was written last, by whatever calls in between.
-/

namespace Jos

open Programs Bytes Fs

/-! ## Files without blocks -/

/-- What is known of a file. -/
structure Known where
  size : U32
  byte : Nat → Option U8

namespace Known

/-- A file that was just created. -/
def empty : Known := ⟨0#32, fun _ => none⟩

/-- The file is made as long as that, if it is shorter. -/
def extend (c : Known) (last : Nat) : Known :=
  { c with size := BitVec.ofNat 32 (max c.size.toNat last) }

/-- Bytes are written from `lo` on. -/
def store (c : Known) (lo : Nat) (bytes : List U8) : Known :=
  { c with byte := fun k =>
      if lo ≤ k ∧ k < lo + bytes.length then bytes[k - lo]? else c.byte k }

/-- The bytes from `lo` to `hi` are not known any more. -/
def forget (c : Known) (lo hi : Nat) : Known :=
  { c with byte := fun k => if lo ≤ k ∧ k < hi then none else c.byte k }

/-- The size is set; bytes beyond it are lost. -/
def cut (c : Known) (size : U32) : Known :=
  ⟨size, fun k => if k < size.toInt.toNat then c.byte k else none⟩

end Known

/-- A call, with its arguments and its result. -/
inductive FileCall where
  | opened (path : List U8) (r : FsResult Nat)
  | created (path : List U8) (r : FsResult Nat)
  /-- The buffer of `file_read` is `bytes` after the call. -/
  | read (f : Nat) (offset r : U32) (bytes : List U8)
  /-- The buffer of `file_write` is `bytes` before the call. -/
  | wrote (f : Nat) (offset r : U32) (bytes : List U8)
  | resized (f : Nat) (size : U32)
  | flushed (f : Nat)
  | synced

/-- The files that are known, at their addresses. -/
abbrev Files := Nat → Option Known

namespace Files

/-- What is known after a call.  If `file_write` fails, it may have written a part. -/
def after (A : Files) : FileCall → Files
  | .created _ (.ok f) => Function.update A f (some .empty)
  | .wrote f offset r bytes =>
      Function.update A f ((A f).map (fun c =>
        (if r.toNat = bytes.length then c.store offset.toNat bytes
          else c.forget offset.toNat (offset.toNat + bytes.length)).extend
            (offset.toNat + bytes.length)))
  | .resized f size => Function.update A f ((A f).map (·.cut size))
  | _ => A

/-- The results that a call may have: a file that is created is new, and what is read is
what is known. -/
def Fits (A : Files) : FileCall → Prop
  | .created _ (.ok f) => A f = none
  | .read f offset r bytes => ∀ c, A f = some c →
      r = FsErr.noDisk.code ∨ r = FsErr.inval.code ∨
      (r.toNat = min bytes.length (c.size.toInt.toNat - offset.toNat) ∧
        ∀ k x, k < r.toNat → c.byte (offset.toNat + k) = some x → bytes[k]? = some x)
  | .wrote _ _ r bytes =>
      r = FsErr.noDisk.code ∨ r = FsErr.inval.code ∨ r.toNat = bytes.length
  | _ => True

end Files

/-! ## Runs on a disk -/

/-- A buffer outside the disk map. -/
def OffDisk (buf n : Nat) : Prop := ∀ x, buf ≤ x → x < buf + n → ¬ InDisk x

/-- A call that returns.  Files are named by their addresses, as the server does, and a
file that is written or set to a size is no directory. -/
inductive FsStep (s : Fs) : FileCall → Fs → Prop where
  | opened {path : List U8} {r : FsResult Nat} {s' : Fs} :
      0#8 ∉ path → (fileOpen path).run s = .ret r s' → FsStep s (.opened path r) s'
  | created {path : List U8} {r : FsResult Nat} {s' : Fs} :
      0#8 ∉ path → (fileCreate path).run s = .ret r s' → FsStep s (.created path r) s'
  | read {f buf : Nat} {count offset r : U32} {s' : Fs} :
      Reach s.view f → offset.toNat < 2 ^ 31 → OffDisk buf count.toNat →
      (fileRead f buf count offset).run s = .ret r s' →
      FsStep s (.read f offset r (bytesAt s'.view buf count.toNat)) s'
  | wrote {f buf : Nat} {count offset r : U32} {s' : Fs} :
      Reach s.view f → ¬ IsDir s.view f → offset.toNat + count.toNat < 2 ^ 31 →
      OffDisk buf count.toNat → (fileWrite f buf count offset).run s = .ret r s' →
      FsStep s (.wrote f offset r (bytesAt s.view buf count.toNat)) s'
  | resized {f : Nat} {size : U32} {s' : Fs} :
      Reach s.view f → ¬ IsDir s.view f → (fileSetSize f size).run s = .ret () s' →
      FsStep s (.resized f size) s'
  | flushed {f : Nat} {s' : Fs} :
      Reach s.view f → (fileFlush f).run s = .ret () s' → FsStep s (.flushed f) s'
  | synced {s' : Fs} : fsSync.run s = .ret () s' → FsStep s .synced s'

/-- The calls of a log, one after the other. -/
inductive FsRun (s : Fs) : List FileCall → Fs → Prop where
  | nil : FsRun s [] s
  | snoc {log : List FileCall} {c : FileCall} {s₁ s₂ : Fs} :
      FsRun s log s₁ → FsStep s₁ c s₂ → FsRun s (log ++ [c]) s₂

/-- The disk has the files that are known. -/
structure OnDisk (A : Files) (v : Bytes.Memory) : Prop where
  reach : ∀ f c, A f = some c → Reach v f ∧ ¬ IsDir v f
  size : ∀ f c, A f = some c → fileSize v f = c.size
  byte : ∀ f c k x, A f = some c → c.byte k = some x → HasByte v f k x

section Steps

variable {A : Files} {P : FileEdit → Prop} {v v' : Bytes.Memory} {s s' : Fs} {f g k : Nat} {x : U8}
  {log : List FileCall} {c : FileCall} {size : U32}

/-- A directory grows, and the size of no other file changes. -/
theorem Edits.size_create (h : Edits CreateEdit v v') (hv : DiskOk v) (hg : Reach v g)
    (hfile : ¬ IsDir v g) : Jos.fileSize v' g = Jos.fileSize v g := by
  induction h with
  | refl => rfl
  | @step v₁ v₂ e h hP he ih =>
      have hv₁ := h.diskOk hv
      refine (he.fileSize hv₁ (h.reach hv hg) (hP.mild.2.2.1 g) (fun heq => ?_)).trans ih
      subst heq
      cases he with
      | grow hf htype _ _ => exact hfile ((h.isDir hv hg).mp htype)

/-- Creating files and searching directories leaves the files as they are. -/
theorem OnDisk.create (h : OnDisk A v) (hedits : Edits CreateEdit v v') (hv : DiskOk v) :
    OnDisk A v' where
  reach := fun f c hf => by
    obtain ⟨hreach, hfile⟩ := h.reach f c hf
    exact ⟨hedits.reach hv hreach, mt (hedits.isDir hv hreach).mp hfile⟩
  size := fun f c hf => by
    obtain ⟨hreach, hfile⟩ := h.reach f c hf
    exact (hedits.size_create hv hreach hfile).trans (h.size f c hf)
  byte := fun f c k x hf hk =>
    hedits.hasByte_create hv (h.reach f c hf).2 (h.byte f c k x hf hk)

theorem OnDisk.congr (h : OnDisk A v) (hview : v' = v) : OnDisk A v' := hview ▸ h

/-- One file is known in another way. -/
theorem OnDisk.update {d : Option Known} (h : OnDisk A v)
    (hother : ∀ g c, A g = some c → g ≠ f → fileSize v' g = c.size ∧
      ∀ k x, c.byte k = some x → HasByte v' g k x)
    (hreach : ∀ g, Reach v g → Reach v' g ∧ (IsDir v' g ↔ IsDir v g))
    (hself : ∀ c, d = some c → (Reach v' f ∧ ¬ IsDir v' f) ∧ fileSize v' f = c.size ∧
      ∀ k x, c.byte k = some x → HasByte v' f k x) :
    OnDisk (Function.update A f d) v' := by
  have hcase : ∀ g c, Function.update A f d g = some c → (g = f ∧ d = some c) ∨
      (g ≠ f ∧ A g = some c) := by
    intro g c hg
    by_cases hgf : g = f
    · subst hgf
      simpa using hg
    · rw [Function.update_of_ne hgf] at hg
      exact Or.inr ⟨hgf, hg⟩
  constructor
  · intro g c hg
    rcases hcase g c hg with ⟨rfl, hd⟩ | ⟨hne, hg⟩
    · exact (hself c hd).1
    · obtain ⟨hr, hfile⟩ := h.reach g c hg
      exact ⟨(hreach g hr).1, mt (hreach g hr).2.mp hfile⟩
  · intro g c hg
    rcases hcase g c hg with ⟨rfl, hd⟩ | ⟨hne, hg⟩
    · exact (hself c hd).2.1
    · exact (hother g c hg hne).1
  · intro g c k x hg hk
    rcases hcase g c hg with ⟨rfl, hd⟩ | ⟨hne, hg⟩
    · exact (hself c hd).2.2 k x hk
    · exact (hother g c hg hne).2 k x hk

/-- What is left in a file that is cut to a size was in blocks that it keeps. -/
theorem lt_blocksFor (hk : k < size.toInt.toNat) : k / 4096 < (blocksFor size).toNat := by
  have hpos : 0 ≤ size.toInt := by omega
  obtain ⟨hsmall, hint⟩ := toInt_nonneg hpos
  have hsum : (size + 4095#32).toNat = size.toNat + 4095 := by
    rw [BitVec.toNat_add]
    simp
    omega
  unfold blocksFor
  by_cases hbig : size.toNat + 4095 < 2 ^ 31
  · rw [sdiv_nat (by omega), hsum]
    omega
  · -- the sum is negative, and so is the number of blocks, which is large then
    have hneg : (size + 4095#32).toInt = (size.toNat : Int) + 4095 - 2 ^ 32 := by
      rw [BitVec.toInt_eq_toNat_cond, hsum]
      split <;> omega
    have hdiv : ((size + 4095#32).sdiv 4096#32).toInt = _ := toInt_sdiv
    rw [tdiv_neg (by omega)] at hdiv
    have hlarge : ((size + 4095#32).sdiv 4096#32).toInt = _ := (toInt_neg (by omega)).2
    omega

/-- Setting a size clears the slots from some index on. -/
theorem setSizeEdit_clear {q : Slot} (he : SetSizeEdit f size (.clear q))
    (hk : g ≠ f ∨ k < size.toInt.toNat) : slotOf g (k / 4096) ≠ q ∧
      ∀ h j, q = .indirect h → slotOf g (k / 4096) ≠ .entry h j := by
  rcases he with (⟨j, hj, hq⟩ | ⟨hn, hq⟩) | hq
  · cases hq
    refine ⟨fun heq => ?_, fun h j hq => absurd hq slotOf_ne_indirect⟩
    obtain ⟨rfl, rfl⟩ := slotOf_inj heq
    have hlt := lt_blocksFor (hk.resolve_left (fun hne => hne rfl))
    omega
  · cases hq
    refine ⟨slotOf_ne_indirect, fun h j hq heq => ?_⟩
    cases hq
    rcases hk with hne | hk
    · exact hne (slotOf_file.symm.trans (congrArg Slot.file heq))
    · have hlt := lt_blocksFor hk
      unfold slotOf at heq
      rw [if_pos (by omega)] at heq
      cases heq
  · cases hq

theorem setSizeEdit_other {e : FileEdit} (he : SetSizeEdit f size e) :
    (∀ g k n, e ≠ .data g k n) ∧ (∀ g, e ≠ .entry g) ∧
      ∀ g, g ≠ f → (∀ n, e ≠ .resize g n) ∧ e ≠ .grow g := by
  rcases he with (⟨j, -, rfl⟩ | ⟨-, rfl⟩) | rfl
  · simp
  · simp
  · refine ⟨by simp, by simp, fun g hne => ⟨fun n heq => ?_, by simp⟩⟩
    cases heq
    exact hne rfl

/-- The log stays sound, if it was and another call does what it should. -/
structure StepOk (A : Files) (c : FileCall) (s' : Fs) : Prop where
  mount : Mount s'
  disk : OnDisk (A.after c) s'.view
  fits : A.Fits c

end Steps

/-! ## One call -/

section Calls

variable {A : Files} {s s' : Fs} {f buf : Nat} {path : List U8} {count offset size w : U32}
  {r : FsResult Nat}

namespace Fs

theorem syncFrom_returns {b n : Nat} (hs : Mount s) (hb : b ≠ 0) (hn : b + n ≤ diskBlocks s.view) :
    Returns (syncFrom b n) (fun _ s' => Mount s' ∧ s'.view = s.view) s := by
  induction n generalizing b s with
  | zero => exact ⟨hs, rfl⟩
  | succ n ih =>
      unfold syncFrom
      refine returns_bind (diskaddr_returns hs.ready hb (by omega)) (fun va s₁ h => ?_)
      obtain ⟨rfl, rfl⟩ := h
      refine returns_bind (flushBlock_returns (inDisk_blkVa hs.ready (by omega))) (fun _ s₂ h => ?_)
      refine Returns.mono (ih (.of_ready (hs.ready.flushed h) (h.view ▸ hs.disk)) (by omega) ?_)
        (fun _ s₃ h' => ⟨h'.1, h'.2.trans h.view⟩)
      rw [h.view]
      omega

/-- `fs_sync` does not change what the program sees. -/
theorem fsSync_returns (hs : Mount s) :
    Returns fsSync (fun _ s' => Mount s' ∧ s'.view = s.view) s := by
  unfold fsSync
  refine returns_bind (loadWord_super hs.super) (fun w s₁ h => ?_)
  obtain ⟨rfl, rfl⟩ := h
  by_cases hzero : diskBlocks s₁.view = 0
  · rw [show (word s₁.view snblocksVa).toNat = 0 from hzero]
    exact ⟨hs, rfl⟩
  · refine syncFrom_returns hs (by decide) ?_
    rw [show (word s₁.view snblocksVa).toNat = diskBlocks s₁.view from rfl]
    omega

end Fs

theorem step_opened (hs : Mount s) (hA : OnDisk A s.view) (hnul : 0#8 ∉ path)
    (hrun : (fileOpen path).run s = .ret r s') (hclean : Clean SoundNote s') :
    StepOk A (.opened path r) s' := by
  obtain ⟨hs', hedits, -⟩ := Noted.value (fileOpen_wp hs hnul) hrun hclean
  exact ⟨hs', hA.create hedits.take_create hs.disk, trivial⟩

theorem step_created (hs : Mount s) (hA : OnDisk A s.view) (hnul : 0#8 ∉ path)
    (hrun : (fileCreate path).run s = .ret r s') (hclean : Clean SoundNote s') :
    StepOk A (.created path r) s' := by
  obtain ⟨hs', hedits, hresult⟩ := Noted.value (fileCreate_wp hs hnul) hrun hclean
  have hA' := hA.create hedits hs.disk
  cases r with
  | error e => exact ⟨hs', hA', trivial⟩
  | ok f =>
      obtain ⟨hgone, hreach, hfile, hsize, -⟩ := hresult
      refine ⟨hs', hA'.update (fun g c hg _ => ⟨hA'.size g c hg, fun k x => hA'.byte g c k x hg⟩)
        (fun g hg => ⟨hg, Iff.rfl⟩) (fun c hc => ?_), ?_⟩
      · cases hc
        exact ⟨⟨(hreach f).mpr (Or.inr rfl), hfile⟩, hsize, fun k x hk => nomatch hk⟩
      · cases hf : A f with
        | none => exact hf
        | some c => exact absurd (hA.reach f c hf).1 hgone

theorem bytesAt_get {v : Bytes.Memory} {a n k : Nat} (hk : k < n) :
    (bytesAt v a n)[k]? = some (v (a + k)) := by
  unfold bytesAt
  simp [hk]

theorem step_read (hs : Mount s) (hA : OnDisk A s.view) (hf : Reach s.view f)
    (hoffset : offset.toNat < 2 ^ 31) (hbuf : OffDisk buf count.toNat)
    (hrun : (fileRead f buf count offset).run s = .ret w s') (hclean : Clean SoundNote s') :
    StepOk A (.read f offset w (bytesAt s'.view buf count.toNat)) s' := by
  have hwp := fileRead_wp count hs hf soundNote_read hoffset
    (fun x hle hlt => hbuf x hle (by omega))
  obtain ⟨hs', stop, n, hn, hlo, hhi, hread, hresult⟩ := Noted.value hwp hrun hclean
  refine ⟨hs', ⟨fun g c hg => ?_, fun g c hg => ?_, fun g c k x hg hk => ?_⟩, fun c hc => ?_⟩
  · obtain ⟨hreach, hfile⟩ := hA.reach g c hg
    exact ⟨hread.edits.reach hs.disk hreach, mt (hread.edits.isDir hs.disk hreach).mp hfile⟩
  · exact (hread.size hs.disk (hA.reach g c hg).1).trans (hA.size g c hg)
  · exact hread.hasByte hs.disk (hA.reach g c hg).2 (hA.byte g c k x hg hk)
  · cases hresult with
    | large _ _ => exact Or.inr (Or.inl rfl)
    | full _ _ => exact Or.inl rfl
    | done hstop hw =>
        have hlength : fileLength s.view f = c.size.toInt.toNat := by
          unfold fileLength
          rw [hA.size f c hc]
        refine Or.inr (Or.inr ⟨?_, fun k x hk hx => ?_⟩)
        · rw [hw, hn, hlength, bytesAt_length]
        · have hbyte := hread.bytes (hA.reach f c hc).2 (offset.toNat + k) x (by omega) (by omega)
            (hA.byte f c _ x hc hx)
          rw [Nat.add_sub_cancel_left] at hbyte
          rw [bytesAt_get (by omega), hbyte]

theorem step_wrote (hs : Mount s) (hA : OnDisk A s.view) (hf : Reach s.view f)
    (hfile : ¬ IsDir s.view f) (hend : offset.toNat + count.toNat < 2 ^ 31)
    (hbuf : OffDisk buf count.toNat)
    (hrun : (fileWrite f buf count offset).run s = .ret w s') (hclean : Clean SoundNote s') :
    StepOk A (.wrote f offset w (bytesAt s.view buf count.toNat)) s' := by
  have hwp := fileWrite_wp SoundNote hs hf hfile hend (fun _ _ _ _ h => h) hbuf
  obtain ⟨hs', stop, hlo, hhi, hwrote, hresult⟩ := Noted.value hwp hrun hclean
  have hreach : ∀ g, Reach s.view g → Reach s'.view g ∧ (IsDir s'.view g ↔ IsDir s.view g) :=
    fun g hg => ⟨(hwrote.reach hs.disk).mpr hg, hwrote.edits.isDir hs.disk hg⟩
  refine ⟨hs', hA.update (fun g c hg hne => ⟨?_, fun k x hk => ?_⟩) hreach (fun d hd => ?_), ?_⟩
  · exact (hwrote.other_size hs.disk (hA.reach g c hg).1 hne).trans (hA.size g c hg)
  · exact hwrote.hasByte hs.disk (hA.reach g c hg).2 (Or.inl hne) (hA.byte g c k x hg hk)
  · obtain ⟨c, hc, rfl⟩ := Option.map_eq_some_iff.mp hd
    refine ⟨⟨(hreach f hf).1, mt (hreach f hf).2.mp hfile⟩, ?_, fun k x hk => ?_⟩
    · have hsize : ∀ b : Known, b.size = c.size →
          fileSize s'.view f = (b.extend (offset.toNat + count.toNat)).size := by
        intro b hb
        refine BitVec.eq_of_toNat_eq ?_
        have hbound := (fileSize s'.view f).isLt
        unfold Known.extend
        rw [BitVec.toNat_ofNat, hb, ← hA.size f c hc, ← hwrote.size, Nat.mod_eq_of_lt hbound]
      rw [bytesAt_length]
      refine hsize _ ?_
      split <;> rfl
    · rw [bytesAt_length] at hk
      have hold : ∀ k x, (k < offset.toNat ∨ offset.toNat + count.toNat ≤ k) →
          c.byte k = some x → HasByte s'.view f k x := fun k x hk hx =>
        hwrote.hasByte hs.disk hfile (by omega) (hA.byte f c k x hc hx)
      by_cases hdone : w.toNat = count.toNat
      · have hcodes : 2 ^ 31 ≤ FsErr.inval.code.toNat ∧ 2 ^ 31 ≤ FsErr.noDisk.code.toNat := by
          decide
        have hstop : stop = offset.toNat + count.toNat := by
          cases hresult with
          | done hstop => exact hstop
          | large _ _ => omega
          | full _ _ => omega
        rw [if_pos hdone] at hk
        unfold Known.extend Known.store at hk
        simp only [bytesAt_length] at hk
        split at hk
        · rename_i hin
          rw [bytesAt_get (by omega)] at hk
          cases hk
          exact hwrote.bytes k hin.1 (by omega)
        · exact hold k x (by omega) hk
      · rw [if_neg hdone] at hk
        unfold Known.extend Known.forget at hk
        simp only at hk
        split at hk
        · cases hk
        · exact hold k x (by omega) hk
  · cases hresult with
    | done _ => exact Or.inr (Or.inr (bytesAt_length).symm)
    | large _ _ => exact Or.inr (Or.inl rfl)
    | full _ _ => exact Or.inl rfl

theorem step_resized (hs : Mount s) (hA : OnDisk A s.view) (hf : Reach s.view f)
    (hfile : ¬ IsDir s.view f) (hrun : (fileSetSize f size).run s = .ret () s') :
    StepOk A (.resized f size) s' := by
  obtain ⟨hs', hsize, hcut, hgrow⟩ := (fileSetSize_returns hs hf hfile).value hrun
  have hedits : Edits (SetSizeEdit f size) s.view s'.view := by
    cases hslt : size.slt (fileSize s.view f) with
    | true => exact (hcut hslt).1
    | false => exact (hgrow hslt).mono (fun e he => Or.inr he)
  have hreach : ∀ g, Reach s.view g → Reach s'.view g ∧ (IsDir s'.view g ↔ IsDir s.view g) :=
    fun g hg => ⟨hedits.reach hs.disk hg, hedits.isDir hs.disk hg⟩
  have hbyte : ∀ g k x, ¬ IsDir s.view g → g ≠ f ∨ k < size.toInt.toNat →
      HasByte s.view g k x → HasByte s'.view g k x := fun g k x hg hk hx =>
    hedits.hasByte hs.disk hg (fun q hq => setSizeEdit_clear hq hk)
      (fun lo n he => absurd rfl ((setSizeEdit_other he).1 g lo n)) hx
  refine ⟨hs', hA.update (fun g c hg hne => ⟨?_, fun k x hk => ?_⟩) hreach (fun d hd => ?_),
    trivial⟩
  · exact (hedits.fileSize hs.disk (hA.reach g c hg).1
      (fun e he => (setSizeEdit_other he).2.2 g hne)).trans (hA.size g c hg)
  · exact hbyte g k x (hA.reach g c hg).2 (Or.inl hne) (hA.byte g c k x hg hk)
  · obtain ⟨c, hc, rfl⟩ := Option.map_eq_some_iff.mp hd
    refine ⟨⟨(hreach f hf).1, mt (hreach f hf).2.mp hfile⟩, hsize, fun k x hk => ?_⟩
    unfold Known.cut at hk
    simp only at hk
    split at hk
    · exact hbyte f k x hfile (Or.inr ‹_›) (hA.byte f c k x hc hk)
    · cases hk

end Calls

/-! ## Runs -/

section Runs

variable {A : Files} {s s' : Fs} {log : List FileCall} {c : FileCall}

/-- One call, whichever it is. -/
theorem FsStep.ok (h : FsStep s c s') (hs : Mount s) (hA : OnDisk A s.view)
    (hclean : Clean SoundNote s') : StepOk A c s' := by
  cases h with
  | opened hnul hrun => exact step_opened hs hA hnul hrun hclean
  | created hnul hrun => exact step_created hs hA hnul hrun hclean
  | read hf hoffset hbuf hrun => exact step_read hs hA hf hoffset hbuf hrun hclean
  | wrote hf hfile hend hbuf hrun => exact step_wrote hs hA hf hfile hend hbuf hrun hclean
  | resized hf hfile hrun => exact step_resized hs hA hf hfile hrun
  | flushed hf hrun =>
      obtain ⟨hs', hview⟩ := (fileFlush_returns hs hf).value hrun
      exact ⟨hs', hA.congr hview, trivial⟩
  | synced hrun =>
      obtain ⟨hs', hview⟩ := (fsSync_returns hs).value hrun
      exact ⟨hs', hA.congr hview, trivial⟩

/-- Notes are only added. -/
theorem FsStep.grows (h : FsStep s c s') : s.trace <:+ s'.trace := by
  have hkeeps : ∀ {α : Type} {m : FsProg α} {a : α}, (∀ t, Keeps (fun s => t <:+ s.trace) m) →
      m.run s = .ret a s' → s.trace <:+ s'.trace := fun hm hrun =>
    wp_ret (hm s.trace s List.suffix_rfl) hrun
  cases h with
  | opened _ hrun => exact hkeeps (fun t => keeps_fileOpen stable_grows _) hrun
  | created _ hrun => exact hkeeps (fun t => keeps_fileCreate stable_grows _) hrun
  | read _ _ _ hrun => exact hkeeps (fun t => keeps_fileRead stable_grows _ _ _ _) hrun
  | wrote _ _ _ _ hrun => exact hkeeps (fun t => keeps_fileWrite stable_grows _ _ _ _) hrun
  | resized _ _ hrun => exact hkeeps (fun t => keeps_fileSetSize stable_grows _ _) hrun
  | flushed _ hrun => exact hkeeps (fun t => keeps_fileFlush stable_grows _) hrun
  | synced hrun => exact hkeeps (fun t => keeps_fsSync stable_grows) hrun

theorem Clean.of_grows {Ok : FsNote → Store → Prop} (h : Clean Ok s') (hgrows : s.trace <:+ s'.trace) :
    Clean Ok s := fun p hp => h p (hgrows.subset hp)

/-- What one call keeps, a run keeps: knowledge `K` about the disk grows with each call, and
each call fits what was known before it. -/
theorem FsRun.fits {K : Type} {after : K → FileCall → K} {Fits : K → FileCall → Prop}
    {I : K → Fs → Prop} {k : K}
    (hstep : ∀ k s c s', I k s → FsStep s c s' → Clean SoundNote s' →
      I (after k c) s' ∧ Fits k c)
    (h : FsRun s log s') (hI : I k s) (hclean : Clean SoundNote s') :
    I (log.foldl after k) s' ∧
      ∀ before c, before ++ [c] <+: log → Fits (before.foldl after k) c := by
  induction h with
  | nil => exact ⟨hI, fun before c hpre => absurd hpre (by simp)⟩
  | @snoc log c s₁ s₂ h hstep' ih =>
      obtain ⟨hI₁, hfits⟩ := ih (hclean.of_grows hstep'.grows)
      obtain ⟨hI₂, hfit⟩ := hstep _ _ _ _ hI₁ hstep' hclean
      refine ⟨?_, fun before d hpre => ?_⟩
      · rw [List.foldl_append]
        exact hI₂
      · rcases List.prefix_concat_iff.mp hpre with heq | hpre
        · obtain ⟨rfl, hcd⟩ := List.append_inj' heq rfl
          cases hcd
          exact hfit
        · exact hfits before d hpre

/-- What holds after every call of a run: the disk is in order and has the files that are
known from the log, and every call fitted what was known before it. -/
theorem FsRun.sound (h : FsRun s log s') (hs : Mount s) (hA : OnDisk A s.view)
    (hclean : Clean SoundNote s') : (Mount s' ∧ OnDisk (log.foldl Files.after A) s'.view) ∧
      ∀ before c, before ++ [c] <+: log → (before.foldl Files.after A).Fits c := by
  refine h.fits (I := fun A s => Mount s ∧ OnDisk A s.view) (fun A s c s' hI hstep hclean => ?_)
    ⟨hs, hA⟩ hclean
  obtain ⟨hmount, hdisk, hfits⟩ := hstep.ok hI.1 hI.2 hclean
  exact ⟨⟨hmount, hdisk⟩, hfits⟩

/-! ### Two calls on a disk of one file -/

/-- A program that returns `a`, which is decided by running it. -/
theorem run_eq_ret {σ α : Type} [DecidableEq α] {m : Prog σ α} {s : σ} {a : α}
    (h : (match m.run s with
      | .ret b _ => decide (b = a)
      | _ => false) = true) : m.run s = .ret a (m.run s).state := by
  cases hrun : m.run s with
  | ret b s' =>
      rw [hrun] at h
      simp at h
      rw [h]
      rfl
  | exit s' => simp [hrun] at h
  | stop s' => simp [hrun] at h

def wroteFs : Fs := ((fileWrite (blkVa 4) 0 2#32 1#32).run threeFs).state

def readFs : Fs := ((fileRead (blkVa 4) 8 5#32 0#32).run wroteFs).state

/-- Two bytes are written into a file of three, and all of it is read. -/
def twoCalls : List FileCall :=
  [.wrote (blkVa 4) 1#32 2#32 [0#8, 0#8],
    .read (blkVa 4) 0#32 3#32 [1#8, 0#8, 0#8, 0#8, 0#8]]

theorem twoCalls_run : FsRun threeFs twoCalls readFs ∧ Clean SoundNote readFs := by
  obtain ⟨hf, hfile, -, -⟩ := threeFs_file
  have hend : (1#32).toNat + (2#32).toNat < 2 ^ 31 := by decide
  have hbuf : ∀ n, n < 64 → OffDisk 0 n ∧ OffDisk 8 n := by
    intro n hn
    constructor
    · rintro x - hlt ⟨hdisk, -⟩
      unfold diskmap at hdisk
      omega
    · rintro x - hlt ⟨hdisk, -⟩
      unfold diskmap at hdisk
      omega
  have hwrote : (fileWrite (blkVa 4) 0 2#32 1#32).run threeFs = .ret 2#32 wroteFs :=
    run_eq_ret (by decide +kernel)
  have hread : (fileRead (blkVa 4) 8 5#32 0#32).run wroteFs = .ret 3#32 readFs :=
    run_eq_ret (by decide +kernel)
  have hbytes : bytesAt threeFs.view 0 2 = [0#8, 0#8] ∧
      bytesAt readFs.view 8 5 = [1#8, 0#8, 0#8, 0#8, 0#8] := by decide +kernel
  have hf' : Reach wroteFs.view (blkVa 4) := by
    have hwp := fileWrite_wp (fun _ _ => True) threeFs_mount hf hfile hend
      (fun _ hlarge => by simp [ndirect] at hlarge) (hbuf 2 (by decide)).1
    obtain ⟨-, stop, -, -, hbytes, -⟩ := Noted.value hwp hwrote (fun _ _ => trivial)
    exact (hbytes.reach threeFs_mount.disk).mpr hf
  have hfirst : FsStep threeFs (.wrote (blkVa 4) 1#32 2#32 (bytesAt threeFs.view 0 2)) wroteFs :=
    .wrote hf hfile hend (hbuf 2 (by decide)).1 hwrote
  have hsecond : FsStep wroteFs (.read (blkVa 4) 0#32 3#32 (bytesAt readFs.view 8 5)) readFs :=
    .read hf' (by decide) (hbuf 5 (by decide)).2 hread
  rw [hbytes.1] at hfirst
  rw [hbytes.2] at hsecond
  refine ⟨.snoc (.snoc .nil hfirst) hsecond, fun p hp => ?_⟩
  have hkinds : readFs.trace.all (fun p => match p.1 with
      | .copied _ _ _ _ => true
      | _ => false) = true := by decide +kernel
  have hkind := List.all_eq_true.mp hkinds p hp
  split at hkind
  · rename_i heq
    rw [heq]
    trivial
  · cases hkind

/-- What is known of the disk of one file. -/
def oneFile : Files := Function.update (fun _ => none) (blkVa 4) (some ⟨3#32, fun _ => none⟩)

theorem oneFile_onDisk : OnDisk oneFile threeFs.view := by
  obtain ⟨hf, hfile, hsize, -⟩ := threeFs_file
  have hcase : ∀ g c, oneFile g = some c → g = blkVa 4 ∧ c = ⟨3#32, fun _ => none⟩ := by
    intro g c hg
    unfold oneFile at hg
    by_cases hgf : g = blkVa 4
    · subst hgf
      rw [Function.update_self] at hg
      cases hg
      exact ⟨rfl, rfl⟩
    · rw [Function.update_of_ne hgf] at hg
      cases hg
  constructor
  · intro g c hg
    obtain ⟨rfl, rfl⟩ := hcase g c hg
    exact ⟨hf, hfile⟩
  · intro g c hg
    obtain ⟨rfl, rfl⟩ := hcase g c hg
    exact hsize
  · intro g c k x hg hk
    obtain ⟨rfl, rfl⟩ := hcase g c hg
    cases hk

end Runs

end Jos

import Jos.FileWrites
import Jos.PathNames

/-!
# Paths, in directories that may miss blocks

A search in a directory takes the blocks that the directory should have and does not have,
so `file_open` changes the disk as well.  `SoundNote` is what has to hold of the blocks
and the records that are taken on the way: there may be no old bytes in them.

* `walkPath_wp`: the walk along a path ends where its names lead.
* `fileCreate_wp`: a new file is an empty record that gets a name, and no other name is new.
* `fileFlush_returns`: writing back does not change what the program sees.
-/

namespace Jos

open Programs Bytes Fs

/-- The record at `f` has no name, and is zero behind the name. -/
def EmptyFile (v : Bytes.Memory) (f : Nat) : Prop := v f = 0#8 ∧ BlankFile v f

/-- A block that becomes an indirect block is clear, one that becomes a block of a
directory has no names in it, and a record that becomes a file is empty. -/
def SoundNote : FsNote → Store → Prop
  | .took f _ b, st => IsDir st.view f → NoNames st.view b
  | .tookIndirect _ b, st => ZeroBlock st.view b
  | .entry _ f, st => EmptyFile st.view f
  | _, _ => True

/-- Blocks are taken, for any file. -/
def TakeEdit (e : FileEdit) : Prop := ∃ f i, GetEdit f i e

/-- The edits of `file_create`. -/
def CreateEdit (e : FileEdit) : Prop :=
  TakeEdit e ∨ (∃ dir, e = .grow dir) ∨ ∃ f, e = .entry f

/-- Both are full disks or directories that are too large. -/
def NoRoom (e : FsErr) : Prop := e = .noDisk ∨ e = .inval

section Taking

variable {P : FileEdit → Prop} {v v' : Bytes.Memory} {f g dir i b c k : Nat} {x : U8} {p : Slot}
  {e : FileEdit}

theorem soundNote_get (hi : IsDir v f → i < dirNblocks v f) : GetRule SoundNote v f i where
  indirect := fun _ _ _ h => h
  dir := fun hdir => ⟨hi hdir, fun _ _ htype h => h htype⟩

theorem soundNote_read : ReadRule SoundNote v f where
  indirect := fun _ _ _ h => h
  dir := fun _ _ _ _ htype h => h htype

theorem GetEdit.take (h : GetEdit f i e) : TakeEdit e := ⟨f, i, h⟩

theorem TakeEdit.create (h : TakeEdit e) : CreateEdit e := Or.inl h

/-- No block is given back and no byte of a file is written. -/
theorem CreateEdit.mild (h : CreateEdit e) :
    (∀ q, e ≠ .clear q) ∧ (∀ f k n, e ≠ .data f k n) ∧ (∀ f n, e ≠ .resize f n) ∧ e ≠ .buffer := by
  rcases h with ⟨f, i, ⟨b, rfl⟩ | ⟨b, rfl⟩⟩ | ⟨dir, rfl⟩ | ⟨f, rfl⟩ <;> simp

theorem TakeEdit.no_entry (h : TakeEdit e) : (∀ g, e ≠ .entry g) ∧ ∀ g, e ≠ .grow g := by
  rcases h with ⟨f, i, ⟨b, rfl⟩ | ⟨b, rfl⟩⟩ <;> simp

/-- Slots keep their blocks. -/
theorem Edits.holds_create (h : Edits CreateEdit v v') (hv : DiskOk v) (hp : Holds v p b) :
    Holds v' p b :=
  h.holds hv hp (fun _ q he heq => absurd heq (he.mild.1 q))

theorem Edits.hasByte_create (h : Edits CreateEdit v v') (hv : DiskOk v) (hfile : ¬ IsDir v f)
    (hx : HasByte v f k x) : HasByte v' f k x := by
  refine h.hasByte hv hfile (fun q hq => ?_) (fun lo n he => ?_) hx
  · exact absurd rfl (hq.mild.1 q)
  · exact absurd rfl (he.mild.2.1 f lo n)

theorem Edits.take_create (h : Edits TakeEdit v v') : Edits CreateEdit v v' :=
  h.mono (fun _ he => he.create)

theorem Edits.size_take (h : Edits TakeEdit v v') (hv : DiskOk v) (hf : Reach v f) :
    Jos.fileSize v' f = Jos.fileSize v f :=
  h.fileSize hv hf (fun _ he => ⟨he.create.mild.2.2.1 f, he.no_entry.2 f⟩)

theorem Edits.dirNblocks_take (h : Edits TakeEdit v v') (hv : DiskOk v) (hf : Reach v f) :
    dirNblocks v' f = dirNblocks v f := by
  have hsize := h.size_take hv hf
  unfold dirNblocks
  rw [show word v' (fSizeVa f) = word v (fSizeVa f) from hsize]

theorem Edits.reach_take (h : Edits TakeEdit v v') (hv : DiskOk v) : Reach v' g ↔ Reach v g :=
  h.reach_iff hv (fun _ g he => he.no_entry.1 g)

theorem Edits.dirBlock_take (h : Edits TakeEdit v v') (hv : DiskOk v) (hb : DirBlock v b) :
    DirBlock v' b := by
  obtain ⟨dir, i, htype, hi, hheld⟩ := hb.holds
  have hdir : Reach v dir := by simpa using hheld.reach
  refine .intro ((h.isDir hv hdir).mpr htype) ?_ (h.take_create.holds_create hv hheld)
  rw [h.dirNblocks_take hv hdir]
  exact hi

/-- Taking blocks leaves the names. -/
theorem Edits.named_take {name : List U8} (h : Edits TakeEdit v v') (hv : DiskOk v)
    (hdir : Reach v dir) : Named v' dir name g ↔ Named v dir name g :=
  h.named hv hdir (fun _ f he => he.no_entry.1 f)

theorem Edits.nameByte_take {j : Nat} {a : Nat} (h : Edits TakeEdit v v') (hv : DiskOk v)
    (hb : DirBlock v b) (hj : j < blkfiles) (hle : fileVa b j ≤ a) (hlt : a < fileVa b j + 128) :
    v' a = v a := by
  induction h with
  | refl => rfl
  | step hold hP he ih =>
      exact (he.nameByte (hold.diskOk hv) (hold.dirBlock_take hv hb) hj (hP.no_entry.1 _) hle
        hlt).trans ih

end Taking

/-! ## Writing back -/

namespace Fs

section Flushes

variable {s s' : Fs} {f i n b : Nat}

/-- `flush_block(diskaddr(b))` at the end of a function. -/
theorem flushDisk_returns (hs : Mount s) (hne : b ≠ 0) (hb : b < diskBlocks s.view) :
    Returns (diskaddr b >>= fun va => flushBlock va)
      (fun _ s' => Mount s' ∧ s'.view = s.view) s := by
  refine returns_bind (diskaddr_returns hs.ready hne hb) (fun va s₁ h => ?_)
  obtain ⟨rfl, rfl⟩ := h
  refine Returns.mono (flushBlock_returns (inDisk_blkVa hs.ready hb)) (fun _ s₂ h => ?_)
  exact ⟨.of_ready (hs.ready.flushed h) (h.view ▸ hs.disk), h.view⟩

theorem flushFrom_returns (hs : Mount s) (hf : Reach s.view f) :
    Returns (flushFrom f i n) (fun _ s' => Mount s' ∧ s'.view = s.view) s := by
  induction n generalizing i s with
  | zero => exact ⟨hs, rfl⟩
  | succ n ih =>
      have hnext : ∀ t, Mount t → t.view = s.view →
          Returns (flushFrom f (i + 1) n) (fun _ s' => Mount s' ∧ s'.view = s.view) t := by
        intro t ht hview
        rw [← hview] at hf
        refine Returns.mono (ih ht hf) (fun _ s' h => ?_)
        exact ⟨h.1, h.2.trans hview⟩
      unfold flushFrom
      by_cases hexist : (slotOf f i).Exists s.view
      · have hlive := hf.live hexist
        refine returns_bind (fileBlockWalk_returns hs.ready hs.owned hf hexist) (fun r s₁ h => ?_)
        obtain ⟨hloads, rfl⟩ := h
        have hs₁ := hs.loads hloads
        refine returns_bind (loadWord_returns hs₁.ready hlive.aligned
          ((hlive.fine hs.ready hs.owned).loads hloads)) (fun w s₂ h => ?_)
        obtain ⟨hloads', rfl⟩ := h
        have hs₂ := hs₁.loads hloads'
        have hview : s₂.view = s.view := hloads'.view.trans hloads.view
        refine wp_ite (fun _ => hnext s₂ hs₂ hview) (fun hne => ?_)
        rw [hloads.view] at hne ⊢
        have hheld : Holds s.view (slotOf f i) ((slotOf f i).val s.view) :=
          ⟨hlive.reach, hexist, rfl, fun hzero => hne (BitVec.eq_of_toNat_eq hzero)⟩
        have hrange := hs.owned.range _ _ hheld
        refine returns_bind (diskaddr_returns (b := (slotOf f i).val s.view) hs₂.ready
          hheld.has.ne ?_) (fun va s₃ h => ?_)
        · rw [hview]
          exact hrange.2
        obtain ⟨rfl, rfl⟩ := h
        refine returns_bind (flushBlock_returns (inDisk_block hs.disk.checked.blocks hrange.2
          (Nat.le_refl _) (by omega))) (fun _ s₄ h => ?_)
        exact hnext s₄ (.of_ready (hs₂.ready.flushed h) (h.view ▸ hs₂.disk)) (h.view.trans hview)
      · refine returns_bind (fileBlockWalk_missing hs hf hexist) (fun r s₁ h => ?_)
        obtain ⟨hloads, e, rfl⟩ := h
        exact hnext s₁ (hs.loads hloads) hloads.view

/-- `file_flush` does not change what the program sees. -/
theorem fileFlush_returns (hs : Mount s) (hf : Reach s.view f) :
    Returns (fileFlush f) (fun _ s' => Mount s' ∧ s'.view = s.view) s := by
  unfold fileFlush
  refine returns_bind (loadWord_field hs.ready hs.owned (a := 128) hf (by decide) (by decide))
    (fun w s₁ h => ?_)
  obtain ⟨hloads, rfl⟩ := h
  have hs₁ := hs.loads hloads
  rw [← hloads.view] at hf ⊢
  refine returns_bind (flushFrom_returns hs₁ hf) (fun _ s₂ h => ?_)
  obtain ⟨hs₂, hview₂⟩ := h
  refine returns_bind (flushBlock_returns ?_) (fun _ s₃ h => ?_)
  · exact (Meta.record hf (Nat.le_refl f) (by omega)).inDisk hs₁.disk.checked.blocks hs₁.owned
  have hs₃ : Mount s₃ := .of_ready (hs₂.ready.flushed h) (h.view ▸ hs₂.disk)
  have hview₃ : s₃.view = s₁.view := h.view.trans hview₂
  rw [← hview₃] at hf ⊢
  refine returns_bind (loadWord_field hs₃.ready hs₃.owned (a := 176) hf (by decide) (by decide))
    (fun w s₄ h => ?_)
  obtain ⟨hloads', rfl⟩ := h
  have hs₄ := hs₃.loads hloads'
  refine wp_when (fun hne => ?_) (fun _ => ⟨hs₄, hloads'.view⟩)
  have hheld : Holds s₃.view (.indirect f) (indirectOf s₃.view f) :=
    ⟨hf, trivial, rfl, fun hzero => hne (BitVec.eq_of_toNat_eq hzero)⟩
  refine Returns.mono (flushDisk_returns (b := indirectOf s₃.view f) hs₄ hheld.has.ne ?_)
    (fun _ s₅ h => ⟨h.1, h.2.trans hloads'.view⟩)
  rw [hloads'.view]
  exact (hs₃.owned.range _ _ hheld).2

end Flushes

end Fs

/-! ## Searches -/

/-- How a search in the blocks of a directory from `i` on ends. -/
def ScanResult (v : Bytes.Memory) (look : Nat → Option Nat) (dir i n : Nat) :
    FsResult (Option Nat) → Prop
  | .ok (some g) => ∃ k b, k < i + n ∧ Holds v (slotOf dir k) b ∧ look (blkVa b) = some g
  | .ok none => ∀ k, i ≤ k → k < i + n →
      ∃ b, Holds v (slotOf dir k) b ∧ look (blkVa b) = none
  | .error e => NoRoom e

/-- What is not found in a block of a directory is not there either after more blocks are
taken. -/
def Lasting (look : Bytes.Memory → Nat → Option Nat) : Prop :=
  ∀ v v' b, DiskOk v → Edits TakeEdit v v' → DirBlock v b → look v (blkVa b) = none →
    look v' (blkVa b) = none

section Searching

variable {s s' : Fs} {v v' : Bytes.Memory} {dir f g i n b : Nat} {name path : List U8}

theorem getResult_error {e : FsErr} (h : GetResult v v' f i (.error e)) : NoRoom e := by
  cases e with
  | inval => exact Or.inr rfl
  | noDisk => exact Or.inl rfl
  | notFound => exact h.elim
  | badPath => exact h.elim
  | fileExists => exact h.elim

theorem freeIn_some (h : freeIn v f n = some g) : ∃ j, j < n ∧ g = f + 256 * j ∧ v g = 0#8 := by
  induction n generalizing f with
  | zero => cases h
  | succ n ih =>
      unfold freeIn at h
      split at h
      · cases h
        exact ⟨0, by omega, rfl, ‹_›⟩
      · obtain ⟨j, hj, rfl, hname⟩ := ih h
        exact ⟨j + 1, by omega, by omega, hname⟩

/-- A search for the first of some records finds nothing if none is what it looks for. -/
theorem search_none (search : Nat → Nat → Option Nat) {p : Nat → Prop} [DecidablePred p]
    (hzero : ∀ f, search f 0 = none)
    (hsucc : ∀ f n, search f (n + 1) = if p f then some f else search (f + 256) n) :
    search f n = none ↔ ∀ j, j < n → ¬ p (f + 256 * j) := by
  induction n generalizing f with
  | zero => simp [hzero]
  | succ n ih =>
      rw [hsucc]
      split
      · next h =>
          simp only [reduceCtorEq, false_iff]
          exact fun hall => hall 0 (Nat.succ_pos n) h
      · next h =>
          rw [ih]
          constructor
          · intro hall j hj
            cases j with
            | zero => exact h
            | succ j =>
                have hj' := hall j (by omega)
                rwa [Nat.add_assoc, Nat.add_comm 256, ← Nat.mul_succ] at hj'
          · intro hall j hj
            have hj' := hall (j + 1) (by omega)
            rwa [Nat.mul_succ, Nat.add_comm (256 * j), ← Nat.add_assoc] at hj'

theorem findIn_none : findIn v name f n = none ↔ ∀ j, j < n → ¬ NameAt v (f + 256 * j) name :=
  search_none (findIn v name) (fun _ => rfl) (fun _ _ => rfl)

theorem freeIn_none : freeIn v f n = none ↔ ∀ j, j < n → v (f + 256 * j) ≠ 0#8 :=
  search_none (freeIn v) (fun _ => rfl) (fun _ _ => rfl)

theorem lasting_findIn (hshort : name.length < maxnamelen) :
    Lasting (fun v blk => findIn v name blk blkfiles) := by
  intro v v' b hv hedits hb hnone
  rw [findIn_none] at hnone ⊢
  intro j hj hname
  refine hnone j hj ?_
  have hbytes : bytesAt v' (fileVa b j) (name.length + 1) =
      bytesAt v (fileVa b j) (name.length + 1) := by
    refine bytesAt_congr (fun x hle hlt => hedits.nameByte_take hv hb hj hle ?_)
    unfold maxnamelen at hshort
    omega
  exact hbytes.symm.trans hname

theorem lasting_freeIn : Lasting (fun v blk => freeIn v blk blkfiles) := by
  intro v v' b hv hedits hb hnone
  rw [freeIn_none] at hnone ⊢
  intro j hj
  have hbyte : v' (fileVa b j) = v (fileVa b j) :=
    hedits.nameByte_take hv hb hj (Nat.le_refl _) (by omega)
  exact hbyte ▸ hnone j hj

/-- A block of a directory that is in order is one of those that its size counts. -/
theorem Holds.dirBlock (h : Holds v (slotOf dir i) b) (hv : DiskOk v) (htype : IsDir v dir) :
    i < dirNblocks v dir ∧ DirBlock v b := by
  have hdir : Reach v dir := by simpa using h.reach
  have hi : i < dirNblocks v dir :=
    Nat.lt_of_not_le (fun hle => (hv.dirs dir hdir htype).beyond i b hle h.has)
  exact ⟨hi, .intro htype hi h⟩

/-- The records of a block that a directory has can be used. -/
theorem Holds.records_fine {p : Slot} {x : Nat} (hs : Mount s) (hp : Holds s.view p b)
    (hle : blkVa b ≤ x) (hlt : x < blkVa b + 256 * blkfiles) : Fine s x :=
  hp.fine hs.owned hle (by unfold blkfiles at hlt; omega)

namespace Fs

theorem dirScan_wp (look : Bytes.Memory → Nat → Option Nat) {find : Nat → FsProg (Option Nat)}
    (hs : Mount s) (hdir : Reach s.view dir) (htype : IsDir s.view dir)
    (hn : i + n ≤ dirNblocks s.view dir) (hlasting : Lasting look)
    (hkeeps : ∀ blk t, Keeps (fun s => t <:+ s.trace) (find blk))
    (hfind : ∀ t k b, Mount t → Holds t.view (slotOf dir k) b →
      Returns (find (blkVa b)) (fun r t' => Loads t t' ∧ r = look t.view (blkVa b)) t) :
    wp (dirScan find dir i n) (Noted SoundNote (fun r s' => Mount s' ∧
      Edits TakeEdit s.view s'.view ∧ ScanResult s'.view (look s'.view) dir i n r)) s := by
  induction n generalizing i s with
  | zero => exact noted_of_returns ⟨hs, .refl, fun k hle hlt => by omega⟩
  | succ n ih =>
      unfold dirScan
      refine noted_bind (fileGetBlock_wp hs hdir (soundNote_get (fun _ => by omega)))
        (fun r t => ?_) (fun r s₁ h => ?_)
      · cases r with
        | error e => exact Keeps.pure _
        | ok blk =>
            refine (hkeeps blk t).bind (fun r => ?_)
            cases r with
            | none => exact keeps_dirScan stable_grows (fun blk => hkeeps blk t) _ _ _
            | some f => exact Keeps.pure _
      obtain ⟨hs₁, hedits, hresult, -⟩ := h
      replace hedits : Edits TakeEdit s.view s₁.view := hedits.mono (fun e he => he.take)
      cases r with
      | error e => exact noted_of_returns ⟨hs₁, hedits, getResult_error hresult⟩
      | ok blk =>
          obtain ⟨⟨b, hheld, rfl⟩, -⟩ := hresult
          refine noted_bind (noted_of_returns (hfind s₁ i b hs₁ hheld)) (fun r t => ?_)
            (fun r s₂ h => ?_)
          · cases r with
            | none => exact keeps_dirScan stable_grows (fun blk => hkeeps blk t) _ _ _
            | some f => exact Keeps.pure _
          obtain ⟨hloads, hr⟩ := h
          have hs₂ := hs₁.loads hloads
          rw [← hloads.view] at hedits hheld hr
          cases r with
          | some g => exact noted_of_returns ⟨hs₂, hedits, i, b, by omega, hheld, hr.symm⟩
          | none =>
              have hdir₂ := (hedits.reach_take hs.disk).mpr hdir
              have htype₂ := (hedits.isDir hs.disk hdir).mpr htype
              have hn₂ : i + 1 + n ≤ dirNblocks s₂.view dir := by
                rw [hedits.dirNblocks_take hs.disk hdir]
                omega
              refine Noted.mono (ih hs₂ hdir₂ htype₂ hn₂) (fun r s₃ h => ?_)
              obtain ⟨hs₃, hedits₃, hresult⟩ := h
              refine ⟨hs₃, hedits.trans hedits₃, ?_⟩
              rcases r with e | _ | g
              · exact hresult
              · intro k hle hlt
                by_cases hki : k = i
                · subst hki
                  refine ⟨b, hedits₃.take_create.holds_create hs₂.disk hheld, ?_⟩
                  exact hlasting _ _ b hs₂.disk hedits₃ (hheld.dirBlock hs₂.disk htype₂).2 hr.symm
                · exact hresult k (by omega) (by omega)
              · obtain ⟨k, c, hk, hc, hlook⟩ := hresult
                exact ⟨k, c, by omega, hc, hlook⟩

/-- The size of a directory is a multiple of that of a block. -/
theorem dirBlocks_mount (hs : Mount s) (hdir : Reach s.view dir) (htype : IsDir s.view dir) :
    Returns (dirBlocks dir) (fun r s' => Loads s s' ∧ r = dirNblocks s.view dir) s := by
  obtain ⟨n, hn, hsize⟩ := (hs.disk.dirs dir hdir htype).size
  refine dirBlocks_returns hs.ready hs.owned.dirsUsed hdir ?_
  have hnat : (BitVec.ofNat 32 (4096 * n)).toNat = 4096 * n := by
    rw [BitVec.toNat_ofNat]
    omega
  rw [show word s.view (fSizeVa dir) = fileSize s.view dir from rfl, hsize]
  refine BitVec.eq_of_toNat_eq ?_
  rw [srem_nat (by omega), hnat]
  simp

/-- What `dir_lookup` returns. -/
def LookupResult (v : Bytes.Memory) (dir : Nat) (name : List U8) : FsResult Nat → Prop
  | .ok g => Named v dir name g
  | .error e => (e = .notFound ∧ ∀ g, ¬ Named v dir name g) ∨ NoRoom e

theorem dirLookup_wp (hs : Mount s) (hdir : Reach s.view dir) (htype : IsDir s.view dir)
    (hshort : name.length < maxnamelen) (hne : name ≠ []) (hnul : 0#8 ∉ name) :
    wp (dirLookup dir name) (Noted SoundNote (fun r s' => Mount s' ∧
      Edits TakeEdit s.view s'.view ∧ LookupResult s'.view dir name r)) s := by
  unfold dirLookup
  refine wp_seq (dirBlocks_mount hs hdir htype) (fun m s₁ h => ?_)
  obtain ⟨hloads, rfl⟩ := h
  have hs₁ := hs.loads hloads
  rw [← hloads.view] at hdir htype ⊢
  refine noted_bind (dirScan_wp (fun v blk => findIn v name blk blkfiles) hs₁ hdir htype
    (by simp) (lasting_findIn hshort) (fun blk t => keeps_findName stable_grows _ _ _)
    (fun t k b ht hb => ?_))
    (fun r t => ?_) (fun r s₂ h => ?_)
  · exact findName_returns ht.ready hshort (fun x hle hlt => hb.records_fine ht hle hlt)
  · rcases r with e | _ | g
    · exact Keeps.pure _
    · exact Keeps.pure _
    · exact Keeps.pure _
  obtain ⟨hs₂, hedits, hresult⟩ := h
  have htype₂ := (hedits.isDir hs₁.disk hdir).mpr htype
  have hdir₂ := (hedits.reach_take hs₁.disk).mpr hdir
  match r, hresult with
  | .error e, hroom => exact noted_of_returns ⟨hs₂, hedits, Or.inr hroom⟩
  | .ok none, hall =>
      refine noted_of_returns ⟨hs₂, hedits, Or.inl ⟨rfl, ?_⟩⟩
      rintro g ⟨⟨-, i, b, j, hi, hb, hj, rfl, -⟩, hname, -, -⟩
      rw [hedits.dirNblocks_take hs₁.disk hdir] at hi
      obtain ⟨c, hc, hnone⟩ := hall i (Nat.zero_le i) (by omega)
      obtain rfl := hc.has.val.symm.trans hb.val
      exact findIn_none.mp hnone j hj hname
  | .ok (some g), ⟨k, b, _, hb, hfound⟩ =>
      obtain ⟨j, hj, rfl, hname⟩ := findIn_some hfound
      refine noted_of_returns ⟨hs₂, hedits, ⟨htype₂, k, b, j, (hb.dirBlock hs₂.disk htype₂).1,
        hb.has, hj, rfl, fun hzero => ?_⟩, hname, hshort, hnul⟩
      cases name with
      | nil => exact hne rfl
      | cons c cs =>
          have hc := (nameAt_cons.mp hname).1
          rw [show s₂.view (blkVa b + 256 * j) = 0#8 from hzero] at hc
          exact hnul (hc ▸ List.mem_cons_self)

/-- The names lead to a directory, but for the last one, which is no name in it. -/
structure LastAbsent (v : Bytes.Memory) (f : Nat) (names : List (List U8)) (dir : Nat)
    (name : List U8) : Prop where
  leads : ∃ init, names = init ++ [name] ∧ Leads v f init dir
  reach : Reach v dir
  type : IsDir v dir
  nonempty : name ≠ []
  nul : 0#8 ∉ name
  short : name.length < maxnamelen
  absent : ∀ g, ¬ Named v dir name g

/-- The names lead nowhere, if they cannot lead to two files. -/
def Nowhere (v : Bytes.Memory) (f : Nat) (names : List (List U8)) (e : FsErr) : Prop :=
  (e = .notFound ∨ e = .badPath) ∧ (NamesUnique v → ∀ g, ¬ Leads v f names g)

/-- What `walk_path` finds. -/
def WalkFound (v : Bytes.Memory) (f : Nat) (names : List (List U8)) : Walked → Prop
  | .found _ g => Leads v f names g
  | .missing dir name => LastAbsent v f names dir name
  | .fails e => NoRoom e ∨ Nowhere v f names e

theorem WalkFound.into {name : List U8} {names : List (List U8)} {r : Walked} (hf : Reach v f)
    (hname : Named v f name g) (h : WalkFound v g names r) : WalkFound v f (name :: names) r := by
  cases r with
  | found dir h' => exact ⟨g, hname, h⟩
  | missing dir last =>
      obtain ⟨init, rfl, hinit⟩ := h.leads
      exact ⟨⟨name :: init, rfl, g, hname, hinit⟩, h.reach, h.type, h.nonempty, h.nul, h.short,
        h.absent⟩
  | fails e =>
      refine Or.imp_right (fun hno => ⟨hno.1, fun hunique k hk => ?_⟩) h
      obtain ⟨g', hname', hk⟩ := hk
      obtain rfl := hunique f name g g' hf hname hname'
      exact hno.2 hunique k hk

theorem walkFrom_wp {d : Option Nat} (hs : Mount s) (hf : Reach s.view f) (hnul : 0#8 ∉ path)
    (hhead : ∀ c cs, path = c :: cs → c ≠ slash) (hlen : path.length ≤ n) :
    wp (walkFrom d f n path) (Noted SoundNote (fun r s' => Mount s' ∧
      Edits TakeEdit s.view s'.view ∧ WalkFound s'.view f (components path) r)) s := by
  induction n generalizing d f path s with
  | zero =>
      obtain rfl := List.length_eq_zero_iff.mp (Nat.le_zero.mp hlen)
      unfold walkFrom
      rw [components_nil]
      exact noted_of_returns ⟨hs, .refl, rfl⟩
  | succ n ih =>
      cases path with
      | nil =>
          unfold walkFrom
          rw [components_nil]
          exact noted_of_returns ⟨hs, .refl, rfl⟩
      | cons c cs =>
          have hslash : c ≠ slash := hhead c cs rfl
          have hne : (c :: cs).takeWhile (· ≠ slash) ≠ [] := by
            rw [List.takeWhile_cons_of_pos (by simpa using hslash)]
            simp
          have hnul' : 0#8 ∉ (c :: cs).takeWhile (· ≠ slash) := fun hmem =>
            hnul (List.takeWhile_subset _ hmem)
          have hrest : 0#8 ∉ skipSlash ((c :: cs).dropWhile (· ≠ slash)) := fun hmem =>
            hnul (List.dropWhile_subset _ (skipSlash_mem hmem))
          have hlen' : (skipSlash ((c :: cs).dropWhile (· ≠ slash))).length ≤ n := by
            have hskip := skipSlash_length ((c :: cs).dropWhile (· ≠ slash))
            rw [List.dropWhile_cons_of_pos (by simpa using hslash)] at hskip ⊢
            have hdrop := (List.dropWhile_suffix (l := cs) (· ≠ slash)).length_le
            rw [List.length_cons] at hlen
            omega
          rw [components_cons hslash]
          unfold walkFrom
          simp only
          generalize (c :: cs).takeWhile (· ≠ slash) = name at *
          have hhead' : ∀ c' cs', skipSlash ((c :: cs).dropWhile (· ≠ slash)) = c' :: cs' →
              c' ≠ slash := fun _ _ h => skipSlash_head h
          generalize skipSlash ((c :: cs).dropWhile (· ≠ slash)) = rest at *
          refine wp_ite (fun hlong => noted_of_returns ⟨hs, .refl, Or.inr ⟨Or.inr rfl, ?_⟩⟩)
            (fun hshort => ?_)
          · rintro - g ⟨k, hk, -⟩
            exact absurd hk.short (by omega)
          refine wp_seq (loadWord_field hs.ready hs.owned (a := 132) hf (by decide) (by decide))
            (fun w s₁ h => ?_)
          obtain ⟨hloads, rfl⟩ := h
          have hs₁ := hs.loads hloads
          rw [← hloads.view] at hf ⊢
          refine wp_ite (fun hfile => noted_of_returns ⟨hs₁, .refl, Or.inr ⟨Or.inl rfl, ?_⟩⟩)
            (fun htype => ?_)
          · rintro - g ⟨k, hk, -⟩
            exact hfile hk.entry.1
          replace htype : IsDir s₁.view f := Classical.not_not.mp htype
          refine noted_bind (dirLookup_wp hs₁ hf htype (Nat.lt_of_not_le hshort) hne hnul')
            (fun r t => ?_) (fun r s₂ h => ?_)
          · cases r with
            | error e => exact (Keeps.pure _).ite (Keeps.pure _)
            | ok g => exact keeps_walkFrom stable_grows _ _ _ _
          obtain ⟨hs₂, hedits, hresult⟩ := h
          have hf₂ := (hedits.reach_take hs₁.disk).mpr hf
          cases r with
          | error e =>
              refine wp_ite (fun hlast => noted_of_returns ⟨hs₂, hedits, ?_⟩)
                (fun hlast => noted_of_returns ⟨hs₂, hedits, ?_⟩)
              · rcases hresult with ⟨-, hnone⟩ | hroom
                · rw [hlast.2, components_nil]
                  exact ⟨⟨[], rfl, rfl⟩, hf₂, (hedits.isDir hs₁.disk hf).mpr htype, hne, hnul',
                    Nat.lt_of_not_le hshort, hnone⟩
                · rcases hroom with rfl | rfl
                  · exact absurd hlast.1 (by simp)
                  · exact absurd hlast.1 (by simp)
              · rcases hresult with ⟨rfl, hnone⟩ | hroom
                · refine Or.inr ⟨Or.inl rfl, ?_⟩
                  rintro - g ⟨k, hk, -⟩
                  exact hnone k hk
                · exact Or.inl hroom
          | ok g =>
              have hg : Reach s₂.view g := hresult.reach hf₂
              refine Noted.mono (ih hs₂ hg hrest hhead' hlen') (fun r s₃ h => ?_)
              obtain ⟨hs₃, hedits₃, hfound⟩ := h
              exact ⟨hs₃, hedits.trans hedits₃, .into ((hedits₃.reach_take hs₂.disk).mpr hf₂)
                ((hedits₃.named_take hs₂.disk hf₂).mpr hresult) hfound⟩

/-- `walk_path`, of a path without a null character. -/
theorem walkPath_wp (hs : Mount s) (hnul : 0#8 ∉ path) :
    wp (walkPath path) (Noted SoundNote (fun r s' => Mount s' ∧
      Edits TakeEdit s.view s'.view ∧ WalkFound s'.view rootVa (components path) r)) s := by
  have hwalk := walkFrom_wp (d := none) hs .root (fun hmem => hnul (skipSlash_mem hmem))
    (fun _ _ h => skipSlash_head h) (skipSlash_length path)
  rw [components_skipSlash] at hwalk
  exact hwalk

/-- What `file_open` returns. -/
def OpenResult (v : Bytes.Memory) (names : List (List U8)) : FsResult Nat → Prop
  | .ok g => Leads v rootVa names g
  | .error e => NoRoom e ∨ Nowhere v rootVa names e

theorem LastAbsent.nowhere {names : List (List U8)} (h : LastAbsent v f names dir name)
    (hf : Reach v f) : Nowhere v f names .notFound := by
  refine ⟨Or.inl rfl, fun hunique g hg => ?_⟩
  obtain ⟨init, rfl, hinit⟩ := h.leads
  obtain ⟨dir', hdir', hname⟩ := leads_concat.mp hg
  obtain rfl := leads_unique hunique hf hinit hdir'
  exact h.absent g hname

/-- `file_open` finds the file that the path leads to. -/
theorem fileOpen_wp (hs : Mount s) (hnul : 0#8 ∉ path) :
    wp (fileOpen path) (Noted SoundNote (fun r s' => Mount s' ∧
      Edits TakeEdit s.view s'.view ∧ OpenResult s'.view (components path) r)) s := by
  unfold fileOpen
  refine noted_bind (walkPath_wp hs hnul) (fun r t => ?_) (fun r s₁ h => ?_)
  · cases r with
    | found dir f => exact Keeps.pure _
    | missing dir name => exact Keeps.pure _
    | fails e => exact Keeps.pure _
  obtain ⟨hs₁, hedits, hresult⟩ := h
  refine noted_of_returns ?_
  cases r with
  | found dir f => exact ⟨hs₁, hedits, hresult⟩
  | missing dir name => exact ⟨hs₁, hedits, Or.inr (hresult.nowhere .root)⟩
  | fails e => exact ⟨hs₁, hedits, hresult⟩

end Fs

end Searching

/-! ## New files -/

section Creating

variable {s s' : Fs} {v v' : Bytes.Memory} {dir f g i n b j : Nat} {name path : List U8}

/-- Record `f` is in a block of directory `dir`, and empty. -/
structure NewFile (v : Bytes.Memory) (dir f : Nat) : Prop where
  record : InDir v dir f
  empty : EmptyFile v f

/-- The same files can be reached, by the same names. -/
structure SameNames (v v' : Bytes.Memory) : Prop where
  reach : ∀ g, Reach v' g ↔ Reach v g
  named : ∀ dir name g, Reach v dir → (Named v' dir name g ↔ Named v dir name g)

theorem SameNames.trans {v'' : Bytes.Memory} (h : SameNames v v') (h' : SameNames v' v'') :
    SameNames v v'' where
  reach := fun g => (h'.reach g).trans (h.reach g)
  named := fun dir name g hdir =>
    (h'.named dir name g ((h.reach dir).mpr hdir)).trans (h.named dir name g hdir)

theorem SameNames.leads {names : List (List U8)} (h : SameNames v v') (hf : Reach v f) :
    Leads v' f names g ↔ Leads v f names g := by
  induction names generalizing f with
  | nil => exact Iff.rfl
  | cons name names ih =>
      simp only [Leads]
      constructor
      · rintro ⟨k, hk, hg⟩
        have hk' := (h.named f name k hf).mp hk
        exact ⟨k, hk', (ih (hk'.reach hf)).mp hg⟩
      · rintro ⟨k, hk, hg⟩
        exact ⟨k, (h.named f name k hf).mpr hk, (ih (hk.reach hf)).mpr hg⟩

theorem Edits.sameNames {P : FileEdit → Prop} (h : Edits P v v') (hv : DiskOk v)
    (hP : ∀ e g, P e → e ≠ .entry g) : SameNames v v' :=
  ⟨fun _ => h.reach_iff hv hP, fun _ _ _ hdir => h.named hv hdir hP⟩

theorem Edits.sameNames_take (h : Edits TakeEdit v v') (hv : DiskOk v) : SameNames v v' :=
  h.sameNames hv (fun _ g he => he.no_entry.1 g)

/-- A record without a name is not reachable. -/
theorem Reach.named (hf : Reach v f) (howned : Owned v) (hb : DirBlock v b)
    (heq : f = fileVa b j) : v f ≠ 0#8 := by
  have htwo := (hb.range howned).1
  rcases hf.shape with rfl | ⟨c, k, -, -, hname, -⟩
  · exfalso
    unfold rootVa superVa at heq
    unfold fileVa blkVa diskmap blksize at heq
    omega
  · exact hname

theorem NewFile.unreachable (h : NewFile v dir f) (hv : DiskOk v) (hdir : Reach v dir) :
    ¬ Reach v f := by
  obtain ⟨b, j, hb, -, heq⟩ := h.record.record hdir
  exact fun hf => hf.named hv.owned hb heq h.empty.1

namespace Fs

/-- The size of a directory is set to one more block. -/
theorem growDir_returns (hs : Mount s) (hdir : Reach s.view dir) (htype : IsDir s.view dir)
    (hn : n ≤ 1034) (hsize : fileSize s.view dir = BitVec.ofNat 32 (4096 * n)) :
    Returns (storeWord (fSizeVa dir) (BitVec.ofNat 32 (4096 * (n + 1)))) (fun _ s' => Mount s' ∧
      Edit s.view (.grow dir) s'.view ∧ dirNblocks s'.view dir = n + 1) s := by
  have hedit : Edit s.view (.grow dir)
      (setWord s.view (fSizeVa dir) (BitVec.ofNat 32 (4096 * (n + 1)))) :=
    .grow hdir htype hn hsize
  have hdisk := hedit.diskOk hs.disk
  have hfine : Fine s (fSizeVa dir) :=
    Reach.fine hs.ready hs.owned hdir (Nat.le_add_right _ _) (by unfold fSizeVa; omega)
  have haligned : fSizeVa dir % 4 = 0 := by
    have hfour := hdir.aligned
    unfold fSizeVa
    omega
  refine Returns.mono (storeWord_returns hs.ready haligned hfine) (fun _ s' h => ?_)
  rw [← h.view] at hedit hdisk
  refine ⟨.of_ready (hs.ready.stores h (h.view ▸ hdisk.checked)) hdisk, hedit, ?_⟩
  refine dirNblocks_eq (by omega) ?_
  rw [h.view]
  exact word_setWord_self

/-- What `dir_alloc_file` returns. -/
def AllocResult (v : Bytes.Memory) (dir : Nat) : FsResult Nat → Prop
  | .ok f => NewFile v dir f
  | .error e => NoRoom e

theorem dirAllocFile_wp (hs : Mount s) (hdir : Reach s.view dir) (htype : IsDir s.view dir) :
    wp (dirAllocFile dir) (Noted SoundNote (fun r s' => Mount s' ∧
      Edits CreateEdit s.view s'.view ∧ SameNames s.view s'.view ∧
      AllocResult s'.view dir r)) s := by
  unfold dirAllocFile
  refine wp_seq (dirBlocks_mount hs hdir htype) (fun m s₁ h => ?_)
  obtain ⟨hloads, rfl⟩ := h
  have hs₁ := hs.loads hloads
  rw [← hloads.view] at hdir htype ⊢
  refine noted_bind (dirScan_wp (fun v blk => freeIn v blk blkfiles) hs₁ hdir htype
    (by simp) lasting_freeIn (fun blk t => keeps_findFree stable_grows _ _)
    (fun t k b ht hb => ?_))
    (fun r t => ?_) (fun r s₂ h => ?_)
  · exact findFree_returns ht.ready (fun x hle hlt => hb.records_fine ht hle hlt)
  · rcases r with e | _ | g
    · exact Keeps.pure _
    · refine (keeps_loadWord stable_grows _).bind (fun _ => (keeps_note stable_grows _).bind
        (fun _ => (keeps_storeWord stable_grows _ _).bind (fun _ =>
          (keeps_fileGetBlock stable_grows dir _).bind (fun r => ?_))))
      cases r with
      | error e => exact Keeps.pure _
      | ok blk => exact (keeps_note stable_grows _).bind (fun _ => Keeps.pure _)
    · exact (keeps_note stable_grows _).bind (fun _ => Keeps.pure _)
  obtain ⟨hs₂, hedits, hresult⟩ := h
  have hnames := hedits.sameNames_take hs₁.disk
  have hdir₂ := (hnames.reach dir).mpr hdir
  have htype₂ := (hedits.isDir hs₁.disk hdir).mpr htype
  have hcreate := hedits.take_create
  match r, hresult with
  | .error e, hroom => exact noted_of_returns ⟨hs₂, hcreate, hnames, hroom⟩
  | .ok (some g), ⟨k, b, _, hb, hfound⟩ =>
      obtain ⟨j, hj, rfl, -⟩ := freeIn_some hfound
      refine noted_note (fun t => Keeps.pure _) (fun hnote => ?_)
      have hin := (hb.dirBlock hs₂.disk htype₂).1
      exact noted_of_returns ⟨hs₂.note, hcreate, hnames,
        ⟨htype₂, k, b, j, hin, hb.has, hj, rfl⟩, hnote⟩
  | .ok none, hall =>
      -- all blocks are there, and so there are few enough for one more
      obtain ⟨n, hn, hsize⟩ := (hs₂.disk.dirs dir hdir₂ htype₂).size
      have hnblocks : dirNblocks s₁.view dir = n := by
        rw [← hedits.dirNblocks_take hs₁.disk hdir, dirNblocks_eq hn hsize]
      have hroom : n ≤ 1034 := by
        by_contra hlarge
        obtain ⟨b, hb, -⟩ := hall 1034 (by omega) (by omega)
        exact not_exists_large (by decide) hb.has
      refine wp_seq (loadWord_field hs₂.ready hs₂.owned (a := 128) hdir₂ (by decide) (by decide))
        (fun w s₃ h => ?_)
      obtain ⟨hloads₃, rfl⟩ := h
      have hs₃ := hs₂.loads hloads₃
      rw [show word s₂.view (dir + 128) = fileSize s₂.view dir from rfl, hsize,
        show BitVec.ofNat 32 (4096 * n) + 4096#32 = BitVec.ofNat 32 (4096 * (n + 1)) by
          rw [Nat.mul_succ, BitVec.ofNat_add]]
      refine wp_modify_bind.mpr ?_
      rw [← hloads₃.view] at hdir₂ htype₂ hsize hcreate hnames
      refine wp_seq (growDir_returns hs₃.note hdir₂ htype₂ hroom hsize) (fun _ s₄ h => ?_)
      obtain ⟨hs₄, hgrow, hnblocks₄⟩ := h
      have hgrow' : Edits (· = .grow dir) s₃.view s₄.view := .one rfl hgrow
      have hnames₄ := hnames.trans (hgrow'.sameNames hs₃.disk (fun e g he => by simp [he]))
      have hdir₄ := (hnames₄.reach dir).mpr hdir
      have htype₄ := (hgrow.isDir hs₃.disk hdir₂).mpr htype₂
      have hcreate₄ : Edits CreateEdit s₁.view s₄.view :=
        hcreate.step (Or.inr (Or.inl ⟨dir, rfl⟩)) hgrow
      rw [hnblocks]
      refine noted_bind (fileGetBlock_wp hs₄ hdir₄ (soundNote_get (fun _ => by omega)))
        (fun r t => ?_) (fun r s₅ h => ?_)
      · cases r with
        | error e => exact Keeps.pure _
        | ok blk => exact (keeps_note stable_grows _).bind (fun _ => Keeps.pure _)
      obtain ⟨hs₅, hedits₅, hresult₅, -⟩ := h
      replace hedits₅ : Edits TakeEdit s₄.view s₅.view := hedits₅.mono (fun e he => he.take)
      have hnames₅ := hnames₄.trans (hedits₅.sameNames_take hs₄.disk)
      have hcreate₅ := hcreate₄.trans hedits₅.take_create
      cases r with
      | error e =>
          exact noted_of_returns ⟨hs₅, hcreate₅, hnames₅, getResult_error hresult₅⟩
      | ok blk =>
          obtain ⟨⟨b, hb, rfl⟩, -⟩ := hresult₅
          have htype₅ := (hedits₅.isDir hs₄.disk hdir₄).mpr htype₄
          refine noted_note (fun t => Keeps.pure _) (fun hnote => ?_)
          have hin := (hb.dirBlock hs₅.disk htype₅).1
          exact noted_of_returns ⟨hs₅.note, hcreate₅, hnames₅,
            ⟨htype₅, _, b, 0, hin, hb.has, by decide, rfl⟩, hnote⟩

/-- `strcpy` into a block that is in use. -/
theorem strCpy_returns {va : Nat} (hs : Ready s) (huse : InUse s.view b)
    (hlow : firstBlock s.view ≤ b) (hlo : blkVa b ≤ va)
    (hhi : va + name.length + 1 ≤ blkVa b + 4096) :
    Returns (strCpy va name) (fun _ s' => Ready s' ∧ NameAt s'.view va name ∧
      ∀ x, x < va ∨ va + name.length + 1 ≤ x → s'.view x = s.view x) s := by
  have hstore : ∀ (s : Fs) (va : Nat) (x : U8), Ready s → InUse s.view b →
      firstBlock s.view ≤ b → blkVa b ≤ va → va < blkVa b + 4096 →
      Returns (storeByte va x) (fun _ s' => Ready s' ∧ InUse s'.view b ∧
        firstBlock s'.view ≤ b ∧ s'.view = Function.update s.view va x) s := by
    intro s va x hs huse hlow hlo hhi
    have htotal : Returns (storeByte va x) (fun _ _ => True) s :=
      returns_bind (touch_returns hs (huse.bytes_fine hlo hhi)) (fun _ _ _ => trivial)
    refine Returns.mono (returns_of_wp storeByte_wp htotal) (fun _ s' h => ?_)
    obtain ⟨h, -⟩ := h
    have hwrite : DataWrite s.view s'.view b := fun y hy => by
      rw [h.view]
      exact Function.update_of_ne (by omega) _ _
    obtain ⟨hblocks, hfree⟩ := hwrite.bits hlow
    have hchecked : Checked s'.view :=
      hs.checked.of_free hblocks (fun c hc => Or.inl ((hfree c).mp hc))
    refine ⟨hs.stores h (h.view ▸ hchecked), ⟨hblocks ▸ huse.lt, mt (hfree b).mp huse.used⟩, ?_,
      h.view⟩
    unfold firstBlock at *
    rw [hblocks]
    exact hlow
  induction name generalizing va s with
  | nil =>
      refine Returns.mono (hstore s va 0#8 hs huse hlow hlo (by omega)) (fun _ s' h => ?_)
      obtain ⟨hs', -, -, hview⟩ := h
      refine ⟨hs', ?_, fun x hx => ?_⟩
      · rw [nameAt_nil, hview, Function.update_self]
      · rw [hview, Function.update_of_ne]
        simp at hx
        omega
  | cons c cs ih =>
      rw [List.length_cons] at hhi
      refine returns_bind (hstore s va c hs huse hlow hlo (by omega)) (fun _ s₁ h => ?_)
      obtain ⟨hs₁, huse₁, hlow₁, hview⟩ := h
      refine Returns.mono (ih hs₁ huse₁ hlow₁ (by omega) (by omega)) (fun _ s₂ h => ?_)
      obtain ⟨hs₂, hname, hrest⟩ := h
      refine ⟨hs₂, nameAt_cons.mpr ⟨?_, hname⟩, fun x hx => ?_⟩
      · rw [hrest va (by omega), hview, Function.update_self]
      · rw [List.length_cons] at hx
        rw [hrest x (by omega), hview, Function.update_of_ne (by omega)]

/-- Where the names lead there is a new file, in a directory that had no such name, and no
other name is new. -/
structure NewName (v v' : Bytes.Memory) (names : List (List U8)) (dir : Nat) (name : List U8)
    (f : Nat) : Prop where
  init : ∃ init, names = init ++ [name] ∧ Leads v rootVa init dir
  absent : ∀ g, ¬ Named v dir name g
  named : ∀ d n g, Reach v d →
    (Named v' d n g ↔ Named v d n g ∨ (d = dir ∧ n = name ∧ g = f))

/-- What `file_create` returns. -/
def CreateResult (v v' : Bytes.Memory) (names : List (List U8)) : FsResult Nat → Prop
  | .ok f => ¬ Reach v f ∧ (∀ g, Reach v' g ↔ Reach v g ∨ g = f) ∧ ¬ IsDir v' f ∧
      fileSize v' f = 0#32 ∧ (∀ i b, ¬ Holds v' (slotOf f i) b) ∧
      ∃ dir name, NewName v v' names dir name f
  | .error e => SameNames v v' ∧ (NoRoom e ∨ Nowhere v' rootVa names e ∨
      (e = .fileExists ∧ ∃ g, Leads v' rootVa names g))

/-- A record that gets a name is an empty file. -/
theorem nameFile_returns (hs : Mount s) (hdir : Reach s.view dir) (hnew : NewFile s.view dir f)
    (hne : name ≠ []) (hnul : 0#8 ∉ name) (hshort : name.length < maxnamelen) :
    Returns (strCpy f name) (fun _ s' => Mount s' ∧ Edit s.view (.entry f) s'.view ∧
      NameAt s'.view f name ∧ ¬ IsDir s'.view f ∧ fileSize s'.view f = 0#32 ∧
      ∀ i b, ¬ Holds s'.view (slotOf f i) b) s := by
  obtain ⟨hin, hzero, hblank⟩ := hnew
  obtain ⟨b, j, hb, hj, rfl⟩ := hin.record hdir
  obtain ⟨dir', i, -, -, hheld⟩ := hb.holds
  have hrange := hs.owned.range _ _ hheld
  have hrecord : blkVa b ≤ fileVa b j ∧ fileVa b j + 256 ≤ blkVa b + 4096 := by
    unfold fileVa blkfiles at *
    omega
  have hlong := hshort
  unfold maxnamelen at hlong
  refine Returns.mono (strCpy_returns hs.ready ⟨hrange.2, hs.owned.used _ _ hheld⟩ hrange.1
    hrecord.1 (by omega)) (fun _ s' h => ?_)
  obtain ⟨hs', hname, hrest⟩ := h
  have hstore : NameStore s.view s'.view (fileVa b j) := fun x hx => hrest x (by omega)
  have hhead : s'.view (fileVa b j) ≠ 0#8 := by
    intro hnull
    cases name with
    | nil => exact hne rfl
    | cons c cs =>
        have hc := (nameAt_cons.mp hname).1
        rw [hnull] at hc
        exact hnul (hc ▸ List.mem_cons_self)
  have hedit : Edit s.view (.entry (fileVa b j)) s'.view :=
    .entry hb hj hzero hblank hstore hhead
  have hempty := hstore.blank hblank
  refine ⟨.of_ready hs' (hedit.diskOk hs.disk), hedit, hname, hempty.1, ?_,
    fun i c hc => hempty.2 _ c slotOf_file hc.has⟩
  refine word_zero (fun x hle hlt => ?_)
  unfold fSizeVa at hle hlt
  rw [hstore x (by omega), show x = fileVa b j + (x - fileVa b j) by omega]
  exact hblank _ (by omega) (by omega)

/-- `file_create`, of a path without a null character. -/
theorem fileCreate_wp (hs : Mount s) (hnul : 0#8 ∉ path) :
    wp (fileCreate path) (Noted SoundNote (fun r s' => Mount s' ∧
      Edits CreateEdit s.view s'.view ∧ CreateResult s.view s'.view (components path) r)) s := by
  unfold fileCreate
  refine noted_bind (walkPath_wp hs hnul) (fun r t => ?_) (fun r s₁ h => ?_)
  · cases r with
    | found dir f => exact Keeps.pure _
    | fails e => exact Keeps.pure _
    | missing dir name =>
        refine (keeps_dirAllocFile stable_grows dir).bind (fun r => ?_)
        cases r with
        | error e => exact Keeps.pure _
        | ok f =>
            exact (keeps_strCpy stable_grows name f).bind (fun _ =>
              (keeps_fileFlush stable_grows dir).bind (fun _ => Keeps.pure _))
  obtain ⟨hs₁, hedits, hresult⟩ := h
  have hnames := hedits.sameNames_take hs.disk
  have hcreate := hedits.take_create
  cases r with
  | found dir f =>
      exact noted_of_returns ⟨hs₁, hcreate, hnames, Or.inr (Or.inr ⟨rfl, f, hresult⟩)⟩
  | fails e => exact noted_of_returns ⟨hs₁, hcreate, hnames, hresult.imp_right Or.inl⟩
  | missing dir name =>
      obtain ⟨⟨init, hinit, hleads⟩, hdir, htype, hne, hnul', hshort, hnone⟩ := hresult
      refine noted_bind (dirAllocFile_wp hs₁ hdir htype) (fun r t => ?_) (fun r s₂ h => ?_)
      · cases r with
        | error e => exact Keeps.pure _
        | ok f =>
            exact (keeps_strCpy stable_grows name f).bind (fun _ =>
              (keeps_fileFlush stable_grows dir).bind (fun _ => Keeps.pure _))
      obtain ⟨hs₂, hedits₂, hnames₂, hresult₂⟩ := h
      have hnames' := hnames.trans hnames₂
      have hcreate₂ := hcreate.trans hedits₂
      cases r with
      | error e => exact noted_of_returns ⟨hs₂, hcreate₂, hnames', Or.inl hresult₂⟩
      | ok f =>
          have hdir₂ := (hnames₂.reach dir).mpr hdir
          have hgone := hresult₂.unreachable hs₂.disk hdir₂
          refine noted_of_returns (returns_bind (nameFile_returns hs₂ hdir₂ hresult₂ hne hnul'
            hshort) (fun _ s₃ h => ?_))
          obtain ⟨hs₃, hedit, hname, hfile, hsize, hnone₃⟩ := h
          have hreach₃ : ∀ g, Reach s₃.view g ↔ Reach s.view g ∨ g = f := fun g => by
            rw [hedit.reach hs₂.disk, hnames'.reach g, FileEdit.entry.injEq, @eq_comm _ f g]
          have hdir₃ := (hreach₃ dir).mpr (Or.inl ((hnames.reach dir).mp hdir))
          refine returns_bind (fileFlush_returns hs₃ hdir₃) (fun _ s₄ h => ?_)
          obtain ⟨hs₄, hview⟩ := h
          refine ⟨hs₄, ?_, ?_⟩
          · rw [hview]
            exact hcreate₂.step (Or.inr (Or.inr ⟨f, rfl⟩)) hedit
          · rw [hview]
            refine ⟨mt (hnames'.reach f).mpr hgone, hreach₃, hfile, hsize, hnone₃, dir, name,
              ⟨init, hinit, (hnames.leads .root).mp hleads⟩, fun g hg => ?_, fun d n g hd => ?_⟩
            · exact hnone g ((hnames.named dir name g ((hnames.reach dir).mp hdir)).mpr hg)
            · have hd₂ := (hnames'.reach d).mpr hd
              rw [hedit.named_entry hs₂.disk hdir₂ hresult₂.record hname hshort hnul' hd₂,
                hnames'.named d n g hd]

end Fs

end Creating

end Jos

import Jos.ImageReads

/-!
# Formatter and file server agree

`Agrees` is what the file server relies on in an image that `fsformat` made: it starts,
the blocks are owned, the blocks that were not allocated are free, and the first file
with a name is read back.

`fsformat_agrees` is the result: so it is exactly if there is a file.  Without files,
`ROUNDUP` of the `int` zero is a whole block, and `finishdir` gives the directory a block
that was never allocated.
-/

namespace Jos

open Programs Bytes Fs

/-- The file server has not yet read anything from the disk that `fsformat` wrote. -/
structure Fresh (h : Host) (s : Fs) : Prop where
  unmapped : ∀ b, s.mapped b = false
  disk : ∀ x, x < h.nblocks.toNat * blksize → s.disk x = h.mem (diskmap + x)

/-- The file server is ready, and sees what `fsformat` wrote. -/
structure Mounted (h : Host) (s : Fs) : Prop where
  ready : Ready s
  disk : ∀ x, diskmap ≤ x → x < blkVa h.nblocks.toNat → s.view x = h.mem x

/-- `file_open` and then `file_read`. -/
def openRead (path : List U8) (buf : Nat) (count offset : U32) : FsProg U32 := do
  let r ← fileOpen path
  match r with
  | .ok f => fileRead f buf count offset
  | .error e => pure e.code

/-- What the file server relies on. -/
structure Agrees (h : Host) (files : List HostFile) : Prop where
  checks : ∀ s, Fresh h s → Returns fsInit (fun _ s' => Mounted h s') s
  owned : Owned h.mem
  free : ∀ b, (h.diskpos - diskmap) / blksize ≤ b → b < h.nblocks.toNat → Free h.mem b
  reads : ∀ g, g ∈ files → ∀ first,
    files.find? (fun g' => decide (g'.name = g.name)) = some first →
    ∀ s n buf count offset, Mounted h s → offset.toNat < 2 ^ 31 →
    (∀ x, buf ≤ x → x < buf + first.data.length → ¬ InDisk x) →
    Returns (openRead (List.replicate n slash ++ g.name) buf count offset) (fun r s' =>
      r.toNat = min count.toNat (first.data.length - offset.toNat) ∧
      bytesAt s'.view buf r.toNat = (first.data.drop offset.toNat).take r.toNat ∧
      Mounted h s') s

section Start

variable {h : Host} {s s' : Fs} {v : Bytes.Memory} {files : List HostFile} {b : Nat}

theorem assertUsed_returns (hs : Ready s) (hused : ¬ Free s.view b) :
    Returns (assertUsed b) (fun _ s' => Loads s s') s := by
  unfold assertUsed
  refine returns_bind (blockIsFree_returns hs) (fun r s₁ h => ?_)
  obtain ⟨hloads, rfl⟩ := h
  exact wp_when (fun hfree => absurd (of_decide_eq_true hfree) hused) (fun _ => hloads)

theorem bitmapVa_two : blockOf (bitmapVa 2) = 2 := by decide

/-- The first block of the bitmap is read in by its own check. -/
theorem touch_bitmap (hsuper : s.mapped 1 = true) (huse : InUse s.view 2) :
    Returns (touch (bitmapVa 2)) (fun _ s' => Loads s s' ∧ s'.mapped 2 = true) s := by
  unfold touch
  rw [bitmapVa_two]
  refine wp_get_bind.mpr (wp_when (fun h => ?_) (fun hno => ⟨Loads.refl, ?_⟩))
  · exact pgfault_returns huse hsuper h.2 (fun t ht hmapped =>
      loadNested_finds bitmapVa_aligned (by rw [bitmapVa_two]; exact hmapped) t Loads.refl)
  · cases hm : s.mapped 2 with
    | true => rfl
    | false => exact absurd ⟨by decide, hm⟩ hno

theorem assertUsed_bitmap (hsuper : s.mapped 1 = true) (huse : InUse s.view 2) :
    Returns (assertUsed 2) (fun _ s' => Loads s s' ∧ s'.mapped 2 = true) s := by
  have hlt : ¬ (word s.view snblocksVa).toNat ≤ 2 := Nat.not_le.mpr huse.lt
  unfold assertUsed blockIsFree isFree
  refine returns_bind (R := fun r s' => (Loads s s' ∧ s'.mapped 2 = true) ∧ r = false) ?_
    (fun r s₁ h => ?_)
  · refine returns_bind (loadWord_super hsuper) (fun w s₁ h => ?_)
    obtain ⟨rfl, rfl⟩ := h
    rw [if_neg hlt]
    unfold loadWord
    refine returns_bind (R := fun w s₂ => (Loads s₁ s₂ ∧ s₂.mapped 2 = true) ∧
      w = word s₂.mem (bitmapVa 2)) ?_ (fun w s₂ h => ?_)
    · exact returns_bind (touch_bitmap hsuper huse) (fun _ _ h => ⟨h, rfl⟩)
    obtain ⟨h, rfl⟩ := h
    have hword : word s₂.mem (bitmapVa 2) = word s₁.view (bitmapVa 2) := by
      rw [← h.1.view]
      exact word_view_of_mapped (fun _ => by rw [bitmapVa_two]; exact h.2) bitmapVa_aligned
    rw [hword]
    refine ⟨h, ?_⟩
    cases hbit : (word s₁.view (bitmapVa 2)).getLsbD (2 % 32) with
    | false => rfl
    | true => exact absurd ⟨huse.lt, hbit⟩ huse.used
  · obtain ⟨h, rfl⟩ := h
    exact wp_when (fun hfree => by cases hfree) (fun _ => h)

/-- `check_bitmap`, once the super block is in memory. -/
theorem checkBitmap_returns (hsuper : s.mapped 1 = true) (hchecked : Checked s.view)
    (hblocks : 2 < diskBlocks s.view) :
    Returns checkBitmap (fun _ s' => Loads s s' ∧ Ready s') s := by
  have hused : ∀ t, Loads s t → ∀ b, b < firstBlock s.view → ¬ Free t.view b :=
    fun t ht b hb => by
      rw [ht.view]
      exact hchecked.reserved b hb
  have hfirst := firstBlock_ge (v := s.view)
  have hrounds : ∃ n, (diskBlocks s.view + 32767) / 32768 = n + 1 :=
    ⟨(diskBlocks s.view + 32767) / 32768 - 1, by omega⟩
  obtain ⟨n, hn⟩ := hrounds
  have hlast : firstBlock s.view = 2 + (n + 1) := congrArg (2 + ·) hn
  have hready : ∀ t, Loads s t → t.mapped 2 = true → Ready t := fun t ht hmapped =>
    ⟨ht.mapped 1 hsuper, hmapped, by rw [ht.view]; exact hchecked⟩
  have hstep : ∀ t b, Loads s t ∧ Ready t → b < firstBlock s.view →
      Returns (assertUsed b) (fun _ t' => Loads s t' ∧ Ready t') t := fun t b ht hb =>
    Returns.mono (assertUsed_returns ht.2 (hused t ht.1 b hb))
      (fun _ t' h => ⟨ht.1.trans h, ht.2.loads h⟩)
  unfold checkBitmap
  refine returns_bind (loadWord_super hsuper) (fun w s₁ h => ?_)
  obtain ⟨rfl, rfl⟩ := h
  change Returns (Prog.forRange 0 ((diskBlocks s₁.view + 32767) / 32768) _ >>= _) _ _
  rw [hn]
  refine returns_bind (R := fun _ t => Loads s₁ t ∧ Ready t) ?_ (fun _ t ht => ?_)
  · unfold Prog.forRange
    refine returns_bind (assertUsed_bitmap hsuper ⟨hblocks, hchecked.reserved 2 (by omega)⟩)
      (fun _ t ht => ?_)
    exact wp_forRange (fun _ t => Loads s₁ t ∧ Ready t) _ _
      (fun i t hle hlt h => hstep t (2 + i) h (by omega)) (fun _ h => h)
      ⟨ht.1, hready t ht.1 ht.2⟩
  · exact returns_bind (hstep t 0 ht (by omega)) (fun _ t' ht' => hstep t' 1 ht' (by omega))

end Start

section Agreement

variable {h h₀ : Host} {s s' : Fs} {files : List HostFile} {nblocks : U32}

theorem Mounted.loads (hs : Mounted h s) (hloads : Loads s s') : Mounted h s' where
  ready := hs.ready.loads hloads
  disk := fun x hle hlt => by
    rw [hloads.view]
    exact hs.disk x hle hlt

/-- What is mounted is the image. -/
theorem Mounted.image (hs : Mounted h s) (himage : Image h.mem h.nblocks.toNat files) :
    Image s.view h.nblocks.toNat files := himage.congr hs.disk

/-- The file server starts on an image. -/
theorem fsInit_returns (hfresh : Fresh h s) (himage : Image h.mem h.nblocks.toNat files) :
    Returns fsInit (fun _ s' => Mounted h s') s := by
  have hsmall := himage.small
  have hroom := himage.room
  have hstart : 3 ≤ endOf 3 files := endOf_ge
  have hdisk : ∀ x, diskmap ≤ x → x < blkVa h.nblocks.toNat → s.view x = h.mem x := by
    intro x hle hlt
    have hin : InDisk x ∧ s.mapped (blockOf x) = false := by
      refine ⟨⟨hle, ?_⟩, hfresh.unmapped _⟩
      unfold blkVa blksize at hlt
      unfold disksize
      omega
    show (if InDisk x ∧ s.mapped (blockOf x) = false then s.disk (x - diskmap) else s.mem x) = _
    rw [if_pos hin, hfresh.disk _ (by unfold blkVa at hlt; omega), Nat.add_sub_cancel' hle]
  have hin := pageIn_loads (hfresh.unmapped 1)
  generalize ht : ({ s with toStore := s.pageIn 1 } : Fs) = t at hin
  have hmapped : t.mapped 1 = true := by
    rw [← ht]
    exact Function.update_self 1 true s.mapped
  have himage' : Image t.view h.nblocks.toNat files := by
    rw [hin.view]
    exact himage.congr hdisk
  have hblocks := himage'.blocks
  unfold fsInit change checkSuper
  refine wp_modify_bind.mpr ?_
  rw [ht]
  refine returns_bind (R := fun (_ : Unit) (t' : Fs) => t' = t) ?_ (fun _ t' ht' => ?_)
  · refine returns_bind (loadWord_mapped (by decide) (show t.mapped (blockOf superVa) = true from
      hmapped)) (fun w t' h => ?_)
    obtain ⟨rfl, rfl⟩ := h
    refine (wp_bind _ _ _).mpr (wp_when (fun hbad => absurd himage'.magic hbad) (fun _ => ?_))
    refine returns_bind (loadWord_super hmapped) (fun w t'' h => ?_)
    obtain ⟨rfl, rfl⟩ := h
    refine wp_when (fun hbad => ?_) (fun _ => rfl)
    exact absurd (himage'.checked.blocks) (Nat.not_le.mpr hbad)
  · subst ht'
    refine Returns.mono (checkBitmap_returns hmapped himage'.checked (by omega))
      (fun _ s' h => ⟨h.2, fun x hle hlt => ?_⟩)
    rw [h.1.view, hin.view]
    exact hdisk x hle hlt

/-- A file of the image is read. -/
theorem openRead_returns {g first : HostFile} {n buf : Nat} {count offset : U32}
    (himage : Image h.mem h.nblocks.toNat files) (hne : files ≠ [])
    (hshort : first.name.length < maxnamelen)
    (hfind : files.find? (fun g' => decide (g'.name = g.name)) = some first)
    (hs : Mounted h s) (hoffset : offset.toNat < 2 ^ 31)
    (hbuf : ∀ x, buf ≤ x → x < buf + first.data.length → ¬ InDisk x) :
    Returns (openRead (List.replicate n slash ++ g.name) buf count offset) (fun r s' =>
      r.toNat = min count.toNat (first.data.length - offset.toNat) ∧
      bytesAt s'.view buf r.toNat = (first.data.drop offset.toNat).take r.toNat ∧
      Mounted h s') s := by
  have hname : first.name = g.name := by
    have hsome := List.find?_some hfind
    exact of_decide_eq_true hsome
  have himg := hs.image himage
  have howned := himg.owned hne
  rw [← hname] at hfind ⊢
  obtain ⟨i, hi, hfirst, hopened⟩ := himg.opened (n := n) hshort hfind
  have hnul : 0#8 ∉ List.replicate n slash ++ first.name := by
    intro hmem
    rcases List.mem_append.mp hmem with hmem | hmem
    · exact absurd (List.eq_of_mem_replicate hmem) (by decide)
    · exact first.name_nul hmem
  unfold openRead
  refine returns_bind (fileOpen_returns hs.ready howned himg.dirsOk hnul) (fun r s₁ h₁ => ?_)
  obtain ⟨hloads, rfl⟩ := h₁
  rw [hopened]
  have hs₁ := hs.loads hloads
  have himg₁ := hs₁.image himage
  have hlength : fileLength s₁.view (blkVa (endOf 3 files) + 256 * i) = first.data.length := by
    rw [himg₁.fileLength hi, hfirst]
  refine Returns.mono (fileRead_returns hs₁.ready (himg₁.owned hne) (himg₁.reach_file hi)
    (himg₁.whole hi) hoffset (fun x hle hlt => ?_)) (fun r s₂ h₂ => ?_)
  · rw [hlength] at hlt
    exact hbuf x hle (by omega)
  · obtain ⟨hr, hready, hview⟩ := h₂
    rw [hlength] at hr
    refine ⟨hr, ?_, hready, fun x hle hlt => ?_⟩
    · refine List.ext_getElem (by simp; omega) (fun k hk hk' => ?_)
      have hkr : k < r.toNat := by simpa using hk
      have hkdata : offset.toNat + k < first.data.length := by omega
      have hbyte := himg₁.fileByte (k := offset.toNat + k) hi (by rw [hfirst]; exact hkdata)
      have hget : (bytesAt s₂.view buf r.toNat)[k] = s₂.view (buf + k) := by
        simp [bytesAt]
      rw [hget, hview, List.getElem_take, List.getElem_drop]
      show (if buf ≤ buf + k ∧ buf + k < buf + r.toNat then _ else _) = _
      rw [if_pos ⟨Nat.le_add_right _ _, by omega⟩, Nat.add_sub_cancel_left, hbyte]
      simp only [hfirst]
    · rw [hview]
      refine (readTo_diskEq (fun y hle' hlt' => hbuf y hle' (by omega)) x ⟨hle, ?_⟩).trans
        (hs₁.disk x hle hlt)
      have hsmall := himage.small
      unfold blkVa blksize at hlt
      unfold disksize
      omega

/-- The formatter and the file server agree if there is a file, and only then. -/
theorem fsformat_agrees (hshort : ∀ g ∈ files, g.name.length < maxnamelen)
    (hrun : (Format.main nblocks files).run h₀ = .ret () h) :
    Agrees h files ↔ files ≠ [] := by
  obtain ⟨hnblocks, hpos, himage⟩ := wp_ret (Format.main_wp hshort) hrun
  rw [← hnblocks] at himage
  constructor
  · intro hagrees hnil
    exact himage.not_owned hnil hagrees.owned
  · intro hne
    exact {
      checks := fun s hfresh => fsInit_returns hfresh himage
      owned := himage.owned hne
      free := fun b hle hlt => by
        refine (himage.free b hlt).mpr ?_
        have hlast : (h.diskpos - diskmap) / blksize = Format.lastBlock files := by
          rw [hpos]
          unfold blkVa
          rw [Nat.add_sub_cancel_left]
          exact Nat.mul_div_cancel _ (by decide)
        rw [hlast] at hle
        exact hle
      reads := fun g _ first hfind s n buf count offset hs hoffset hbuf =>
        openRead_returns himage hne (hshort first (List.mem_of_find?_eq_some hfind)) hfind hs
          hoffset hbuf }

/-- An image with one file. -/
theorem fsformat_agrees_one : ∃ (h₀ h : Host) (g : HostFile),
    (Format.main 8#32 [g]).run h₀ = .ret () h ∧ Agrees h [g] := by
  have hrun : ∃ h, (Format.main 8#32 [⟨[slash, 97#8], [1#8, 2#8, 3#8], by decide, by decide⟩]).run
      ⟨fun _ => 0#8, 0#32, 0, 0, 0⟩ = .ret () h := ⟨_, rfl⟩
  obtain ⟨h, hrun⟩ := hrun
  exact ⟨_, h, _, hrun, (fsformat_agrees (by decide) hrun).mpr (by simp)⟩

/-- An image without files: its directory has a block that is free. -/
theorem fsformat_disagrees : ¬ ∀ (nblocks : U32) (files : List HostFile) (h₀ h : Host),
    (∀ g ∈ files, g.name.length < maxnamelen) →
    (Format.main nblocks files).run h₀ = .ret () h → Agrees h files := by
  intro hall
  have hrun : ∃ h, (Format.main 4#32 []).run ⟨fun _ => 0#8, 0#32, 0, 0, 0⟩ = .ret () h := ⟨_, rfl⟩
  obtain ⟨h, hrun⟩ := hrun
  have hagrees := hall 4#32 [] _ h (by simp) hrun
  obtain ⟨-, -, himage⟩ := wp_ret (Format.main_wp (by simp)) hrun
  exact himage.not_owned rfl hagrees.owned

end Agreement

end Jos

import Jos.BlockAllocation
import Jos.FormatAgreement

/-!
# The file server on a formatted disk

A disk that `fsformat` made of at least one file is in order, and the file server starts
on it (`Formatted.mount`).
-/

namespace Jos

open Programs Bytes Fs

/-- The file server has started on a disk that `fsformat` made of these files. -/
def Formatted (files : List HostFile) (s : Fs) : Prop :=
  ∃ (nblocks : U32) (h₀ h : Host) (s₀ : Fs), (Format.main nblocks files).run h₀ = .ret () h ∧
    Fresh h s₀ ∧ fsInit.run s₀ = .ret () s

section Order

variable {v : Bytes.Memory} {nblocks f i b : Nat} {files : List HostFile} {s : Fs}

/-- A file has no blocks beyond its extent. -/
theorem Extent.beyond {start n : Nat} (h : Extent v f start n) (hbound : start + n < 2 ^ 32)
    (hi : n ≤ i) : ¬ (slotOf f i).Has v b := by
  intro hhas
  obtain ⟨k, -, hk, hslot⟩ := h.has (by rw [slotOf_file]) hbound hhas
  by_cases hkn : k = n
  · rw [if_pos hkn] at hslot
    exact slotOf_ne_indirect hslot
  · rw [if_neg hkn] at hslot
    obtain ⟨-, rfl⟩ := slotOf_inj hslot
    unfold spanOf at hk
    split at hk <;> omega

theorem Image.diskOk (h : Image v nblocks files) (hne : files ≠ []) : DiskOk v where
  checked := h.checked
  owned := h.owned hne
  dirs := fun dir hdir htype => by
    have hspan := Format.dirSpan_le h.count
    have hroom := h.room
    have hsmall := h.small
    rcases h.reach hdir with rfl | ⟨j, hj, rfl⟩
    · refine ⟨⟨dirSpan files.length, by omega, ?_⟩, fun i b hi => ?_⟩
      · rw [Nat.mul_comm]
        exact h.size
      · rw [h.dirNblocks] at hi
        exact h.extent.beyond (by omega) hi
    · have hreg := (h.file hj).type
      rw [htype] at hreg
      cases hreg

theorem Formatted.image (h : Formatted files s)
    (hshort : ∀ g ∈ files, g.name.length < maxnamelen) :
    ∃ h' nblocks, Mounted h' s ∧ Image s.view nblocks files := by
  obtain ⟨nblocks, h₀, h, s₀, hrun, hfresh, hinit⟩ := h
  obtain ⟨hnblocks, -, himage⟩ := wp_ret (Format.main_wp hshort) hrun
  rw [← hnblocks] at himage
  have hs : Mounted h s := wp_ret (fsInit_returns hfresh himage) hinit
  exact ⟨h, _, hs, hs.image himage⟩

theorem Formatted.mount (h : Formatted files s)
    (hshort : ∀ g ∈ files, g.name.length < maxnamelen) (hne : files ≠ []) : Mount s := by
  obtain ⟨_, _, hs, himage⟩ := h.image hshort
  exact Mount.of_ready hs.ready (himage.diskOk hne)

/-- A disk from the host, of which nothing has been read. -/
def freshFs (h : Host) : Fs :=
  ⟨⟨fun _ => 0#8, fun x => h.mem (diskmap + x), fun _ => false, fun _ => false⟩, []⟩

/-- The file server starts on what is formatted. -/
theorem formatted_start {nblocks : U32} {h₀ h : Host}
    (hrun : (Format.main nblocks files).run h₀ = .ret () h)
    (hshort : ∀ g ∈ files, g.name.length < maxnamelen) :
    Formatted files (fsInit.run (freshFs h)).state := by
  obtain ⟨hnblocks, -, himage⟩ := wp_ret (Format.main_wp hshort) hrun
  rw [← hnblocks] at himage
  have hfresh : Fresh h (freshFs h) := ⟨fun _ => rfl, fun _ _ => rfl⟩
  obtain ⟨_, s, hinit, -⟩ := returns_iff.mp (fsInit_returns hfresh himage)
  refine ⟨nblocks, h₀, h, freshFs h, hrun, hfresh, ?_⟩
  rw [hinit]
  rfl

/-- A file of three bytes, and a disk with it and one free block. -/
def threeBytes : HostFile := ⟨[slash, 97#8], [1#8, 2#8, 3#8], by decide, by decide⟩

def threeHost : Host :=
  ((Format.main 6#32 [threeBytes]).run ⟨fun _ => 0#8, 0#32, 0, 0, 0⟩).state

def threeFs : Fs := (fsInit.run (freshFs threeHost)).state

theorem threeFs_formatted : Formatted [threeBytes] threeFs := by
  have hrun : (Format.main 6#32 [threeBytes]).run ⟨fun _ => 0#8, 0#32, 0, 0, 0⟩ =
      .ret () threeHost := rfl
  exact formatted_start hrun (by decide)

theorem threeFs_mount : Mount threeFs := threeFs_formatted.mount (by decide) (by decide)

/-- The file is the first one in the block of the directory. -/
theorem threeFs_file : Reach threeFs.view (blkVa 4) ∧ ¬ IsDir threeFs.view (blkVa 4) ∧
    fileSize threeFs.view (blkVa 4) = 3#32 ∧ Whole threeFs.view (blkVa 4) := by
  obtain ⟨_, _, _, himage⟩ := threeFs_formatted.image (by decide)
  have hi : 0 < [threeBytes].length := by decide
  have hva : blkVa (endOf 3 [threeBytes]) + 256 * 0 = blkVa 4 := by decide
  have hfile := himage.file hi
  have hreach := himage.reach_file hi
  have hwhole := himage.whole hi
  rw [hva] at hfile hreach hwhole
  refine ⟨hreach, fun htype => ?_, hfile.size, hwhole⟩
  exact absurd (htype.symm.trans hfile.type) (by decide)

end Order

end Jos

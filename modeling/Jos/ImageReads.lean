import Jos.Formatting
import Jos.FileContents

/-!
# The file server on a formatted disk

What `Image` means to `fs/fs.c`: the blocks of its files are owned, its directory is in
order, and a name leads to the first file that has it, with the bytes of that file.
All of it is about an image with at least one file: the directory of an image without
files has a block that is free.
-/

namespace Jos

open Programs Bytes Fs

section Extents

variable {v v' : Bytes.Memory} {f g start n b i k : Nat} {p : Slot}

/-- A slot of a file in consecutive blocks says which block it has. -/
theorem Extent.has (h : Extent v f start n) (hfile : p.file = f)
    (hbound : start + n < 2 ^ 32) (hhas : p.Has v b) :
    ∃ k, b = start + k ∧ k < spanOf n ∧ p = if k = n then .indirect f else slotOf f k := by
  have hmod : ∀ k, k ≤ n → (BitVec.ofNat 32 (start + k)).toNat = start + k := by
    intro k hk
    rw [BitVec.toNat_ofNat]
    omega
  have hspan := spanOf_ge (n := n)
  cases p with
  | direct f' i =>
      obtain rfl : f' = f := hfile
      have hi : i < ndirect := hhas.exist
      have hval : (word v (fDirectVa f' i)).toNat = b := hhas.val
      rw [h.direct i hi] at hval
      split at hval
      · rw [hmod i (by omega)] at hval
        refine ⟨i, hval.symm, by omega, ?_⟩
        rw [if_neg (by omega)]
        exact (if_pos hi).symm
      · exact absurd hval.symm hhas.ne
  | indirect f' =>
      obtain rfl : f' = f := hfile
      have hval : (word v (fIndirectVa f')).toNat = b := hhas.val
      rw [h.indirect] at hval
      split at hval
      · rw [hmod n (Nat.le_refl n)] at hval
        refine ⟨n, hval.symm, ?_, (if_pos rfl).symm⟩
        unfold spanOf
        rw [if_pos ‹_›]
        exact Nat.lt_succ_self n
      · exact absurd hval.symm hhas.ne
  | entry f' j =>
      obtain rfl : f' = f := hfile
      obtain ⟨hne, hj⟩ := hhas.exist
      have hten : ndirect ≤ n := by
        refine Nat.le_of_not_lt (fun hlt => hne ?_)
        unfold indirectOf
        rw [h.indirect, if_neg (by omega)]
        rfl
      have hind : indirectOf v f' = start + n := by
        unfold indirectOf
        rw [h.indirect, if_pos hten, hmod n (Nat.le_refl n)]
      have hval : (word v (blkVa (indirectOf v f') + 4 * j)).toNat = b := hhas.val
      rw [hind, h.entries hten j hj] at hval
      split at hval
      · rw [hmod _ (by omega)] at hval
        refine ⟨ndirect + j, hval.symm, by omega, ?_⟩
        rw [if_neg (by omega)]
        unfold slotOf
        rw [if_neg (by omega), Nat.add_sub_cancel_left]
      · exact absurd hval.symm hhas.ne

/-- The blocks of the contents. -/
theorem Extent.block (h : Extent v f start n) (hn : n ≤ ndirect + nindirect)
    (hbound : start + n < 2 ^ 32) (hpos : 0 < start) (hk : k < n) :
    (slotOf f k).Has v (start + k) := by
  have hmod : (BitVec.ofNat 32 (start + k)).toNat = start + k := by
    rw [BitVec.toNat_ofNat]
    omega
  unfold slotOf
  by_cases hdirect : k < ndirect
  · rw [if_pos hdirect]
    refine ⟨hdirect, ?_, by omega⟩
    show (word v (fDirectVa f k)).toNat = start + k
    rw [h.direct k hdirect, if_pos hk, hmod]
  · have hind : indirectOf v f = start + n := by
      unfold indirectOf
      rw [h.indirect, if_pos (by omega), BitVec.toNat_ofNat]
      omega
    rw [if_neg hdirect]
    refine ⟨⟨by rw [hind]; omega, by omega⟩, ?_, by omega⟩
    show (word v (blkVa (indirectOf v f) + 4 * (k - ndirect))).toNat = start + k
    rw [hind, h.entries (by omega) _ (by omega), if_pos (by omega),
      show ndirect + (k - ndirect) = k by omega, hmod]

end Extents

section Images

variable {v v' : Bytes.Memory} {nblocks f g b i : Nat} {files : List HostFile} {p q : Slot}

/-- The bytes of the image are all that matters. -/
theorem Image.congr (h : Image v nblocks files)
    (heq : ∀ x, diskmap ≤ x → x < blkVa nblocks → v' x = v x) : Image v' nblocks files := by
  have hroom := h.room
  have hstart : 3 ≤ endOf 3 files := endOf_ge
  have hspan := Format.dirSpan_le h.count
  have hlow : blkVa 3 ≤ blkVa nblocks := Format.blkVa_mono (by omega)
  have hbase : diskmap ≤ blkVa 3 ∧ rootVa + 256 ≤ blkVa 3 := by decide
  have hfiles : blkVa 3 ≤ blkVa (endOf 3 files) := Format.blkVa_mono hstart
  have hdir : blkVa (endOf 3 files) + dirSpan files.length * 4096 ≤ blkVa nblocks := by
    rw [← blkVa_add]
    exact Format.blkVa_mono (by omega)
  have hword : ∀ a, diskmap ≤ a → a + 4 ≤ blkVa 3 → word v' a = word v a := fun a ha ha' =>
    word_congr (fun x hle hlt => heq x (by omega) (by omega))
  have hblocks : diskBlocks v' = nblocks := by
    rw [← h.blocks]
    exact congrArg BitVec.toNat (hword _ (by decide) (by decide))
  have hnone : ¬ ndirect ≤ dirSpan files.length := by
    unfold ndirect
    omega
  unfold blkfiles at hspan
  exact {
    magic := (hword _ (by decide) (by decide)).trans h.magic
    blocks := hblocks
    small := h.small
    type := (hword _ (by decide) (by decide)).trans h.type
    size := (hword _ (by decide) (by decide)).trans h.size
    extent := by
      refine h.extent.move (fun x hx => heq _ ?_ (by omega)) (fun x hle hlt => heq x (by omega) ?_)
      · exact Nat.le_trans (by decide) (Nat.le_add_right _ _)
      · unfold spanOf at hlt
        rw [if_neg hnone, Nat.add_zero, blkVa_add] at hlt
        omega
    records := h.records.move (fun x hx => heq _ (by omega) (by omega))
      (fun x hle hlt => heq x (by omega) (by omega))
    count := h.count
    rest := fun m hle hlt => by
      unfold blkfiles at hlt
      exact (heq _ (by omega) (by omega)).trans (h.rest m hle hlt)
    room := h.room
    free := fun b hb => by
      have hsmall := h.small
      have hbits : diskmap ≤ bitmapVa b ∧ bitmapVa b + 4 ≤ blkVa 3 := by
        unfold bitmapVa blkVa blksize
        omega
      rw [← h.free b hb]
      have hold := h.blocks
      unfold diskBlocks at hblocks hold
      unfold Free
      rw [hblocks, hold, hword _ hbits.1 hbits.2] }

variable (h : Image v nblocks files)

include h

theorem Image.dirNblocks : Jos.dirNblocks v rootVa = dirSpan files.length := by
  have hspan := Format.dirSpan_le h.count
  have hsize : (word v (fSizeVa rootVa)).toNat = dirSpan files.length * 4096 := by
    rw [h.size, BitVec.toNat_ofNat]
    omega
  unfold Jos.dirNblocks
  rw [sdiv_nat (by omega), hsize]
  exact Nat.mul_div_cancel _ (by decide)

/-- The blocks of the directory. -/
theorem Image.dirBlock (hi : i < dirSpan files.length) :
    (slotOf rootVa i).Has v (endOf 3 files + i) := by
  have hspan := Format.dirSpan_le h.count
  have hstart : 3 ≤ endOf 3 files := endOf_ge
  have hroom := h.room
  have hsmall := h.small
  exact h.extent.block (by unfold ndirect nindirect; omega) (by omega) (by omega) hi

/-- File `i`, its record and its blocks. -/
theorem Image.file (hi : i < files.length) : FileAt v (blkVa (endOf 3 files) + 256 * i)
    (endOf 3 (files.take i)) files[i] := h.records.get hi

/-- A reachable file of the image is the root or one of the files. -/
theorem Image.reach (hf : Reach v f) : f = rootVa ∨
    ∃ i, i < files.length ∧ f = blkVa (endOf 3 files) + 256 * i := by
  induction hf with
  | root => exact Or.inl rfl
  | @entry dir i b j hdir htype hi hhas hj hname ih =>
      rcases ih with rfl | ⟨k, hk, rfl⟩
      · rw [h.dirNblocks] at hi
        have hb : b = endOf 3 files + i := hhas.val.symm.trans (h.dirBlock hi).val
        have hva : fileVa b j = blkVa (endOf 3 files) + 256 * (i * blkfiles + j) := by
          rw [hb]
          unfold fileVa blkfiles
          rw [blkVa_add]
          omega
        refine Or.inr ⟨i * blkfiles + j, ?_, hva⟩
        refine Nat.lt_of_not_le (fun hle => hname ?_)
        rw [hva]
        refine h.rest _ hle ?_
        unfold blkfiles at *
        omega
      · have hreg := (h.file hk).type
        rw [htype] at hreg
        cases hreg

theorem Image.reach_file (hi : i < files.length) :
    Reach v (blkVa (endOf 3 files) + 256 * i) := by
  have hspan := Format.dirSpan_le h.count
  have hblock : i / 16 < dirSpan files.length := by
    unfold blkfiles at hspan
    omega
  have hva : blkVa (endOf 3 files) + 256 * i = fileVa (endOf 3 files + i / 16) (i % 16) := by
    unfold fileVa
    rw [blkVa_add]
    omega
  have hname := (h.file hi).name
  rw [hva] at hname ⊢
  refine Reach.entry Reach.root h.type (by rw [h.dirNblocks]; exact hblock) (h.dirBlock hblock)
    (Nat.mod_lt _ (by decide)) (fun hzero => ?_)
  cases hn : files[i].name with
  | nil => exact files[i].named hn
  | cons c cs =>
      rw [hn] at hname
      have hc := (nameAt_cons.mp hname).1
      rw [hzero] at hc
      refine files[i].name_nul ?_
      rw [hn, hc]
      exact List.mem_cons_self

/-- The blocks that a slot of the root or of a file can have. -/
theorem Image.holds (hp : Holds v p b) :
    (∃ k, b = endOf 3 files + k ∧ k < dirSpan files.length ∧ p = slotOf rootVa k) ∨
    ∃ i k, ∃ hi : i < files.length, b = endOf 3 (files.take i) + k ∧
      b < endOf 3 (files.take (i + 1)) ∧
      p = if k = blocksOf files[i].data.length then .indirect (blkVa (endOf 3 files) + 256 * i)
        else slotOf (blkVa (endOf 3 files) + 256 * i) k := by
  have hspan := Format.dirSpan_le h.count
  have hroom := h.room
  have hsmall := h.small
  rcases h.reach hp.reach with hroot | ⟨i, hi, hfile⟩
  · obtain ⟨k, rfl, hk, hslot⟩ := h.extent.has hroot (by omega) hp.has
    have hnone : spanOf (dirSpan files.length) = dirSpan files.length := by
      unfold spanOf ndirect
      rw [if_neg (by omega), Nat.add_zero]
    rw [hnone] at hk
    rw [if_neg (by omega)] at hslot
    exact Or.inl ⟨k, rfl, hk, hslot⟩
  · have hat := h.file hi
    have hnext := endOf_take (p := 3) hi
    have hle : endOf 3 (files.take (i + 1)) ≤ endOf 3 files := endOf_take_all hi
    have hblocks := spanOf_ge (n := blocksOf files[i].data.length)
    unfold HostFile.span at hnext
    obtain ⟨k, rfl, hk, hslot⟩ := hat.extent.has hfile (by omega) hp.has
    exact Or.inr ⟨i, k, hi, rfl, by omega, hslot⟩

theorem Image.inj (hp : Holds v p b) (hq : Holds v q b) : p = q := by
  have hend : ∀ i, i < files.length → endOf 3 (files.take (i + 1)) ≤ endOf 3 files :=
    fun _ hi => endOf_take_all hi
  rcases h.holds hp with ⟨k, hbk, hk, rfl⟩ | ⟨i, k, hi, hbk, hlt, rfl⟩
  · rcases h.holds hq with ⟨l, hbl, hl, rfl⟩ | ⟨j, l, hj, hbl, hlt', rfl⟩
    · obtain rfl : k = l := by omega
      rfl
    · have hle := hend j hj
      omega
  · rcases h.holds hq with ⟨l, hbl, hl, rfl⟩ | ⟨j, l, hj, hbl, hlt', rfl⟩
    · have hle := hend i hi
      omega
    · rcases Nat.lt_trichotomy i j with hij | rfl | hij
      · have hle : endOf 3 (files.take (i + 1)) ≤ endOf 3 (files.take j) := endOf_take_le hij
        omega
      · obtain rfl : k = l := by omega
        rfl
      · have hle : endOf 3 (files.take (j + 1)) ≤ endOf 3 (files.take i) := endOf_take_le hij
        omega

theorem Image.firstBlock : Jos.firstBlock v = 3 := by
  have hroom := h.room
  have hsmall := h.small
  unfold Jos.firstBlock
  rw [h.blocks]
  omega

/-- `check_super` and `check_bitmap` pass. -/
theorem Image.checked : Checked v where
  blocks := by
    have hsmall := h.small
    rw [h.blocks]
    unfold disksize blksize
    omega
  reserved := fun b hb hfree => by
    have hstart : 3 ≤ endOf 3 files := endOf_ge
    rw [h.firstBlock] at hb
    have hle := (h.free b (by have hroom := h.room; omega)).mp hfree
    omega

/-- The blocks of an image with files are owned. -/
theorem Image.owned (hne : files ≠ []) : Owned v := by
  have hpos : 0 < files.length := List.length_pos_iff.mpr hne
  have hspan : dirSpan files.length = blocksOf (files.length * 256) := by
    unfold dirSpan blocksOf
    omega
  have hroom := h.room
  have hrange : ∀ p b, Holds v p b →
      3 ≤ b ∧ b < endOf 3 files + blocksOf (files.length * 256) := by
    intro p b hp
    rcases h.holds hp with ⟨k, rfl, hk, -⟩ | ⟨i, k, hi, hbk, hlt, -⟩
    · have hstart : 3 ≤ endOf 3 files := endOf_ge
      omega
    · have hstart : 3 ≤ endOf 3 (files.take i) := endOf_ge
      have hmono : endOf 3 (files.take (i + 1)) ≤ endOf 3 files := endOf_take_all hi
      omega
  exact {
    inj := fun p q b => h.inj
    range := fun p b hp => by
      rw [h.firstBlock, h.blocks]
      have hb := hrange p b hp
      exact ⟨hb.1, by omega⟩
    used := fun p b hp hfree => by
      have hb := hrange p b hp
      have hle := (h.free b (by omega)).mp hfree
      omega }

/-- Without files, the directory has a block that is free. -/
theorem Image.not_owned (hnil : files = []) : ¬ Owned v := by
  subst hnil
  intro howned
  have hroom := h.room
  have hhas : (slotOf rootVa 0).Has v 3 := h.dirBlock (by decide)
  refine howned.used _ 3 ⟨Reach.root, hhas⟩ ((h.free 3 hroom).mpr (Nat.le_refl 3))

/-- The only directory is the root. -/
theorem Image.dirsOk : DirsOk v := by
  intro dir hdir htype
  rcases h.reach hdir with rfl | ⟨i, hi, rfl⟩
  · have hspan := Format.dirSpan_le h.count
    have hsize : (word v (fSizeVa rootVa)).toNat = dirSpan files.length * 4096 := by
      rw [h.size, BitVec.toNat_ofNat]
      omega
    refine ⟨?_, fun i hi => ?_⟩
    · apply BitVec.eq_of_toNat_eq
      rw [srem_nat (by omega), hsize]
      exact Nat.mul_mod_left _ _
    · rw [h.dirNblocks] at hi
      exact ⟨_, h.dirBlock hi⟩
  · have hreg := (h.file hi).type
    rw [htype] at hreg
    cases hreg

end Images

/-! ## Names and contents -/

section Names

variable {v : Bytes.Memory} {nblocks f i n m : Nat} {files gs : List HostFile} {g : HostFile}
  {name : List U8}

theorem findIn_succ : findIn v name f (n + 1) =
    if NameAt v f name then some f else findIn v name (f + 256) n := rfl

theorem findIn_add : findIn v name f (n + m) = match findIn v name f n with
    | some g => some g
    | none => findIn v name (f + 256 * n) m := by
  induction n generalizing f with
  | zero =>
      rw [Nat.zero_add]
      rfl
  | succ n ih =>
      rw [Nat.add_right_comm, findIn_succ, findIn_succ]
      split
      · rfl
      · rw [ih, show f + 256 + 256 * n = f + 256 * (n + 1) by omega]

/-- Among the records of files, the first with the name is found. -/
theorem FilesAt.find (h : FilesAt v f n gs) (hnul : 0#8 ∉ name)
    (hfind : gs.find? (fun g => decide (g.name = name)) = some g) :
    ∃ i, ∃ hi : i < gs.length, gs[i] = g ∧
      findIn v name f (gs.length + m) = some (f + 256 * i) := by
  induction gs generalizing f n with
  | nil => cases hfind
  | cons g' gs ih =>
      have hname := h.1.name
      have hlen : (g' :: gs).length + m = gs.length + m + 1 := by
        rw [List.length_cons]
        omega
      by_cases heq : g'.name = name
      · rw [List.find?_cons_of_pos (by simpa using heq)] at hfind
        cases hfind
        refine ⟨0, by simp, rfl, ?_⟩
        rw [heq] at hname
        rw [hlen, findIn_succ, if_pos hname]
        rfl
      · rw [List.find?_cons_of_neg (by simpa using heq)] at hfind
        obtain ⟨i, hi, hg, hfound⟩ := ih h.2 hfind
        refine ⟨i + 1, Nat.succ_lt_succ hi, hg, ?_⟩
        have hother : ¬ NameAt v f name := fun hat =>
          heq (nameAt_inj hname hat g'.name_nul hnul)
        rw [hlen, findIn_succ, if_neg hother, hfound]
        exact congrArg some (by omega)

variable (h : Image v nblocks files)

include h

/-- The blocks of the directory follow each other. -/
theorem Image.scan_eq (hn : i + n ≤ dirSpan files.length) :
    scan v (fun blk => findIn v name blk blkfiles) rootVa i n =
      findIn v name (blkVa (endOf 3 files + i)) (n * blkfiles) := by
  induction n generalizing i with
  | zero =>
      rw [Nat.zero_mul]
      rfl
  | succ n ih =>
      have hva : blkVa (endOf 3 files + i) + 256 * blkfiles = blkVa (endOf 3 files + (i + 1)) := by
        unfold blkVa blksize blkfiles
        omega
      rw [Nat.succ_mul, Nat.add_comm (n * blkfiles), findIn_add, hva, ← ih (by omega)]
      show (match findIn v name (blkVa ((slotOf rootVa i).val v)) blkfiles with
        | some f => some f
        | none => _) = _
      rw [(h.dirBlock (by omega)).val]

/-- A name leads to the first file that has it. -/
theorem Image.lookup (hnul : 0#8 ∉ name)
    (hfind : files.find? (fun g => decide (g.name = name)) = some g) :
    ∃ i, ∃ hi : i < files.length, files[i] = g ∧
      Jos.lookup v rootVa name = some (blkVa (endOf 3 files) + 256 * i) := by
  have hspan := Format.dirSpan_le h.count
  obtain ⟨i, hi, hg, hfound⟩ := h.records.find
    (m := dirSpan files.length * blkfiles - files.length) hnul hfind
  refine ⟨i, hi, hg, ?_⟩
  rw [Nat.add_sub_cancel' hspan.2.2.2] at hfound
  unfold Jos.lookup
  rw [h.dirNblocks, h.scan_eq (by omega)]
  exact hfound

omit h in
theorem walkIn_nil {dir : Option Nat} : walkIn v dir f n [] = .found dir f := by
  cases n with
  | zero => rfl
  | succ n => rfl

omit h in
theorem skipSlash_replicate {path : List U8} (hhead : ∀ c cs, path = c :: cs → c ≠ slash) :
    skipSlash (List.replicate n slash ++ path) = path := by
  induction n with
  | zero =>
      cases path with
      | nil => rfl
      | cons c cs => exact if_neg (hhead c cs rfl)
  | succ n ih =>
      rw [List.replicate_succ, List.cons_append]
      exact (if_pos rfl).trans ih

/-- `file_open` of the name of a file, after any number of slashes. -/
theorem Image.opened (hshort : g.name.length < maxnamelen)
    (hfind : files.find? (fun g' => decide (g'.name = g.name)) = some g) :
    ∃ i, ∃ hi : i < files.length, files[i] = g ∧
      Jos.opened v (List.replicate n slash ++ g.name) =
        .ok (blkVa (endOf 3 files) + 256 * i) := by
  obtain ⟨i, hi, hg, hlook⟩ := h.lookup g.name_nul hfind
  refine ⟨i, hi, hg, ?_⟩
  have hslash : ∀ c ∈ g.name, c ≠ slash := fun c hc => (lastName_mem hc).2
  cases hname : g.name with
  | nil => exact absurd hname g.named
  | cons c cs =>
      rw [hname] at hslash hshort hlook
      have hskip : skipSlash (List.replicate n slash ++ c :: cs) = c :: cs :=
        skipSlash_replicate (fun d ds hd => hslash d (hd ▸ List.mem_cons_self))
      have htake : (c :: cs).takeWhile (· ≠ slash) = c :: cs :=
        List.takeWhile_eq_self_iff.mpr (fun d hd => by simpa using hslash d hd)
      have hdrop : (c :: cs).dropWhile (· ≠ slash) = [] :=
        List.dropWhile_eq_nil_iff.mpr (fun d hd => by simpa using hslash d hd)
      have hwalk : walk v (List.replicate n slash ++ c :: cs) =
          .found (some rootVa) (blkVa (endOf 3 files) + 256 * i) := by
        unfold walk
        rw [hskip, List.length_append, List.length_cons, ← Nat.add_assoc]
        unfold walkIn
        dsimp only
        have htype : word v (fTypeVa rootVa) = ftypeDir := h.type
        rw [htake, hdrop, if_neg (Nat.not_le.mpr hshort), if_neg (not_not_intro htype), hlook]
        exact walkIn_nil
      unfold Jos.opened
      rw [hwalk]

/-- The size of a file. -/
theorem Image.fileLength (hi : i < files.length) :
    Jos.fileLength v (blkVa (endOf 3 files) + 256 * i) = files[i].data.length := by
  have hat := h.file hi
  have hlt : files[i].data.length < 4235264 := hat.size_lt
  unfold Jos.fileLength fileSize
  rw [hat.size, BitVec.toInt_eq_toNat_of_lt, BitVec.toNat_ofNat]
  · omega
  · rw [BitVec.toNat_ofNat]
    omega

theorem Image.block {k : Nat} (hi : i < files.length)
    (hk : k < blocksOf files[i].data.length) :
    (slotOf (blkVa (endOf 3 files) + 256 * i) k).Has v (endOf 3 (files.take i) + k) := by
  have hat := h.file hi
  have hlt : files[i].data.length < 4235264 := hat.size_lt
  have hstart : 3 ≤ endOf 3 (files.take i) := endOf_ge
  have hmono : endOf 3 (files.take i) ≤ endOf 3 files := endOf_take_all (Nat.le_of_lt hi)
  have hroom := h.room
  have hsmall := h.small
  have hblocks : blocksOf files[i].data.length ≤ 1034 := by
    unfold blocksOf
    omega
  exact hat.extent.block hblocks (by omega) (by omega) hk

theorem Image.whole (hi : i < files.length) :
    Whole v (blkVa (endOf 3 files) + 256 * i) := by
  intro k hk
  rw [h.fileLength hi] at hk
  exact ⟨_, h.block hi hk⟩

/-- The contents of a file. -/
theorem Image.fileByte {k : Nat} (hi : i < files.length) (hk : k < files[i].data.length) :
    Jos.fileByte v (blkVa (endOf 3 files) + 256 * i) k = files[i].data[k] := by
  have hblock : k / 4096 < blocksOf files[i].data.length := by
    unfold blocksOf
    omega
  unfold Jos.fileByte
  rw [(h.block hi hblock).val, ← bytesAt_getElem (h.file hi).data hk, blkVa_add]
  exact congrArg v (by omega)

end Names

end Jos
